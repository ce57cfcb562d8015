/-
  The magnitudes of 64-bit binary floating point. Without its sign a number is a bit pattern
  below `2^63`; the finite patterns grow with the magnitude they stand for, `infinity` follows
  the largest of them, and everything above it is no number.
  A finite pattern stands for `units` times `2^-1074`. `nearest` rounds a quotient to a pattern,
  a tie going to the even one. `units_succ`: within a scale the next pattern is one step further.
-/
namespace WordStack.Number

def twoTo (n : Nat) : Nat := Nat.pow 2 n

def tenTo (n : Nat) : Nat := Nat.pow 10 n

/-- The patterns between two powers of two: 52 bits follow the first bit of a significand. -/
def patternsPerScale : Nat := twoTo 52

def infinity : Nat := 2047 * patternsPerScale

/-- The pattern that stands for a result that is no number. -/
def notANumber : Nat := infinity + twoTo 51

/-- The logarithm to base two of the step to the next pattern, in units of `2^-1074`. -/
def scale (pattern : Nat) : Nat := pattern / patternsPerScale - 1

def significand (pattern : Nat) : Nat := pattern - scale pattern * patternsPerScale

/-- The magnitude of a finite pattern as a multiple of `2^-1074`. -/
def units (pattern : Nat) : Nat := significand pattern * twoTo (scale pattern)

/-- The quotient rounded to a whole number, a half to the even one. -/
def divHalfEven (num den : Nat) : Nat :=
  let q := num / den
  let r := num % den
  if 2 * r < den then q
  else if den < 2 * r then q + 1
  else q + q % 2

/-- The pattern nearest to `num / den`. A significand of 53 bits is kept, so the quotient in
units of `2^-1074` is rounded to a multiple of `2^k`, where `k` is what exceeds 53 bits; rounding
up to 54 bits gives the first pattern of the next scale. -/
def nearest (num den : Nat) : Nat :=
  let n := num * twoTo 1074
  let k := (n / den).log2 - 52
  min (k * patternsPerScale + divHalfEven n (den * twoTo k)) infinity

/-- The bit of a pattern that is set for a negative number. -/
def signBit : Nat := twoTo 63

/-- The number with this sign and magnitude. -/
def ofPattern (negative : Bool) (magnitude : Nat) : Float :=
  Float.ofBits (UInt64.ofNat (if negative then signBit + magnitude else magnitude))

def isNegative (x : Float) : Bool := signBit ≤ x.toBits.toNat

def magnitude (x : Float) : Nat := x.toBits.toNat % signBit

/-- A count as a number; above `2^53` it is rounded. -/
def ofCount (n : Nat) : Float := ofPattern false (nearest n 1)

theorem scale_mul_le (pattern : Nat) : scale pattern * patternsPerScale ≤ pattern :=
  Nat.le_trans (Nat.mul_le_mul_right _ (Nat.sub_le _ 1)) (Nat.div_mul_le_self pattern _)

theorem scale_add_significand (pattern : Nat) :
    scale pattern * patternsPerScale + significand pattern = pattern :=
  Nat.add_sub_cancel' (scale_mul_le pattern)

/-- Within a scale the next pattern is one step further. -/
theorem units_succ {pattern : Nat} (h : scale (pattern + 1) = scale pattern) :
    units (pattern + 1) = units pattern + twoTo (scale pattern) := by
  have : significand (pattern + 1) = significand pattern + 1 := by
    rw [significand, significand, h, Nat.sub_add_comm (scale_mul_le pattern)]
  rw [units, units, this, h, Nat.add_mul, Nat.one_mul]

end WordStack.Number
