import WordStack.Number.Magnitude

/-
  Writing a number: the fewest digits that read back as the same number, without an exponent.
  A magnitude has finitely many decimal places and is a whole multiple of the last of them. The
  multiples of each coarser power of ten are tried from the coarsest down; on the first grid where
  a neighbour of the magnitude is rounded back to it, the nearer such neighbour is written, of two
  equally near ones the larger. The finest grid holds the magnitude itself, so the search ends
  with an exact answer at worst.
-/
namespace WordStack.Number

/-- A finite pattern with its exact magnitude, in units of the last decimal place. -/
structure Expansion where
  pattern : Nat
  places : Nat
  /-- The step to the next pattern. -/
  step : Nat
  value : Nat

namespace Expansion

/-- A step is a power of two; `2^-p` has `p` decimal places, and `5^p` units of the last. -/
def ofPattern (pattern : Nat) : Expansion :=
  let places := 1074 - scale pattern
  let step := Nat.pow 5 places * twoTo (scale pattern - 1074)
  ⟨pattern, places, step, significand pattern * step⟩

/-- Is a number of units rounded to the pattern? It differs from the magnitude by half a step at
most; that is compared first, because it takes less. -/
def holds (e : Expansion) (units : Nat) : Bool :=
  let distance := if e.value ≤ units then units - e.value else e.value - units
  2 * distance ≤ e.step && nearest units (tenTo e.places) == e.pattern

/-- The multiple of `10^n` units to write, if there is one. -/
def onGrid? (e : Expansion) (n : Nat) : Option Nat :=
  let unit := tenTo n
  let low := e.value / unit
  let (near, far) := if 2 * (e.value % unit) < unit then (low, low + 1) else (low + 1, low)
  if e.holds (near * unit) then some near
  else if e.holds (far * unit) then some far
  else none

/-- The digits to write and the power of ten that they multiply, from the grid `10^n` down. -/
def search (e : Expansion) : Nat → Nat × Nat
  | 0 => (e.value, 0)
  | n + 1 =>
    match e.onGrid? (n + 1) with
    | some d => (d, n + 1)
    | none => e.search n

/-- The fewest digits that read back as the pattern, as a multiple of a power of ten in units.
The search starts above the magnitude: `30103 / 100000` exceeds the logarithm of two. -/
def shortest (e : Expansion) : Nat × Nat := e.search ((e.value.log2 + 1) * 30103 / 100000 + 1)

end Expansion

/-- The digits of `d * 10^n` units, where a unit is this many places after the point. -/
def positional (places d n : Nat) : List Char :=
  let digits := Nat.toDigits 10 d
  if places ≤ n then digits ++ List.replicate (n - places) '0'
  else
    let places := places - n
    let padded := List.replicate (places + 1 - digits.length) '0' ++ digits
    padded.take (padded.length - places) ++ '.' :: padded.drop (padded.length - places)

/-- A magnitude without its sign. -/
def renderMagnitude (pattern : Nat) : List Char :=
  if pattern = 0 then ['0']
  else if pattern < infinity then
    let e := Expansion.ofPattern pattern
    let (d, n) := e.shortest
    positional e.places d n
  else "inf".toList

/-- The text of a number. What is no number has no sign. -/
def render (x : Float) : String :=
  if infinity < magnitude x then "NaN"
  else String.ofList ((if isNegative x then ['-'] else []) ++ renderMagnitude (magnitude x))

end WordStack.Number
