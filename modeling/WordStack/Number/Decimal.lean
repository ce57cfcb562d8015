import WordStack.Number.Magnitude

/-
  Reading a number: an optional sign, then digits with an optional point among or around them
  and an optional exponent, or one of the words `inf`, `infinity` and `nan` in any case. The
  decimal is rounded to the nearest number, a tie going to the even one.
-/
namespace WordStack.Number

def digitValue (c : Char) : Nat := c.toNat - '0'.toNat

def ofDigits (cs : List Char) : Nat := cs.foldl (fun n c => 10 * n + digitValue c) 0

/-- One or more digits and nothing else. -/
def natural? (cs : List Char) : Option Nat :=
  if cs ≠ [] ∧ cs.all Char.isDigit then some (ofDigits cs) else none

/-- A whole number with an optional sign. -/
def integer? : List Char → Option Int
  | '-' :: cs => (natural? cs).map fun n => -(n : Int)
  | '+' :: cs => (natural? cs).map fun n => (n : Int)
  | cs => (natural? cs).map fun n => (n : Int)

/-- What may follow the digits of a decimal: nothing, or its exponent. -/
def exponent? : List Char → Option Int
  | [] => some 0
  | c :: cs => if c = 'e' ∨ c = 'E' then integer? cs else none

/-- The pattern nearest to `m * 10^e`. The first two tests only keep the powers of ten small:
`10^310` is beyond every finite number, and `m` has at most `log2 m + 1` digits, so below the
second bound the decimal is less than half of the least positive number. -/
def scaled (m : Nat) (e : Int) : Nat :=
  if m = 0 ∨ e + m.log2 < -400 then 0
  else if 400 < e then infinity
  else
    match e with
    | .ofNat n => nearest (m * tenTo n) 1
    | .negSucc n => nearest m (tenTo (n + 1))

/-- The digits after a point, if one comes next, and what follows them. -/
def fraction : List Char → List Char × List Char
  | '.' :: cs => (cs.takeWhile Char.isDigit, cs.dropWhile Char.isDigit)
  | cs => ([], cs)

/-- A decimal without a sign. At least one digit stands before or after the point. -/
def decimal? (cs : List Char) : Option Nat :=
  let whole := cs.takeWhile Char.isDigit
  let (places, rest) := fraction (cs.dropWhile Char.isDigit)
  if whole = [] ∧ places = [] then none
  else (exponent? rest).map fun e => scaled (ofDigits (whole ++ places)) (e - places.length)

/-- The words for the magnitudes that are not finite. -/
def named? (cs : List Char) : Option Nat :=
  let word := String.ofList (cs.map Char.toUpper)
  if word = "INF" ∨ word = "INFINITY" then some infinity
  else if word = "NAN" then some notANumber
  else none

def magnitude? (cs : List Char) : Option Nat := (decimal? cs).or (named? cs)

/-- The number that a text stands for. -/
def parse? (s : String) : Option Float :=
  match s.toList with
  | '-' :: cs => (magnitude? cs).map (ofPattern true)
  | '+' :: cs => (magnitude? cs).map (ofPattern false)
  | cs => (magnitude? cs).map (ofPattern false)

end WordStack.Number
