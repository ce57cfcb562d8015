import WordStack.Error

/-
  Reading a source text on demand, either a blank-separated word or the raw text up to a
  delimiter. Nothing is read ahead, since an executed word may read on by itself.
  A word takes with it the one blank that ends it. `nextWord_eq_none_iff`: there is no further
  word exactly when only blanks are left.
-/
namespace WordStack

/-- What is left of a text, and the place of its first character. -/
structure Reader where
  rest : List Char
  location : Location
deriving DecidableEq

/-- A word of the text and the place of its first character. -/
structure Token where
  text : String
  location : Location
deriving DecidableEq

/-- The characters that separate words. -/
def isBlank (c : Char) : Bool := c = ' ' || c = '\t' || c = '\r' || c = '\n'

def isInk (c : Char) : Bool := !isBlank c

namespace Reader

def ofText (path text : String) : Reader := ⟨text.toList, .start path⟩

def isAtEnd (r : Reader) : Bool := r.rest.isEmpty

def peek? (r : Reader) : Option Char := r.rest.head?

/-- Reads one character. -/
def next? (r : Reader) : Option Char × Reader :=
  match r.rest with
  | [] => (none, r)
  | c :: cs => (some c, ⟨cs, r.location.advance c⟩)

/-- Reads characters that are known to come next. -/
def skip (r : Reader) (cs : List Char) : Reader :=
  ⟨r.rest.drop cs.length, r.location.after cs⟩

/-- Reads past the blanks that come next. -/
def skipBlanks (r : Reader) : Reader := r.skip (r.rest.takeWhile isBlank)

/-- Reads the next word and the blank that ends it. -/
def nextWord (r : Reader) : Option Token × Reader :=
  let start := r.skipBlanks
  let word := start.rest.takeWhile isInk
  let after := start.skip word
  if word = [] then (none, start)
  else (some ⟨String.ofList word, start.location⟩, after.skip (after.rest.take 1))

/-- Reads the text before the next delimiter, and the delimiter. Without one the whole rest is
read, and the error points at where the text began. -/
def textUpTo (delimiter : Char) (r : Reader) : Except Error String × Reader :=
  let text := r.rest.takeWhile (· != delimiter)
  let after := r.skip text
  match after.rest with
  | [] => (.error ⟨some r.location, .unexpectedEnd, none⟩, after)
  | d :: _ => (.ok (String.ofList text), after.skip [d])

/-- Every remaining word. Each one has a character, so the length of the text bounds them. -/
def words (r : Reader) : List Token × Reader := go r.rest.length r
where
  go : Nat → Reader → List Token × Reader
    | 0, r => ([], r.skipBlanks)
    | n + 1, r =>
      match r.nextWord with
      | (none, r) => ([], r)
      | (some token, r) =>
        let (tokens, r) := go n r
        (token :: tokens, r)

/-- Reads words up to the first that satisfies `p`; is there one? -/
def skipWordsTo (p : String → Bool) (r : Reader) : Bool × Reader := go r.rest.length r
where
  go : Nat → Reader → Bool × Reader
    | 0, r => (false, r.skipBlanks)
    | n + 1, r =>
      match r.nextWord with
      | (none, r) => (false, r)
      | (some token, r) => if p token.text then (true, r) else go n r

theorem skip_rest (r : Reader) (cs : List Char) : (r.skip cs).rest = r.rest.drop cs.length := rfl

theorem skip_location (r : Reader) (cs : List Char) :
    (r.skip cs).location = r.location.after cs := rfl

theorem drop_length_takeWhile (p : Char → Bool) (cs : List Char) :
    cs.drop (cs.takeWhile p).length = cs.dropWhile p := by
  induction cs with
  | nil => rfl
  | cons c cs ih => by_cases h : p c <;> simp [h, ih]

theorem skipBlanks_rest (r : Reader) : r.skipBlanks.rest = r.rest.dropWhile isBlank :=
  drop_length_takeWhile isBlank r.rest

theorem takeWhile_isInk_eq_nil_iff (cs : List Char) :
    (cs.dropWhile isBlank).takeWhile isInk = [] ↔ cs.all isBlank := by
  induction cs with
  | nil => simp
  | cons c cs ih =>
    by_cases h : isBlank c
    · simpa [h] using ih
    · simp [isInk, h]

/-- There is no further word exactly when only blanks are left. -/
theorem nextWord_eq_none_iff (r : Reader) : r.nextWord.1 = none ↔ r.rest.all isBlank := by
  rw [← takeWhile_isInk_eq_nil_iff, ← skipBlanks_rest]
  unfold nextWord
  dsimp only
  split <;> simp_all

end Reader
end WordStack
