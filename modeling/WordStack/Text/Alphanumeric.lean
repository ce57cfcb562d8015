import WordStack.Text.Alphanumeric.Table

/-
  Two classes of characters: letters and numbers, and white space, both as Unicode has them.
  They hold every character of the ASCII class of the same name.
-/
namespace WordStack.Text

def isAlphanumeric (c : Char) : Bool :=
  c.isAlphanum || Alphanumeric.ranges.any fun (first, last) => first ≤ c.toNat && c.toNat ≤ last

/-- The codes of white space beyond ASCII that lie in no range. -/
def isolatedSpaces : List Nat := [0x85, 0xA0, 0x1680, 0x2028, 0x2029, 0x202F, 0x205F, 0x3000]

def isSpace (c : Char) : Bool :=
  c == ' ' || (0x9 ≤ c.toNat && c.toNat ≤ 0xD) || (0x2000 ≤ c.toNat && c.toNat ≤ 0x200A) ||
    isolatedSpaces.contains c.toNat

/-- Characters without the white space around them. -/
def trim (cs : List Char) : List Char :=
  ((cs.dropWhile isSpace).reverse.dropWhile isSpace).reverse

theorem isSpace_of_isWhitespace {c : Char} (h : c.isWhitespace) : isSpace c := by
  simp only [Char.isWhitespace, Bool.or_eq_true, decide_eq_true_eq] at h
  rcases h with ((rfl | rfl) | rfl) | rfl <;> rfl

end WordStack.Text
