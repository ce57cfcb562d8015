import WordStack.Text.Uppercase.Table

/-
  Upper case by the full mapping of Unicode, one character at a time: `ß` becomes `SS` and `ı`
  becomes `I`. Names are compared in upper case. `uppercase_append`: the upper case of two texts
  joined is their upper cases joined.
-/
namespace WordStack.Text

/-- The upper case of a character, which may be several characters. -/
def uppercaseChar (c : Char) : List Char :=
  if c.toNat < 0x80 then [c.toUpper]
  else
    match Uppercase.expansions.lookup c.toNat with
    | some codes => codes.map Char.ofNat
    | none =>
      match Uppercase.runs.find? (·.covers c.toNat) with
      | some run => [Char.ofNat (run.image c.toNat)]
      | none => [c]

def uppercase (s : String) : String := String.ofList (s.toList.flatMap uppercaseChar)

theorem toList_uppercase (s : String) :
    (uppercase s).toList = s.toList.flatMap uppercaseChar := by
  simp [uppercase]

theorem uppercase_append (s t : String) : uppercase (s ++ t) = uppercase s ++ uppercase t := by
  simp [uppercase]

theorem uppercaseChar_of_ascii {c : Char} (h : c.toNat < 0x80) : uppercaseChar c = [c.toUpper] := by
  simp [uppercaseChar, h]

end WordStack.Text
