/-
  What reading a path gives: a text, or why there is none.
-/
namespace WordStack

/-- Why a path could not be read as text. -/
inductive FileFault where
  | missing
  | isFolder
  | notFolder
  | nameTooLong
  | badName
  | denied
  | noDevice
  | notText
deriving DecidableEq

def FileFault.message : FileFault → String
  | .missing => "No such file or directory (os error 2)"
  | .isFolder => "Is a directory (os error 21)"
  | .notFolder => "Not a directory (os error 20)"
  | .nameTooLong => "File name too long (os error 36)"
  | .badName => "file name contained an unexpected NUL byte"
  | .denied => "Permission denied (os error 13)"
  | .noDevice => "No such device or address (os error 6)"
  | .notText => "stream did not contain valid UTF-8"

/-- The text of a file, or why there is none. -/
abbrev FileContents := Except FileFault String

/-- The contents of a file with these bytes. -/
def FileContents.ofBytes (bytes : ByteArray) : FileContents :=
  match String.fromUTF8? bytes with
  | some text => .ok text
  | none => .error .notText

end WordStack
