/-
  Places in a source text: the path of the text, a line and a column, both counted from one. A
  column counts characters, whatever their width, and a newline starts the next line.
  `after` is the place reached by reading a list of characters; `after_append` splits it.
-/
namespace WordStack

structure Location where
  path : String
  line : Nat
  column : Nat
deriving DecidableEq

namespace Location

/-- The first character of the text with this path. -/
def start (path : String) : Location := ⟨path, 1, 1⟩

/-- What stands for a place when none is known. -/
def unspecified : Location := start "unspecified"

/-- The place of the character after one that stands here. -/
def advance (l : Location) (c : Char) : Location :=
  if c = '\n' then ⟨l.path, l.line + 1, 1⟩ else ⟨l.path, l.line, l.column + 1⟩

/-- The place reached by reading these characters from here. -/
def after (l : Location) (cs : List Char) : Location := cs.foldl advance l

theorem after_nil (l : Location) : l.after [] = l := rfl

theorem after_cons (l : Location) (c : Char) (cs : List Char) :
    l.after (c :: cs) = (l.advance c).after cs := rfl

theorem after_append (l : Location) (xs ys : List Char) :
    l.after (xs ++ ys) = (l.after xs).after ys := by
  simp [after, List.foldl_append]

def render (l : Location) : String :=
  l.path ++ " (" ++ toString l.line ++ ", " ++ toString l.column ++ ")"

end Location
end WordStack
