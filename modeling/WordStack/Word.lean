import WordStack.Action
import WordStack.BuiltIn
import WordStack.Number.Shortest
import WordStack.Text.Quoted

/-
  Values and words. A compiled word holds the words it uses, not their names, so a later word of
  the same name does not change it; each word has a serial number by which it is told from every
  other. `Value.same` is equality as the host sees it: numbers by value, words by serial number.
-/
namespace WordStack

mutual

/-- What can lie on a stack, in a cell or in the body of a compiled word. -/
inductive Value where
  | number (x : Float)
  | text (s : String)
  /-- A reference to a variable's cell. -/
  | cell (index : Nat)
  | word (w : Word)

/-- What a word does when it is executed. -/
inductive Definition where
  | builtIn (b : BuiltIn)
  | host (body : List Action)
  | variable (cell : Nat)
  | constant (value : Value)
  | compiled (body : List Value)

structure Word where
  serial : Nat
  name : String
  isImmediate : Bool
  /-- Where the word was defined; a built-in word was not defined in any text. -/
  location : Option Location
  description : String
  signature : String
  definition : Definition

end

instance : Inhabited Value := ⟨.cell 0⟩

/-- How a reference to a cell is written. -/
def renderCell (index : Nat) : String := "<cell " ++ toString index ++ ">"

namespace Value

def typeName : Value → String
  | .number _ => "number"
  | .text _ => "text"
  | .cell _ => "variable"
  | .word _ => "word"

def isCell : Value → Bool
  | .cell _ => true
  | _ => false

/-- The value as it is printed; a text as it is. -/
def render : Value → String
  | .number x => Number.render x
  | .text s => s
  | .cell i => renderCell i
  | .word w => w.name

/-- The value as it stands in a dump of the stack, where a text is quoted. -/
def dump : Value → String
  | .text s => Text.quote s
  | v => v.render

def same : Value → Value → Bool
  | .number x, .number y => x == y
  | .text s, .text t => s == t
  | .cell i, .cell j => i == j
  | .word v, .word w => v.serial == w.serial
  | _, _ => false

end Value

namespace Definition

def kind : Definition → String
  | .builtIn _ | .host _ => "native"
  | .variable _ => "variable"
  | .constant _ => "constant"
  | .compiled _ => "compiled"

/-- Is the word carried out by the host program and not by other words? -/
def isNative : Definition → Bool
  | .builtIn _ | .host _ => true
  | _ => false

end Definition

namespace Word

/-- The word in one line: its name, what it is and where it was defined. -/
def summary (w : Word) (location : Location) : String :=
  w.name ++ " (" ++ w.definition.kind ++ ", " ++
    (if w.isImmediate then "Immediate" else "Normal") ++ ") defined at " ++ location.render

end Word
end WordStack
