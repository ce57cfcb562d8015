import WordStack.Source.Location

/-
  What can go wrong while a script runs. An error holds its cause, the place of the word being
  read (if one is known) and the words being executed at the time (if that is known).
  `Cause.message` words the cause, `Error.render` the whole error.
-/
namespace WordStack

/-- A word being executed, with the place it was executed from. -/
structure Call where
  word : String
  location : Location
deriving DecidableEq

/-- The types of value that a word can insist on. -/
inductive Wanted where
  | number
  | variable
deriving DecidableEq

inductive Cause where
  /-- The word, in upper case, is neither in the dictionary nor a number. -/
  | unknownWord (word : String)
  /-- The active stack holds fewer values than a word takes. -/
  | stackUnderflow
  /-- The text ended inside a literal or comment, or before a name. -/
  | unexpectedEnd
  | typeMismatch (wanted : Wanted) (found : String)
  /-- A definition was closed and none was open. -/
  | notCompiling
  /-- The output or a script file failed. -/
  | io (text : String)
deriving DecidableEq

/-- An error; its calls are listed innermost first. -/
structure Error where
  location : Option Location
  cause : Cause
  calls : Option (List Call)
deriving DecidableEq

def Wanted.name : Wanted → String
  | .number => "number"
  | .variable => "variable"

def Call.render (c : Call) : String := c.location.render ++ ": " ++ c.word

def Cause.message : Cause → String
  | .unknownWord word => "Unknown word: [" ++ word ++ "]"
  | .stackUnderflow => "Stack underflow."
  | .unexpectedEnd => "Unexpected end of input."
  | .typeMismatch wanted found =>
    "Type mismatch: expected " ++ wanted.name ++ ", found " ++ found ++ "."
  | .notCompiling => "Not compiling a word definition."
  | .io text => "I/O error: " ++ text

namespace Error

/-- A failure of the world outside the script has neither a place nor calls. -/
def ofIo (text : String) : Error := ⟨none, .io text, none⟩

def renderCalls : List Call → String
  | [] => ""
  | calls => "\n\nCall stack\n" ++ String.join (calls.map fun c => "  " ++ c.render ++ "\n")

/-- The place, the message, and the calls from the innermost outwards. -/
def render (e : Error) : String :=
  (match e.location with
    | some l => l.render ++ ": "
    | none => "") ++
  e.cause.message ++ renderCalls (e.calls.getD [])

end Error
end WordStack
