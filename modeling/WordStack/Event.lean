import WordStack.Source.Location

/-
  The modes of a machine, and the events that it reports while it runs. `Event.render` is an
  event in one line: its level, its message, and its fields by name.
-/
namespace WordStack

/-- What becomes of the words that are read: they are executed, or collected in the body of the
word that is being defined. -/
inductive Mode where
  | interpreting
  | compiling
deriving DecidableEq

def Mode.name : Mode → String
  | .interpreting => "interpreting"
  | .compiling => "compiling"

inductive Event where
  | pushedNumber (mode : Mode) (token : String)
  | compiledReference (name : String)
  | executedWord (name : String)
  | startedCompiling (location : Location) (name : String)
  | finishedCompiling (length : Nat) (name : String)
  | redefinedBuiltIn (name : String)
  | definedWord (name : String)
deriving DecidableEq

namespace Event

def level : Event → String
  | .pushedNumber _ _ | .compiledReference _ | .executedWord _ => "TRACE"
  | .startedCompiling _ _ | .finishedCompiling _ _ | .definedWord _ => "DEBUG"
  | .redefinedBuiltIn _ => "WARN"

def message : Event → String
  | .pushedNumber _ _ => "Pushing number."
  | .compiledReference _ => "Compiling word reference."
  | .executedWord _ => "Executing word."
  | .startedCompiling _ _ => "Compiling new word."
  | .finishedCompiling _ _ => "Finished compiling word."
  | .redefinedBuiltIn _ => "Built-in word redefined."
  | .definedWord _ => "Defined word."

/-- The fields of an event, by increasing name. -/
def fields : Event → List (String × String)
  | .pushedNumber .interpreting token => [("mode", "Interpreting"), ("token", token)]
  | .pushedNumber .compiling token => [("mode", "Compiling"), ("token", token)]
  | .startedCompiling location name => [("location", location.render), ("name", name)]
  | .finishedCompiling length name => [("length", toString length), ("name", name)]
  | .compiledReference name | .executedWord name | .redefinedBuiltIn name | .definedWord name =>
    [("name", name)]

def render (e : Event) : String :=
  e.level ++ " " ++ e.message ++
    String.join (e.fields.map fun (field, value) => " " ++ field ++ "=" ++ value)

end Event
end WordStack
