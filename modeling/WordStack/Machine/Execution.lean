import WordStack.Machine.BuiltInWords

/-
  Executing words and running texts. A word is executed by recursion on the word itself: its body
  holds the words it uses, so there is no name to follow and no way back to the word.
  A run reads words until its text ends; every word read has a character, so the length of the
  text bounds the run. What a host word does is a parameter (`Host`).
  Calls and readers are taken down again whether or not the execution succeeds.
  `executeItems_append`: a body split in two is executed as its two parts, one after the other.
-/
namespace WordStack

/-- How the body of a host word is performed. -/
abbrev Host := List Action → Act Unit

/-- The host of a machine that has no host words. -/
def Host.absent : Host := fun _ => throw .exhausted

namespace Machine

/-- Performs an act between two changes of the machine; the second is made even if it fails. -/
def between (before after : Machine → Machine) (act : Act α) : Act α := fun m =>
  match act (before m) with
  | .ok a m => .ok a (after m)
  | .error halt m => .error halt (after m)

def enterCall (c : Call) (m : Machine) : Machine :=
  { m.note (.executedWord c.word) with calls := c :: m.calls }

def leaveCall (m : Machine) : Machine := { m with calls := m.calls.tail }

/-- Performs an act as a call of a word. -/
def duringCall (c : Call) (act : Act α) : Act α := between (enterCall c) leaveCall act

mutual

/-- Executes a word, called from this place. -/
def execute (host : Host) (location : Location) : Word → Act Unit
  | ⟨_, name, _, _, _, _, definition⟩ =>
    duringCall ⟨name, location⟩ (executeDefinition host definition)
termination_by structural w => w

def executeDefinition (host : Host) : Definition → Act Unit
  | .builtIn b => b.run
  | .host body => host body
  | .variable cell => push (.cell cell)
  | .constant v => push v
  | .compiled body => do executeItems host ((← get).location.getD .unspecified) body
termination_by structural d => d

/-- Executes the words of a body, each called from this place, and pushes every other value. -/
def executeItems (host : Host) (location : Location) : List Value → Act Unit
  | [] => pure ()
  | .word w :: rest => do
    execute host location w
    executeItems host location rest
  | v :: rest => do
    push v
    executeItems host location rest
termination_by structural vs => vs

end

theorem execute_eq (host : Host) (location : Location) (w : Word) :
    execute host location w =
      duringCall ⟨w.name, location⟩ (executeDefinition host w.definition) := by
  cases w
  rfl

theorem executeItems_append (host : Host) (location : Location) (vs ws : List Value) :
    executeItems host location (vs ++ ws) =
      (do executeItems host location vs; executeItems host location ws) := by
  induction vs with
  | nil => rfl
  | cons v vs ih => cases v <;> simp [executeItems, ih]

/-- Executes values as the body of a compiled word, called from the place of the word last read. -/
def executeBody (host : Host) (body : List Value) : Act Unit := do
  executeItems host ((← get).location.getD .unspecified) body

theorem executeDefinition_compiled (host : Host) (body : List Value) :
    executeDefinition host (.compiled body) = executeBody host body := rfl

/-- Does what a word of the text asks for: a number is pushed; a word is executed, or, if it is
not immediate, added to the definition in progress. -/
def runToken (host : Host) (token : Token) : Act Unit := do
  modify ({ · with location := some token.location })
  match ← resolve token.text with
  | .number x =>
    modify fun m => m.note (.pushedNumber m.mode token.text)
    push (.number x)
  | .word w =>
    if w.isImmediate ∨ (← get).mode = .interpreting then execute host token.location w
    else modify fun m =>
      { m.note (.compiledReference w.name) with buffer := .word w :: m.buffer }

/-- Reads words until the text ends, at most this many. -/
def runWords (host : Host) : Nat → Act Unit
  | 0 => throw .exhausted
  | n + 1 => do
    match ← nextWord with
    | none => pure ()
    | some token =>
      runToken host token
      runWords host n

def pushReader (r : Reader) (m : Machine) : Machine := { m with readers := r :: m.readers }

def dropReader (m : Machine) : Machine := { m with readers := m.readers.tail }

/-- Performs an act that reads from a reader of its own. -/
def withReader (r : Reader) (act : Act α) : Act α := between (pushReader r) dropReader act

/-- Runs a text; the run in progress, if there is one, goes on afterwards. -/
def run (host : Host) (path text : String) : Act Unit :=
  let r := Reader.ofText path text
  withReader r (runWords host (r.rest.length + 1))

/-- Runs the text of a file, which may be missing. -/
def runFile (host : Host) (path : String) (contents : FileContents) : Act Unit :=
  match contents with
  | .ok text => run host path text
  | .error fault =>
    throw (.failed (.ofIo ("Could not read file " ++ path ++ ": " ++ fault.message)))

end Machine
end WordStack
