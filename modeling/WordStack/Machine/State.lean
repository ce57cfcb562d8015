import WordStack.Cells
import WordStack.Dictionary
import WordStack.Event
import WordStack.Source.Reader

/-
  The state of a machine, and what can be done with it: an `Act` gives a value or stops, and what
  it has changed by then stays changed, since a failed run leaves the machine as far as it got.
  The active stack is the data stack while interpreting and the compile buffer while compiling.
  Stacks are listed from the top, calls and readers from the innermost, events and replies from
  the latest. `active_withActive`: the stack that is set is the stack that is read.
-/
namespace WordStack

/-- The word that is being defined. -/
structure Pending where
  name : String
  location : Location
deriving DecidableEq

/-- What a word of the text turned out to be. -/
inductive Resolved where
  | word (w : Word)
  | number (x : Float)

/-- What the host gets back from an action. -/
inductive Reply where
  | nothing
  | value (v : Value)
  | values (vs : List Value)
  | number (x : Float)
  | cell (index : Nat)
  | text (s : String)
  | token (t : Option Token)
  | resolved (r : Resolved)
  | word (w : Word)
  | found (w : Option Word)
  | calls (cs : List Call)
  | location (l : Option Location)
  | verdict (b : Option Bool)
  | failure (e : Error)

structure Machine where
  data : List Value
  buffer : List Value
  mode : Mode
  pending : Option Pending
  /-- The place of the word last read by a run. -/
  location : Option Location
  calls : List Call
  dictionary : Dictionary
  cells : Cells
  /-- A reader for every run in progress; only the first is read from. -/
  readers : List Reader
  output : String
  outputFails : Bool
  /-- The serial number of the next word. -/
  nextSerial : Nat
  events : List Event
  /-- The replies to the actions of host words. -/
  replies : List Reply

/-- Why an act stopped. -/
inductive Halt where
  | failed (e : Error)
  /-- A bound on the nesting of host words or on the words of a text was used up. -/
  | exhausted
deriving DecidableEq

abbrev Act := EStateM Halt Machine

namespace Machine

/-- A machine without words. -/
def blank : Machine where
  data := []
  buffer := []
  mode := .interpreting
  pending := none
  location := none
  calls := []
  dictionary := .empty
  cells := .empty
  readers := []
  output := ""
  outputFails := false
  nextSerial := 0
  events := []
  replies := []

def active (m : Machine) : List Value :=
  match m.mode with
  | .interpreting => m.data
  | .compiling => m.buffer

def withActive (m : Machine) (vs : List Value) : Machine :=
  match m.mode with
  | .interpreting => { m with data := vs }
  | .compiling => { m with buffer := vs }

def note (m : Machine) (e : Event) : Machine := { m with events := e :: m.events }

/-- Adds a built-in word. No text defines it, and its addition is not an event. -/
def install (m : Machine) (name : String) (b : BuiltIn) : Machine :=
  let w : Word :=
    ⟨m.nextSerial, Text.uppercase name, b.isImmediate, none, b.description, b.signature, .builtIn b⟩
  { m with dictionary := m.dictionary.insert w, nextSerial := m.nextSerial + 1 }

/-- A machine with the built-in words. -/
def fresh : Machine := BuiltIn.named.foldl (fun m (name, b) => m.install name b) blank

/-- What is reported when a word is added in place of another, the latest first. A word of the
host is added silently. -/
def additionEvents (replaced : Option Word) (w : Word) : List Event :=
  if w.definition.isNative then []
  else
    match replaced with
    | some old =>
      if old.definition.isNative then [.definedWord w.name, .redefinedBuiltIn w.name]
      else [.definedWord w.name]
    | none => [.definedWord w.name]

/-- Adds a word in place of the one of the same name. -/
def withWord (m : Machine) (h : Heading) (d : Definition) : Word × Machine :=
  let name := Text.uppercase h.name
  let w : Word :=
    ⟨m.nextSerial, name, h.isImmediate, some h.location, h.description, h.signature, d⟩
  (w, { m with
    dictionary := m.dictionary.insert w
    nextSerial := m.nextSerial + 1
    events := additionEvents (m.dictionary.get? name) w ++ m.events })

theorem active_withActive (m : Machine) (vs : List Value) : (m.withActive vs).active = vs := by
  unfold withActive active
  cases m.mode <;> rfl

end Machine
end WordStack
