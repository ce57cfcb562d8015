import WordStack.Machine.Execution

/-
  Performing the actions of a host. A host word can run a text that calls the word again, so
  host words, unlike the words of a script, can nest without end. `Host.nested` bounds the
  nesting; a machine that reaches the bound stops as exhausted, which no action can catch.
-/
namespace WordStack

namespace Machine

/-- What a host names, with its words looked up now; a name of no word is an error. -/
def lookUp (named : Dictionary → Except String α) : Act α := do
  match named (← get).dictionary with
  | .ok a => return a
  | .error name => fail (.unknownWord (Text.uppercase name))

def operand (o : Operand) : Act Value := lookUp (·.value o)

def operands (os : List Operand) : Act (List Value) := lookUp (·.values os)

/-- Where a host word is defined: the place of the word last read. -/
def hostHeading (m : Machine) (name : String) (isImmediate : Bool) : Heading :=
  ⟨name, isImmediate, m.location.getD .unspecified, "Host defined word.", ""⟩

/-- The comparison of two values of the active stack, counted from the bottom. -/
def compareAt (m : Machine) (i j : Nat) : Option Bool :=
  match m.active.reverse[i]?, m.active.reverse[j]? with
  | some v, some w => some (v.same w)
  | _, _ => none

/-- Performs an action; the words that it executes may be words of this host. -/
def perform (host : Host) : Action → Act Reply
  | .run path text => do
    run host path text
    return .nothing
  | .runFile path contents => do
    runFile host path contents
    return .nothing
  | .push values => do
    (← operands values).forM push
    return .nothing
  | .pop => return .value (← pop)
  | .popNumber => return .number (← popNumber)
  | .popCell => return .cell (← popCell)
  | .require depth => do
    require depth
    return .nothing
  | .clear => do
    clear
    return .nothing
  | .stack => return .values (← get).active.reverse
  | .nextWord => return .token (← nextWord)
  | .nextWordRequired => return .token (some (← nextWordRequired))
  | .nextText delimiter => return .text (← textUpTo delimiter)
  | .pushText delimiter => do
    push (.text (← textUpTo delimiter))
    return .nothing
  | .startCompiling name location => do
    startCompiling name location
    return .nothing
  | .stopCompiling => return .word (← stopCompiling)
  | .execute name location => do
    execute host location (← findWord name)
    return .nothing
  | .executeBody values => do
    executeBody host (← operands values)
    return .nothing
  | .resolve token => return .resolved (← resolve token)
  | .find name => return .found ((← get).dictionary.get? name)
  | .define name isImmediate body => do
    return .word (← addWord (hostHeading (← get) name isImmediate) (.host body))
  | .addWord heading draft => return .word (← addWord heading (← lookUp (·.definition draft)))
  | .newCell value => return .cell (← newCell (← operand value))
  | .readCell cell => return .value (← readCell cell)
  | .writeCell cell value => do
    writeCell cell (← operand value)
    return .nothing
  | .listing => return .text (← get).dictionary.listing
  | .calls => return .calls (← get).calls
  | .location => return .location (← get).location
  | .write text => do
    write text
    return .nothing
  | .compare i j => return .verdict (compareAt (← get) i j)
  | .attempt action => fun m =>
    match perform host action m with
    | .ok reply m => .ok reply m
    | .error (.failed e) m => .ok (.failure e) m
    | .error .exhausted m => .error .exhausted m

/-- Performs actions in order until one fails, and keeps the reply to each. -/
def performAll (host : Host) : List Action → Act Unit
  | [] => pure ()
  | action :: rest => do
    let reply ← perform host action
    modify fun m => { m with replies := reply :: m.replies }
    performAll host rest

end Machine

/-- The host whose words nest to this depth. -/
def Host.nested : Nat → Host
  | 0 => .absent
  | n + 1 => fun body => Machine.performAll (Host.nested n) body

end WordStack
