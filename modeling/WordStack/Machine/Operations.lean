import WordStack.Machine.State
import WordStack.Number.Decimal

/-
  What words and hosts can do with a machine, short of executing words: the active stack, the
  text being read, the definition in progress, the dictionary, the cells and the output.
  An error carries the place of the word last read and the calls in progress.
-/
namespace WordStack.Machine

def fail (cause : Cause) : Act α := fun m =>
  .error (.failed ⟨m.location, cause, some m.calls⟩) m

/-! ## The active stack -/

def push (v : Value) : Act Unit := modify fun m => m.withActive (v :: m.active)

def pop : Act Value := do
  match (← get).active with
  | [] => fail .stackUnderflow
  | v :: rest =>
    modify (·.withActive rest)
    return v

/-- Fails unless the active stack holds this many values. A word that takes several values asks
first, so that a failure leaves the stack as it was. -/
def require (depth : Nat) : Act Unit := do
  if ((← get).active.take depth).length < depth then fail .stackUnderflow

/-- Takes the top value, and fails if it is not a number. -/
def popNumber : Act Float := do
  match ← pop with
  | .number x => return x
  | v => fail (.typeMismatch .number v.typeName)

/-- Takes the top value, and fails if it is not a reference to a cell. -/
def popCell : Act Nat := do
  match ← pop with
  | .cell i => return i
  | v => fail (.typeMismatch .variable v.typeName)

def clear : Act Unit := modify (·.withActive [])

/-! ## The text being read -/

/-- The next word of the innermost run; outside a run there is none. -/
def nextWord : Act (Option Token) := do
  match (← get).readers with
  | [] => return none
  | r :: rest =>
    let (token, r) := r.nextWord
    modify ({ · with readers := r :: rest })
    return token

def nextWordRequired : Act Token := do
  match ← nextWord with
  | some token => return token
  | none => fail .unexpectedEnd

/-- The text up to the next delimiter. Without one the error points at where the text began. -/
def textUpTo (delimiter : Char) : Act String := do
  match (← get).readers with
  | [] => fail .unexpectedEnd
  | r :: rest =>
    let (result, r) := r.textUpTo delimiter
    modify ({ · with readers := r :: rest })
    match result with
    | .ok text => return text
    | .error e => throw (.failed { e with calls := some (← get).calls })

/-- Reads words up to the first that satisfies `p`, and fails if there is none. -/
def skipWordsTo (p : String → Bool) : Act Unit := do
  match (← get).readers with
  | [] => fail .unexpectedEnd
  | r :: rest =>
    let (found, r) := r.skipWordsTo p
    modify ({ · with readers := r :: rest })
    if !found then fail .unexpectedEnd

/-! ## Words -/

def addWord (h : Heading) (d : Definition) : Act Word := modifyGet (withWord · h d)

/-- Opens a definition. What the compile buffer holds stays there. -/
def startCompiling (name : String) (location : Location) : Act Unit :=
  modify fun m =>
    { m.note (.startedCompiling location name) with
      pending := some ⟨name, location⟩, mode := .compiling }

/-- Closes the definition in progress: its word has the compile buffer as its body. -/
def stopCompiling : Act Word := do
  let m ← get
  match m.pending with
  | none => fail .notCompiling
  | some p =>
    set { m.note (.finishedCompiling m.buffer.length p.name) with
      pending := none, mode := .interpreting, buffer := [] }
    addWord ⟨p.name, false, p.location, "User defined word.", ""⟩ (.compiled m.buffer.reverse)

/-- What a word of the text stands for: a word of the dictionary before a number. -/
def resolve (token : String) : Act Resolved := do
  let name := Text.uppercase token
  match (← get).dictionary.get? name with
  | some w => return .word w
  | none =>
    match Number.parse? name with
    | some x => return .number x
    | none => fail (.unknownWord name)

/-- The word of this name. -/
def findWord (name : String) : Act Word := do
  match (← get).dictionary.get? name with
  | some w => return w
  | none => fail (.unknownWord (Text.uppercase name))

/-! ## Cells and output -/

def newCell (initial : Value) : Act Nat := modifyGet fun m =>
  let (i, cells) := m.cells.allocate initial
  (i, { m with cells })

def readCell (i : Nat) : Act Value := do
  match (← get).cells.get? i with
  | some v => return v
  | none => fail (.typeMismatch .variable (renderCell i))

def writeCell (i : Nat) (v : Value) : Act Unit := do
  match (← get).cells.set? i v with
  | some cells => modify ({ · with cells })
  | none => fail (.typeMismatch .variable (renderCell i))

/-- Writes to the output. Writing nothing never fails. -/
def write (s : String) : Act Unit := do
  if (← get).outputFails ∧ s ≠ "" then throw (.failed (.ofIo "sink closed"))
  modify fun m => { m with output := m.output ++ s }

end WordStack.Machine
