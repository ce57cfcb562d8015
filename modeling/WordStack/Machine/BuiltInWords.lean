import WordStack.Machine.Operations

/-
  What each built-in word does. None of them executes another word: the reading words take what
  follows in the text, and `:` and `;` only open and close a definition.
-/
namespace WordStack.BuiltIn

open Machine

/-- Replaces the top two numbers; the top one is the right operand. -/
def arithmetic (f : Float → Float → Float) : Act Unit := do
  require 2
  let b ← popNumber
  let a ← popNumber
  push (.number (f a b))

/-- Does a word end a block comment? -/
def endsComment (word : String) : Bool := ['*', '/'].isSuffixOf word.toList

/-- The stack in one line, after its depth. -/
def stackLine (m : Machine) : String :=
  "<" ++ toString m.active.length ++ ">" ++
    String.join (m.active.reverse.map fun v => " " ++ v.dump) ++ "\n"

def run : BuiltIn → Act Unit
  | .dup => do
    let v ← pop
    push v
    push v
  | .drop => discard pop
  | .swap => do
    require 2
    let b ← pop
    let a ← pop
    push b
    push a
  | .over => do
    require 2
    let b ← pop
    let a ← pop
    push a
    push b
    push a
  | .rot => do
    require 3
    let c ← pop
    let b ← pop
    let a ← pop
    push b
    push c
    push a
  | .clear => Machine.clear
  | .depth => do push (.number (Number.ofCount (← get).active.length))
  | .add => arithmetic (· + ·)
  | .subtract => arithmetic (· - ·)
  | .multiply => arithmetic (· * ·)
  | .divide => arithmetic (· / ·)
  | .sqrt => do
    let a ← popNumber
    push (.number a.sqrt)
  | .defineVariable => do
    let token ← nextWordRequired
    let cell ← newCell (.number (Number.ofCount 0))
    let description := "Access the cell for variable " ++ token.text ++ "."
    discard (addWord ⟨token.text, false, token.location, description, " -- variable"⟩
      (.variable cell))
  | .defineConstant => do
    require 1
    let token ← nextWordRequired
    let v ← pop
    let description := "Push the value of constant " ++ token.text ++ "."
    discard (addWord ⟨token.text, false, token.location, description, " -- value"⟩ (.constant v))
  | .store => do
    require 2
    let cell ← popCell
    let v ← pop
    writeCell cell v
  | .fetch => do
    let cell ← popCell
    push (← readCell cell)
  | .textLiteral => do push (.text (← textUpTo '"'))
  | .blockComment => skipWordsTo endsComment
  | .parenComment => discard (textUpTo ')')
  | .lineComment => discard (textUpTo '\n')
  | .startDefinition => do
    let token ← nextWordRequired
    startCompiling token.text token.location
  | .endDefinition => discard stopCompiling
  | .print => do
    let v ← pop
    write (v.render ++ "\n")
  | .printStack => do write (stackLine (← get))
  | .printWords => do write (← get).dictionary.listing

end WordStack.BuiltIn
