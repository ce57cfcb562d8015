import WordStack.Source.Contents
import WordStack.Source.Location

/-
  What a host program can ask of a machine. A host word is a list of actions, performed in order
  until one fails. Actions are data, so a word that holds them is a value like any other.
-/
namespace WordStack

/-- A value as a host names it. A word is looked up when the action is performed. -/
inductive Operand where
  | number (x : Float)
  | text (s : String)
  | variable (cell : Nat)
  | word (name : String)
  /-- A count, converted to a number. -/
  | count (n : Nat)

/-- The name and the trimmings of a word that a host adds. -/
structure Heading where
  name : String
  isImmediate : Bool
  location : Location
  description : String
  signature : String

mutual

inductive Action where
  /-- Runs a text under a path. -/
  | run (path text : String)
  /-- Runs a file with these contents. -/
  | runFile (path : String) (contents : FileContents)
  | push (values : List Operand)
  | pop
  | popNumber
  | popCell
  /-- Fails unless the active stack is at least this deep. -/
  | require (depth : Nat)
  | clear
  | stack
  | nextWord
  /-- Reads a word and fails at the end of the text. -/
  | nextWordRequired
  | nextText (delimiter : Char)
  | pushText (delimiter : Char)
  | startCompiling (name : String) (location : Location)
  | stopCompiling
  | execute (name : String) (location : Location)
  /-- Executes values as the body of a compiled word. -/
  | executeBody (values : List Operand)
  | resolve (token : String)
  | find (name : String)
  /-- Adds a host word as of the current place. -/
  | define (name : String) (isImmediate : Bool) (body : List Action)
  | addWord (heading : Heading) (draft : Draft)
  | newCell (value : Operand)
  | readCell (cell : Nat)
  | writeCell (cell : Nat) (value : Operand)
  | listing
  | calls
  | location
  | write (text : String)
  /-- Compares two values of the active stack, counted from the bottom. -/
  | compare (i j : Nat)
  /-- Performs an action; should it fail, the error becomes its reply. -/
  | attempt (action : Action)

/-- What a word is to do, as a host puts it. -/
inductive Draft where
  | host (body : List Action)
  | variable (cell : Nat)
  | constant (value : Operand)
  | compiled (body : List Operand)

end

end WordStack
