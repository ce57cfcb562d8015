/-
  The words every machine starts with: what each does is told apart by `BuiltIn`, and a few of
  them have two names. An immediate word runs as soon as it is read, even while a definition is
  open. `mem_all`: the list `all` is complete.
-/
namespace WordStack

inductive BuiltIn where
  | dup
  | drop
  | swap
  | over
  | rot
  | clear
  | depth
  | add
  | subtract
  | multiply
  | divide
  | sqrt
  | defineVariable
  | defineConstant
  | store
  | fetch
  | textLiteral
  | blockComment
  | parenComment
  | lineComment
  | startDefinition
  | endDefinition
  | print
  | printStack
  | printWords
deriving DecidableEq

namespace BuiltIn

def all : List BuiltIn :=
  [.dup, .drop, .swap, .over, .rot, .clear, .depth, .add, .subtract, .multiply, .divide, .sqrt,
    .defineVariable, .defineConstant, .store, .fetch, .textLiteral, .blockComment, .parenComment,
    .lineComment, .startDefinition, .endDefinition, .print, .printStack, .printWords]

def names : BuiltIn → List String
  | .dup => ["DUP"]
  | .drop => ["DROP"]
  | .swap => ["SWAP"]
  | .over => ["OVER"]
  | .rot => ["ROT"]
  | .clear => ["CLEAR"]
  | .depth => ["DEPTH"]
  | .add => ["+"]
  | .subtract => ["-"]
  | .multiply => ["*"]
  | .divide => ["/"]
  | .sqrt => ["SQRT"]
  | .defineVariable => ["VAR"]
  | .defineConstant => ["CONST"]
  | .store => ["STORE", "!"]
  | .fetch => ["FETCH", "@"]
  | .textLiteral => ["\""]
  | .blockComment => ["/*"]
  | .parenComment => ["("]
  | .lineComment => ["//"]
  | .startDefinition => [":", "DEF"]
  | .endDefinition => [";", "END"]
  | .print => ["PRINT", "."]
  | .printStack => ["PSTACK", ".S"]
  | .printWords => ["WORDS", ".W"]

/-- The words that read on in the text, and those that open and close a definition. -/
def isImmediate : BuiltIn → Bool
  | .defineVariable | .defineConstant | .textLiteral | .blockComment | .parenComment
  | .lineComment | .startDefinition | .endDefinition => true
  | _ => false

def description : BuiltIn → String
  | .dup => "Duplicate the top value on the stack."
  | .drop => "Discard the top value on the stack."
  | .swap => "Swap the top two values on the stack."
  | .over => "Copy the second value to the top of the stack."
  | .rot => "Rotate the third value to the top of the stack."
  | .clear => "Remove every value from the stack."
  | .depth => "Push the number of values on the stack."
  | .add => "Add the top two numbers."
  | .subtract => "Subtract the top number from the second."
  | .multiply => "Multiply the top two numbers."
  | .divide => "Divide the second number by the top one."
  | .sqrt => "Replace the top number with its square root."
  | .defineVariable => "Define the next word as a new variable."
  | .defineConstant => "Define the next word as a constant holding the top value."
  | .store => "Store a value into a variable."
  | .fetch => "Read the current value of a variable."
  | .textLiteral => "Read text up to the next \" and push it."
  | .blockComment => "Comment, skip words until one ends with */."
  | .parenComment => "Comment, skip text up to the next )."
  | .lineComment => "Comment, skip the rest of the line."
  | .startDefinition => "Start a new word definition."
  | .endDefinition => "End the definition of the newly created word."
  | .print => "Pop the top value and print it."
  | .printStack => "Print the stack, bottom first."
  | .printWords => "Print every word in the dictionary."

/-- What a word takes from the stack and what it leaves there. -/
def signature : BuiltIn → String
  | .dup => "a -- a a"
  | .drop => "a -- "
  | .swap => "a b -- b a"
  | .over => "a b -- a b a"
  | .rot => "a b c -- b c a"
  | .clear => "... -- "
  | .depth => " -- depth"
  | .add => "a b -- a+b"
  | .subtract => "a b -- a-b"
  | .multiply => "a b -- a*b"
  | .divide => "a b -- a/b"
  | .sqrt => "a -- sqrt(a)"
  | .defineConstant | .print => "value -- "
  | .store => "value variable -- "
  | .fetch => "variable -- value"
  | .textLiteral => " -- text"
  | .defineVariable | .blockComment | .parenComment | .lineComment | .startDefinition
  | .endDefinition | .printStack | .printWords => " -- "

/-- Every name with the word it stands for. -/
def named : List (String × BuiltIn) := all.flatMap fun b => b.names.map (·, b)

theorem mem_all (b : BuiltIn) : b ∈ all := by
  cases b <;> decide

end BuiltIn
end WordStack
