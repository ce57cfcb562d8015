import WordStack.LogFilter
import WordStack.Machine.Execution
import WordStack.Source.Folder

/-
  The command line: its arguments, and what running them writes. One machine runs everything that
  is asked for: the demonstration, then the files, then the texts given as arguments, up to the
  first that fails. With nothing to run it reads lines from the standard input, each a run of its
  own, and a line that fails does not end the session.
-/
namespace WordStack.CommandLine

/-! ## Arguments -/

/-- What is asked for. -/
structure Request where
  demo : Bool
  /-- A filter for a log. It is checked, and this program keeps no log. -/
  logFilter : Option String
  files : List String
  texts : List String

inductive Command where
  | version
  | run (request : Request)

/-- Why arguments were refused. -/
inductive Refusal where
  | unexpected (argument : String)
  | valueMissing (option : String)
  | repeated (option : String)

/-- What an argument says by itself; an option with a value may hold it or be followed by it. -/
inductive Argument where
  | file (path : String)
  /-- Everything after this is a file. -/
  | endOfOptions
  | version
  | demo
  | text (value : Option String)
  | logFilter (value : Option String)
  | unknown

def Request.empty : Request := ⟨false, none, [], []⟩

namespace Argument

/-- An option of two dashes, with its value if an equals sign follows the name. -/
def ofLong (cs : List Char) : Argument :=
  let name := String.ofList (cs.takeWhile (· ≠ '='))
  match name, cs.dropWhile (· ≠ '=') with
  | "version", [] => .version
  | "demo", [] => .demo
  | "eval", [] => .text none
  | "eval", _ :: value => .text (some (String.ofList value))
  | "log-level", [] => .logFilter none
  | "log-level", _ :: value => .logFilter (some (String.ofList value))
  | _, _ => .unknown

/-- An option of one dash; its value may follow at once, or after an equals sign. -/
def ofShort : Char → List Char → Argument
  | 'V', _ => .version
  | 'e', [] => .text none
  | 'e', '=' :: value => .text (some (String.ofList value))
  | 'e', value => .text (some (String.ofList value))
  | _, _ => .unknown

def ofString (s : String) : Argument :=
  match s.toList with
  | ['-', '-'] => .endOfOptions
  | '-' :: '-' :: cs => ofLong cs
  | '-' :: c :: cs => ofShort c cs
  | _ => .file s

end Argument

def addText (r : Request) (text : String) : Request := { r with texts := r.texts ++ [text] }

def setLogFilter (r : Request) (filter : String) : Except Refusal Request :=
  match r.logFilter with
  | some _ => .error (.repeated "--log-level")
  | none => .ok { r with logFilter := some filter }

/-- Can an argument be the value of the option before it? -/
def isValue (s : String) : Bool :=
  match Argument.ofString s with
  | .file _ => true
  | _ => false

/-- Reads the arguments that are left, given what those before them ask for. -/
def parseFrom (r : Request) : List String → Except Refusal Command
  | [] => .ok (.run r)
  | argument :: rest =>
    match Argument.ofString argument with
    | .file path => parseFrom { r with files := r.files ++ [path] } rest
    | .endOfOptions => .ok (.run { r with files := r.files ++ rest })
    | .version => .ok .version
    | .demo => if r.demo then .error (.repeated "--demo") else parseFrom { r with demo := true } rest
    | .text (some text) => parseFrom (addText r text) rest
    | .logFilter (some filter) => do parseFrom (← setLogFilter r filter) rest
    | .text none =>
      match rest with
      | text :: rest =>
        if isValue text then parseFrom (addText r text) rest else .error (.valueMissing "--eval")
      | [] => .error (.valueMissing "--eval")
    | .logFilter none =>
      match rest with
      | filter :: rest =>
        if isValue filter then do parseFrom (← setLogFilter r filter) rest
        else .error (.valueMissing "--log-level")
      | [] => .error (.valueMissing "--log-level")
    | .unknown => .error (.unexpected argument)

def parse (arguments : List String) : Except Refusal Command := parseFrom .empty arguments

/-! ## Running -/

/-- The lines of the demonstration, each a run of its own. -/
def demoLines : List String := [
  "1 2 + print",
  "3 4 - print",
  "5 6 * print",
  "7 8 / print",
  "9 sqrt print",
  "10 dup pstack clear",
  "11 drop pstack",
  "12 13 swap pstack clear",
  "14 15 over pstack clear",
  "16 17 18 rot pstack clear",
  "var a 19 a ! a @ print",
  "20 const b b print",
  "\" 21\" print",
  "22 /* comment */ print",
  "23 ( comment ) print",
  "24 // comment\n print",
  ": c 25 print ; c",
  "pstack"]

/-- A text to run, with the path that its places show. -/
structure Source where
  path : String
  contents : FileContents

namespace Request

/-- Does the request name nothing to run? -/
def isInteractive (r : Request) : Bool := !r.demo && r.files.isEmpty && r.texts.isEmpty

/-- Everything to run, in order, given what reading the files gave. The texts are counted from
one. -/
def sources (r : Request) (contents : List FileContents) : List Source :=
  (if r.demo then demoLines.map fun line => ⟨"<demo>", .ok line⟩ else []) ++
    r.files.zipWith Source.mk contents ++
    r.texts.zipIdx.map fun (text, i) => ⟨"<eval " ++ toString (i + 1) ++ ">", .ok text⟩

end Request

/-- Runs texts up to the first that fails. -/
def runSources (sources : List Source) : Act Unit :=
  sources.forM fun s => Machine.runFile .absent s.path s.contents

/-- What a program leaves behind: its exit code and what it wrote. -/
structure Outcome where
  exitCode : Nat
  output : String
  errors : String
deriving DecidableEq

/-- An outcome with errors reported before its own. -/
def precedeErrors (errors : String) (o : Outcome) : Outcome := { o with errors := errors ++ o.errors }

/-- The report of a failure. -/
def report : Halt → String
  | .failed e => "Error: " ++ e.render ++ "\n"
  | .exhausted => "Error: the nesting of host words is bounded.\n"

/-- The outcome of running everything that is asked for. -/
def runRequest (r : Request) (contents : List FileContents) : Outcome :=
  match runSources (r.sources contents) .fresh with
  | .ok _ m => ⟨0, m.output, ""⟩
  | .error halt m => ⟨1, m.output, report halt⟩

/-! ## The interactive session -/

def prompt : String := "> "

/-- Runs one line, its newline included: what it reports, and the machine that it leaves. -/
def runLine (m : Machine) (line : String) : String × Machine :=
  match Machine.run .absent "<repl>" line m with
  | .ok _ m => ("", m)
  | .error halt m => (report halt, m)

/-- The lines of a text, each with its newline; only the last may lack one. -/
def linesOf : List Char → List (List Char)
  | [] => []
  | c :: cs =>
    if c = '\n' then [c] :: linesOf cs
    else
      match linesOf cs with
      | [] => [[c]]
      | line :: lines => (c :: line) :: lines

def prompted (m : Machine) : Machine := { m with output := m.output ++ prompt }

/-- Runs lines one after another, a prompt before each and one before the end. -/
def runLines (m : Machine) : List String → Outcome
  | [] => ⟨0, (prompted m).output ++ "\n", ""⟩
  | line :: lines =>
    let (errors, m) := runLine (prompted m) line
    precedeErrors errors (runLines m lines)

def versionLine : String := "scratch 0.1.0\n"

/-- The complaints about the filter of a request, which come before anything is run. -/
def complaints (r : Request) : String := LogFilter.complaints (r.logFilter.getD "")

/-- The outcome of a command with these files and this standard input. -/
def execute (folder : Folder) (input : String) : Command → Outcome
  | .version => ⟨0, versionLine, ""⟩
  | .run r =>
    precedeErrors (complaints r)
      (if r.isInteractive then runLines .fresh ((linesOf input.toList).map String.ofList)
      else runRequest r (folder.readAll input r.files))

/-- How a refusal is put. -/
def Refusal.message : Refusal → String
  | .unexpected argument => "unexpected argument " ++ argument
  | .valueMissing option => "a value is required for " ++ option
  | .repeated option => option ++ " cannot be used more than once"

/-- The outcome of arguments that were refused. -/
def refuse (r : Refusal) : Outcome := ⟨2, "", "error: " ++ r.message ++ "\n"⟩

/-- The outcome of the program. -/
def outcome (folder : Folder) (input : String) (arguments : List String) : Outcome :=
  match parse arguments with
  | .ok command => execute folder input command
  | .error refusal => refuse refusal

end WordStack.CommandLine
