import WordStack.Text.Alphanumeric

/-
  The filter for a log: directives with commas between them. A directive is a level, or a target,
  a span in brackets or both, which a level may follow after an equals sign; a span may name a
  field in braces. A directive that cannot be read is ignored with a complaint.
-/
namespace WordStack.LogFilter

/-- Why a directive was ignored. -/
inductive Fault where
  | malformed
  | unknownLevel
deriving DecidableEq

def Fault.message : Fault → String
  | .malformed => "invalid filter directive"
  | .unknownLevel =>
    "error parsing level filter: expected one of \"off\", \"error\", \"warn\", \"info\", \"debug\", " ++
      "\"trace\", or a number 0-5"

/-- The levels by increasing detail; a level is also named by its place in this list. -/
def levels : List String := ["off", "error", "warn", "info", "debug", "trace"]

/-- Does a text stand for the place of a level? A plus sign and leading zeros are allowed. -/
def isPlace (cs : List Char) : Bool :=
  let digits := if cs.head? = some '+' then cs.tail else cs
  digits ≠ [] && digits.all Char.isDigit &&
    match digits.dropWhile (· = '0') with
    | [] => true
    | [c] => c ≤ '5'
    | _ => false

/-- Is this the name of a level, in any case, or the place of one? -/
def isLevel (cs : List Char) : Bool :=
  levels.contains (String.ofList (cs.map Char.toLower)) || isPlace cs

/-- Checks the level after an equals sign. It may be left out; it has to be all that is left, and
a directive with white space around it has no readable level. -/
def checkLevel (spaced : Bool) (level : List Char) : Except Fault Unit :=
  if !spaced && (level.isEmpty || isLevel level) then .ok () else .error .unknownLevel

/-- Checks what follows a span. -/
def checkEnd (spaced : Bool) : List Char → Except Fault Unit
  | [] => .ok ()
  | '=' :: level => checkLevel spaced level
  | _ => .error .malformed

/-- Checks the field of a span, the brace before it read already. It is not empty. -/
def checkField (spaced : Bool) (cs : List Char) : Except Fault Unit :=
  match cs.takeWhile (· ≠ '\x7d'), cs.dropWhile (· ≠ '\x7d') with
  | _ :: _, _ :: ']' :: rest => checkEnd spaced rest
  | _, _ => .error .malformed

/-- Checks a span, the bracket before it read already. -/
def checkSpan (spaced : Bool) (cs : List Char) : Except Fault Unit :=
  match cs.dropWhile fun c => c ≠ ']' ∧ c ≠ '\x7b' with
  | ']' :: rest => checkEnd spaced rest
  | _ :: rest => checkField spaced rest
  | [] => .error .malformed

def startsTarget (c : Char) : Bool := c = '-' || c = ':' || c = '_' || Text.isAlphanumeric c

/-- Can a directive be read? What begins as a target and has no level may be a level itself. -/
def check (directive : List Char) : Except Fault Unit :=
  let cs := Text.trim directive
  let spaced := cs ≠ directive
  match cs with
  | [] => .error .malformed
  | '[' :: rest => checkSpan spaced rest
  | c :: rest =>
    if startsTarget c then
      match rest.dropWhile fun c => c ≠ '=' ∧ c ≠ '[' with
      | [] => .ok ()
      | '[' :: rest => checkSpan spaced rest
      | _ :: level => checkLevel spaced level
    else .error .malformed

/-- The complaint about a directive, if there is one. -/
def complaint? (directive : String) : Option String :=
  match check directive.toList with
  | .ok () => none
  | .error fault => some ("ignoring `" ++ directive ++ "`: " ++ fault.message ++ "\n")

/-- The complaints about a filter; nothing between two commas is no directive. -/
def complaints (filter : String) : String :=
  String.join (((filter.splitOn ",").filter (· ≠ "")).filterMap complaint?)

end WordStack.LogFilter
