import WordStack.Word
import WordStack.Text.Uppercase

/-
  The dictionary: one word per name, in the order of the names, which are kept in upper case.
  Inserting a word replaces the one of the same name. `get?_insert_self` and `get?_insert_of_ne`:
  a look-up finds the word last inserted under a name that is equal in upper case.
-/
namespace WordStack

/-- Words with the name each is kept under, by increasing name. -/
structure Dictionary where
  entries : List (String × Word)

namespace Dictionary

def empty : Dictionary := ⟨[]⟩

def size (d : Dictionary) : Nat := d.entries.length

def keys (d : Dictionary) : List String := d.entries.map (·.1)

/-- The word of this name, in whatever case the name is given. -/
def get? (d : Dictionary) (name : String) : Option Word :=
  d.entries.lookup (Text.uppercase name)

def insertEntry (key : String) (w : Word) : List (String × Word) → List (String × Word)
  | [] => [(key, w)]
  | (k, v) :: rest =>
    if key = k then (key, w) :: rest
    else if key < k then (key, w) :: (k, v) :: rest
    else (k, v) :: insertEntry key w rest

def insert (d : Dictionary) (w : Word) : Dictionary :=
  ⟨insertEntry (Text.uppercase w.name) w d.entries⟩

/-! ## What a host names -/

/-- The value that an operand stands for, or else the name of no word in it. -/
def value (d : Dictionary) : Operand → Except String Value
  | .number x => .ok (.number x)
  | .text s => .ok (.text s)
  | .variable cell => .ok (.cell cell)
  | .word name =>
    match d.get? name with
    | some w => .ok (.word w)
    | none => .error name
  | .count n => .ok (.number (Number.ofCount n))

def values (d : Dictionary) (operands : List Operand) : Except String (List Value) :=
  operands.mapM d.value

def definition (d : Dictionary) : Draft → Except String Definition
  | .host body => .ok (.host body)
  | .variable cell => .ok (.variable cell)
  | .constant value => (d.value value).map .constant
  | .compiled body => (d.values body).map .compiled

/-! ## The listing -/

/-- Fills a text up with blanks to a width in characters. -/
def pad (width : Nat) (s : String) : String :=
  s ++ String.ofList (List.replicate (width - s.length) ' ')

/-- The size in bytes of the longest name; no name has more characters than that. -/
def nameWidth (d : Dictionary) : Nat := (d.keys.map String.utf8ByteSize).foldl max 0

def entryLine (width : Nat) (key : String) (w : Word) : String :=
  pad width key ++ "  " ++ pad 8 w.definition.kind ++
    (if w.isImmediate then "  immediate" else "           ") ++ "  --  " ++ w.description ++ "\n"

/-- One line for every word, by name. -/
def listing (d : Dictionary) : String :=
  toString d.size ++ " words defined.\n\n" ++
    String.join (d.entries.map fun (key, w) => entryLine d.nameWidth key w)

/-! ## Look-up after insertion -/

theorem lookup_insertEntry_self (key : String) (w : Word) (entries : List (String × Word)) :
    (insertEntry key w entries).lookup key = some w := by
  induction entries with
  | nil => simp [insertEntry]
  | cons e rest ih =>
    obtain ⟨k, v⟩ := e
    by_cases h : key = k
    · simp [insertEntry, h]
    · have hne : (key == k) = false := by simpa using h
      by_cases hlt : key < k
      · simp [insertEntry, h, hlt]
      · simp [insertEntry, h, hlt, List.lookup_cons, hne, ih]

theorem lookup_insertEntry_of_ne {key other : String} (h : other ≠ key) (w : Word)
    (entries : List (String × Word)) :
    (insertEntry key w entries).lookup other = entries.lookup other := by
  have hne : (other == key) = false := by simpa using h
  induction entries with
  | nil => simp [insertEntry, List.lookup_cons, hne]
  | cons e rest ih =>
    obtain ⟨k, v⟩ := e
    by_cases hk : key = k
    · subst hk
      simp [insertEntry, List.lookup_cons, hne]
    · by_cases hlt : key < k
      · simp [insertEntry, hk, hlt, List.lookup_cons, hne]
      · simp [insertEntry, hk, hlt, List.lookup_cons, ih]

theorem get?_insert_self {d : Dictionary} {w : Word} {name : String}
    (h : Text.uppercase name = Text.uppercase w.name) : (d.insert w).get? name = some w := by
  simp [get?, insert, h, lookup_insertEntry_self]

theorem get?_insert_of_ne {d : Dictionary} {w : Word} {name : String}
    (h : Text.uppercase name ≠ Text.uppercase w.name) : (d.insert w).get? name = d.get? name := by
  simp [get?, insert, lookup_insertEntry_of_ne h]

end Dictionary
end WordStack
