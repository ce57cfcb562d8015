import WordStack.Source.System

/-
  A folder of script files, and what reading a path in it gives. A path is resolved part by part,
  from the folder or, if it begins with a slash, from the root: an empty part or `.` stays where
  it is, `..` goes up, and any other part enters a folder or names a file. The folders around this
  one are there, but what they hold is unknown and taken not to exist.
-/
namespace WordStack

/-- Files by the parts of their path. -/
structure Folder where
  files : List (List String × FileContents)

namespace Folder

def parts (path : String) : List String := path.splitOn "/"

/-- The parts of a path that go somewhere. -/
def steps (path : String) : List String := (parts path).filter fun s => s ≠ "" && s ≠ "."

/-- The folder with these files; of two files with one path the later one is kept. -/
def ofFiles (files : List (String × FileContents)) : Folder :=
  ⟨files.reverse.map fun (path, contents) => (steps path, contents)⟩

def isFolder (f : Folder) (place : List String) : Bool :=
  f.files.any fun (path, _) => place.isPrefixOf path && path ≠ place

def entry (f : Folder) : Place → String → Option Entry
  | .inside path, name =>
    let path := path ++ [name]
    match f.files.lookup path with
    | some contents => some (.file contents)
    | none => if f.isFolder path then some (.folder (.inside path)) else none
  | .above, _ => none
  | .rooted path, name => System.entry path name

/-- The size in bytes of the longest path that can be read. -/
def maxPathSize : Nat := 4095

/-- The size in bytes of the longest name that a file can have. -/
def maxNameSize : Nat := 255

/-- Follows the parts of a path from a place. -/
def resolve (f : Folder) (place : Place) : List String → Except FileFault Entry
  | [] => .ok (.folder place)
  | part :: rest =>
    if part = "" ∨ part = "." then f.resolve place rest
    else if part = ".." then f.resolve place.parent rest
    else if place.limitsNames ∧ maxNameSize < part.utf8ByteSize then .error .nameTooLong
    else
      match f.entry place part with
      | some (.folder inner) => f.resolve inner rest
      | some found => if rest = [] then .ok found else .error .notFolder
      | none => .error .missing

/-- What a path leads to. -/
def find (f : Folder) (path : String) : Except FileFault Entry :=
  if path = "" then .error .missing
  else if path.toList.contains '\x00' then .error .badName
  else if maxPathSize < path.utf8ByteSize then .error .nameTooLong
  else
    match parts path with
    | "" :: rest => f.resolve (.rooted []) rest
    | parts => f.resolve (.inside []) parts

/-- Reads the file that a path leads to, which may be the standard input: what the path gives, and
what is left of the input. -/
def read (f : Folder) (input path : String) : FileContents × String :=
  match f.find path with
  | .ok (.file contents) => (contents, input)
  | .ok .input => (.ok input, "")
  | .ok (.folder _) => (.error .isFolder, input)
  | .error fault => (.error fault, input)

/-- Reads files one after another. -/
def readAll (f : Folder) (input : String) : List String → List FileContents
  | [] => []
  | path :: rest =>
    let (contents, input) := f.read input path
    contents :: f.readAll input rest

end Folder
end WordStack
