import WordStack.Source.Contents

/-
  What lies around a folder of scripts, as far as it is the same on every system: the standard
  folders below the root, the links among them, and the few files whose contents are known.
  Anything else is taken not to exist.
-/
namespace WordStack

/-- A folder that a path has led to. -/
inductive Place where
  /-- The folder of the scripts or one inside it. -/
  | inside (path : List String)
  /-- A folder that the folder of the scripts lies in, however far up. -/
  | above
  /-- The root or a folder reached from it. -/
  | rooted (path : List String)
deriving DecidableEq

namespace Place

/-- The folder that holds this one; the root holds itself. -/
def parent : Place → Place
  | .inside [] => .above
  | .inside path => .inside path.dropLast
  | .above => .above
  | .rooted path => .rooted path.dropLast

/-- Is the length of a name limited here? It is not where the kernel makes the names. -/
def limitsNames : Place → Bool
  | .rooted ("proc" :: _) | .rooted ("sys" :: _) => false
  | _ => true

end Place

/-- What a folder holds under a name. -/
inductive Entry where
  | folder (place : Place)
  | file (contents : FileContents)
  /-- The standard input. -/
  | input

namespace System

/-- The standard folders, each with the names of standard folders in it. -/
def folders : List (List String × List String) := [
  ([], ["boot", "dev", "etc", "home", "media", "mnt", "opt", "proc", "root", "run", "srv", "sys",
    "tmp", "usr", "var"]),
  (["dev"], ["pts", "shm"]),
  (["etc"], ["opt"]),
  (["proc"], ["1", "bus", "driver", "fs", "irq", "self", "sys", "tty"]),
  (["proc", "self"], ["attr", "fd", "fdinfo", "net", "ns", "task"]),
  (["run"], ["lock"]),
  (["sys"], ["block", "bus", "class", "dev", "devices", "firmware", "fs", "kernel", "module",
    "power"]),
  (["usr"], ["bin", "games", "include", "lib", "lib64", "local", "sbin", "share", "src"]),
  (["usr", "local"], ["bin", "etc", "games", "include", "lib", "sbin", "share", "src"]),
  (["usr", "share"], ["doc", "man", "misc"]),
  (["var"], ["cache", "lib", "local", "log", "mail", "opt", "spool", "tmp"])]

/-- The links, by the folder and the name, with the folder that each leads to. -/
def links : List ((List String × String) × Place) := [
  (([], "bin"), .rooted ["usr", "bin"]),
  (([], "lib"), .rooted ["usr", "lib"]),
  (([], "lib64"), .rooted ["usr", "lib64"]),
  (([], "sbin"), .rooted ["usr", "sbin"]),
  ((["dev"], "fd"), .rooted ["proc", "self", "fd"]),
  ((["proc"], "net"), .rooted ["proc", "self", "net"]),
  ((["proc", "self"], "cwd"), .inside []),
  ((["proc", "self"], "root"), .rooted []),
  ((["var"], "lock"), .rooted ["run", "lock"]),
  ((["var"], "run"), .rooted ["run"])]

/-- The files, by the folder and the name. -/
def files : List ((List String × String) × Entry) := [
  ((["dev"], "null"), .file (.ok "")),
  ((["dev"], "stdin"), .input),
  ((["dev"], "tty"), .file (.error .noDevice)),
  ((["proc", "self"], "exe"), .file (.error .notText)),
  ((["proc", "self", "fd"], "0"), .input),
  ((["usr", "bin"], "env"), .file (.error .notText)),
  ((["usr", "bin"], "sh"), .file (.error .notText))]

/-- What a folder below the root holds under a name. -/
def entry (path : List String) (name : String) : Option Entry :=
  if ((folders.lookup path).getD []).contains name then some (.folder (.rooted (path ++ [name])))
  else
    match links.lookup (path, name) with
    | some place => some (.folder place)
    | none => files.lookup (path, name)

end System
end WordStack
