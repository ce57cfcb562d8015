import WordStack.Machine.Hosting

/-
  A session: steps performed one after another on one machine, each observed by itself. A step
  that fails does not end the session.
-/
namespace WordStack

inductive Step where
  | perform (action : Action)
  /-- From here on writing to the output fails, or works. -/
  | setOutputFails (fails : Bool)

namespace Session

/-- How deep host words may nest. -/
def hostDepth : Nat := 1000

/-- Forgets what the steps before have written and reported. -/
def beginStep (m : Machine) : Machine := { m with output := "", events := [], replies := [] }

/-- The outcome of a step, and the machine after it. -/
def step (m : Machine) (s : Step) : Except Halt Reply × Machine :=
  let m := beginStep m
  match s with
  | .setOutputFails fails => (.ok .nothing, { m with outputFails := fails })
  | .perform action =>
    match Machine.perform (Host.nested hostDepth) action m with
    | .ok reply m => (.ok reply, m)
    | .error halt m => (.error halt, m)

/-- The outcome of every step with the machine that it leaves. -/
def steps (m : Machine) : List Step → List (Except Halt Reply × Machine)
  | [] => []
  | s :: rest =>
    let observed := step m s
    observed :: steps observed.2 rest

/-- A session on a machine that has only the built-in words. -/
def run (script : List Step) : List (Except Halt Reply × Machine) := steps .fresh script

end Session
end WordStack
