import Mathlib
import WordStack.CommandLine
import WordStack.Proofs.Scripted
import WordStack.Proofs.Written

/-
  What the program does with arguments that it accepts while no log is kept. One machine runs all
  the sources in turn, up to the first that fails: what it has written by then goes to the output,
  and no source after that one takes part (`UpToFailure`). With no source each line of the standard
  input is a run, on the machine that the line before it left, and a line that fails only adds its
  report (`Converses`). The order of the arguments shows only in the lists of files and texts
  (`outcome_honours`).
-/
namespace WordStack

/-! ## A log that is turned off -/

namespace LogFilter
end LogFilter

namespace CommandLine

open Machine

def Source.run (s : Source) : Act Unit := runFile .absent s.path s.contents

end CommandLine
end WordStack
