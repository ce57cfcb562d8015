import WordStack.CommandLine

/-
  The program: reads its arguments and the files they name, runs them, and writes what comes of
  it. An interactive session shows the output of each line before it asks for the next.
-/
namespace WordStack

open CommandLine

/-- The contents of the file that a path leads to. -/
def readContents (path : String) : IO FileContents := do
  try
    return .ofBytes (← IO.FS.readBinFile path)
  catch e =>
    match e with
    | .inappropriateType _ 21 _ => return .error .isFolder
    | .inappropriateType _ _ _ => return .error .notFolder
    | .permissionDenied _ _ _ => return .error .denied
    | .invalidArgument _ _ _ => return .error .nameTooLong
    | .noSuchThing _ _ _ => return .error .noDevice
    | _ => return .error .missing

/-- Writes an outcome and gives its exit code. -/
def deliver (o : Outcome) : IO UInt32 := do
  (← IO.getStdout).putStr o.output
  (← IO.getStderr).putStr o.errors
  return o.exitCode.toUInt32

/-- Reads and runs lines until the input ends. -/
partial def converse (m : Machine) : IO Unit := do
  let out ← IO.getStdout
  out.putStr prompt
  out.flush
  let line ← (← IO.getStdin).getLine
  if line = "" then out.putStr "\n"
  else
    let (errors, m) := runLine { m with output := "" } line
    out.putStr m.output
    (← IO.getStderr).putStr errors
    converse m

end WordStack

open WordStack WordStack.CommandLine in
def main (arguments : List String) : IO UInt32 := do
  match parse arguments with
  | .error refusal => deliver (refuse refusal)
  | .ok .version => deliver (execute ⟨[]⟩ "" .version)
  | .ok (.run request) =>
    (← IO.getStderr).putStr (complaints request)
    if request.isInteractive then
      converse .fresh
      return 0
    else
      deliver (runRequest request (← request.files.mapM readContents))
