import PrefixArith.Transcript

/-!
# The command line

Reads expressions from standard input, one a line, and writes a line of output for each. All that is
decided is in `Transcript.ofInput`.
-/

namespace PrefixArith

/-- Standard input to its end. -/
partial def readInput (stdin : IO.FS.Stream) (before : String) : IO String := do
  let line ← stdin.getLine
  if line.isEmpty then
    return before
  readInput stdin (before ++ line)

end PrefixArith

open PrefixArith in
/-- Answers standard input on standard output, with the warnings on standard error. -/
def main : IO UInt32 := do
  let input ← readInput (← IO.getStdin) ""
  match Transcript.ofInput input with
  | .ok t =>
    (← IO.getStdout).putStr t.stdout
    (← IO.getStderr).putStr t.stderr
    return t.exitCode
  | .error fault =>
    (← IO.getStderr).putStrLn (fault.message?.getD "")
    return 1
