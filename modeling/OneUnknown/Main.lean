import OneUnknown.CommandLine
/-!
# The program

Reads problems from standard input and answers each line.  With `--steps`, the stages of every
solution are shown.
-/

namespace OneUnknown

/-- Answer the lines of the standard input until it ends. -/
partial def answerLines (steps : Bool) (input output errors : IO.FS.Stream) : IO Unit := do
  let line ← input.getLine
  if line.isEmpty then return
  let report := answerInput steps line.toList
  output.putStr report.output
  output.flush
  errors.putStr report.errors
  errors.flush
  answerLines steps input output errors

end OneUnknown

/-- The command line. -/
def main (args : List String) : IO Unit := do
  OneUnknown.answerLines (args.contains "--steps") (← IO.getStdin) (← IO.getStdout) (← IO.getStderr)
