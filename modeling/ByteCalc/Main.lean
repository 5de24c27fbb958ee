import ByteCalc.Console

/-! # The command line

Reads lines until the input ends or one of them makes the program crash, and
answers each of them.
-/

namespace ByteCalc.Console

/-- Remove the end of a line as it was read. -/
def chomp (line : String) : String :=
  String.ofList (line.toList.filter fun c => c != '\n')

/-- Answer lines until the input ends or there is a crash. -/
partial def serve (input output : IO.FS.Stream) : IO Unit := do
  output.putStr prompt
  output.flush
  let line ← input.getLine
  unless line.isEmpty do
    match respond .addressSpace (chomp line) with
    | .silence => serve input output
    | .answer text =>
      output.putStr (text ++ "\n")
      serve input output
    | .crash => throw (IO.userError "the line is too wide to be shown")

end ByteCalc.Console

def main : IO Unit := do
  ByteCalc.Console.serve (← IO.getStdin) (← IO.getStdout)
