import ByteCalc.Evaluation
import ByteCalc.Text.Space

/-! # The console

A line of input is answered by a value or by a diagnostic in bold type. Lines
without a statement are not answered. A crash ends the console.
-/

namespace ByteCalc.Console

def prompt : String := ">> "

/-- Switch bold type on and off around a text. -/
def bold (text : String) : String := "\x1b[1m" ++ text ++ "\x1b[0m"

/-- What happens on a line of input. -/
inductive Response where
  | silence
  | answer (text : String)
  | crash

def respond (memory : Memory) (line : String) : Response :=
  if line.toList.all Text.isSpace then .silence
  else match (evaluate memory line (.still false)).1 with
    | some (.ok (some value)) => .answer value.text
    | some (.ok none) => .silence
    | some (.error f) => .answer (bold f.diagnostic.text)
    | none => .crash

end ByteCalc.Console
