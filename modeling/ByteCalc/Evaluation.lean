import ByteCalc.Bytecode.Codegen
import ByteCalc.Machine.Execution
import ByteCalc.Program.Parser

/-! # Evaluation

Source text is read, compiled and run on a machine of its own. The machine runs
in slices, and between two slices the user may interrupt it.
-/

namespace ByteCalc

/-- The flag by which a user interrupts an evaluation, and the requests still to come: `requests k`
says whether the flag is raised before check number `k` from now. -/
structure Signal where
  raised : Bool
  requests : Nat → Bool

namespace Signal

/-- A flag that nobody touches. -/
def still (raised : Bool) : Signal := ⟨raised, fun _ => false⟩

/-- Look at the flag and lower it. -/
def check (s : Signal) : Bool × Signal :=
  (s.raised || s.requests 0, ⟨false, fun k => s.requests (k + 1)⟩)

end Signal

/-- The number of instructions between two looks at the signal. -/
def sliceLength : Nat := 5000

/-- Run a machine in slices. Gives the value on top of its stack at the end. -/
def Machine.supervise (m : Machine) (signal : Signal) : Except Fault (Option Val) × Signal :=
  match h : m.execute sliceLength with
  | (.error f, _) => (.error f, signal)
  | (.ok .halted, m) => (.ok m.stack.top?, signal)
  | (.ok .running, m') =>
    have := remaining_of_execute (by decide) h
    match signal.check with
    | (true, signal) => (.error .interrupted, signal)
    | (false, signal) => m'.supervise signal
termination_by m.remaining

/-- A machine loaded with the program that a text spells. Gives nothing if the parser crashes. -/
def loadSource (memory : Memory) (source : String) : Option (Except Fault Machine) :=
  (parse source).map fun result => do
    let program ← result
    let bytecode ← program.compile
    Machine.load memory bytecode

/-- The value of the last statement of a text, if it has any. There is no result if the parser
crashes. -/
def evaluate (memory : Memory) (source : String) (signal : Signal) :
    Option (Except Fault (Option Val)) × Signal :=
  match loadSource memory source with
  | some (.ok m) =>
    let (result, signal) := m.supervise signal
    (some result, signal)
  | some (.error f) => (some (.error f), signal)
  | none => (none, signal)

end ByteCalc
