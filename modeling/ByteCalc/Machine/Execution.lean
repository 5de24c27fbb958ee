import ByteCalc.Machine

/-! # Running a machine

A machine can be run to the end of its code or for a number of instructions at
a time. A machine that has stopped stays as it is and reports its outcome again.
-/

namespace ByteCalc

/-- What a run of limited length reports. -/
inductive Event where
  /-- There are instructions left. -/
  | running
  | halted
deriving DecidableEq, Repr

namespace Machine

/-- Leave the initial status. -/
def start (m : Machine) : Machine :=
  match m.status with
  | .ready => { m with status := .running }
  | _ => m

/-- Perform at most `n` instructions. -/
def advance : Nat → Machine → Machine
  | 0, m => m
  | n + 1, m => if m.isRunning then advance n m.step else m

theorem advance_of_not_isRunning {m : Machine} (h : ¬ m.isRunning) (n : Nat) :
    advance n m = m := by
  cases n with
  | zero => rfl
  | succ n => rw [advance, if_neg h]

theorem advance_add (j k : Nat) (m : Machine) : advance (j + k) m = advance k (advance j m) := by
  induction j generalizing m with
  | zero => rw [Nat.zero_add, advance]
  | succ j ih =>
    rw [Nat.succ_add, advance, advance]
    split
    · exact ih _
    · next h => rw [advance_of_not_isRunning h]

/-- Halt a machine that has come to the end of its code. -/
def settle (m : Machine) : Machine :=
  if m.isRunning ∧ m.bytecode.code.size ≤ m.ip then { m with status := .halted } else m

def report (m : Machine) : Except Fault Event :=
  match m.status with
  | .ready | .running => .ok .running
  | .halted => .ok .halted
  | .failed => .error (m.fault.getD .faultMissing)

/-- Run for at most `n` instructions. -/
def execute (m : Machine) (n : Nat) : Except Fault Event × Machine :=
  let m := (advance n m.start).settle
  (m.report, m)

/-- An upper bound for the number of steps that a machine can still make. -/
def remaining (m : Machine) : Nat :=
  if m.isActive then m.bytecode.code.size - m.ip + 1 else 0

theorem isActive_of_isRunning {m : Machine} (h : m.isRunning) : m.isActive := by
  simp [isActive, h]

theorem remaining_step_lt {m : Machine} (h : m.isActive) : m.step.remaining < m.remaining := by
  by_cases hs : m.step.isActive
  · obtain ⟨hb, hlt, hip⟩ := step_of_isActive hs
    simp only [remaining, h, hs, hb, if_true]
    omega
  · simp [remaining, h, hs]

theorem remaining_start (m : Machine) : m.start.remaining = m.remaining := by
  unfold start
  split
  · next h => simp [remaining, isActive, isRunning, h]
  · rfl

theorem remaining_advance_le (n : Nat) (m : Machine) : (advance n m).remaining ≤ m.remaining := by
  induction n generalizing m with
  | zero => exact Nat.le_refl _
  | succ n ih =>
    unfold advance
    split
    · next h =>
      exact Nat.le_trans (ih _) (Nat.le_of_lt (remaining_step_lt (isActive_of_isRunning h)))
    · exact Nat.le_refl _

theorem remaining_settle_le (m : Machine) : m.settle.remaining ≤ m.remaining := by
  unfold settle
  split
  · exact Nat.zero_le _
  · exact Nat.le_refl _

/-- A machine that reports that it is still running has performed an instruction. -/
theorem remaining_of_execute {m m' : Machine} {n : Nat} (hn : 0 < n)
    (h : m.execute n = (.ok .running, m')) : m'.remaining < m.remaining := by
  obtain ⟨n, rfl⟩ := Nat.exists_eq_add_one_of_ne_zero (Nat.ne_of_gt hn)
  have hr : m.start.isRunning := by
    cases hs : m.status <;>
      simp_all [execute, start, advance, settle, report, isRunning]
  calc m'.remaining
      = (m.execute (n + 1)).2.remaining := by rw [h]
    _ ≤ (advance (n + 1) m.start).remaining := remaining_settle_le _
    _ = (advance n m.start.step).remaining := by rw [advance, if_pos hr]
    _ ≤ m.start.step.remaining := remaining_advance_le _ _
    _ < m.start.remaining := remaining_step_lt (isActive_of_isRunning hr)
    _ = m.remaining := remaining_start m

/-- Perform instructions until the machine stops. -/
def finish (m : Machine) : Machine :=
  if m.isRunning then finish m.step else m
termination_by m.remaining
decreasing_by exact remaining_step_lt (isActive_of_isRunning ‹_›)

/-- Run to the end of the code. -/
def run (m : Machine) : Except Fault Unit × Machine :=
  let m := finish m.start
  (m.report.map fun _ => (), m)

end Machine

end ByteCalc
