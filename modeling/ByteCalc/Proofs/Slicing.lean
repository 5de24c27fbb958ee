import Mathlib.Algebra.Ring.Nat
import ByteCalc.Evaluation
import ByteCalc.Proofs.Running

/-! # Running in slices

A machine that is stopped after some instructions and taken up again comes to
the same end, so only the sum of the slices counts. Left alone, an evaluation
is therefore one run of its machine.
-/

namespace ByteCalc

namespace Machine

variable {m m' : Machine} {n : Nat}

theorem status_step_ne_ready (h : m.status ≠ .ready) : m.step.status ≠ .ready := by
  rcases step_cases m with (⟨items, n, hm⟩ | ⟨items, f, hm⟩) | ⟨-, hm⟩
  · rwa [hm]
  · simp [hm, fail]
  · simp [hm]

theorem status_start_ne_ready (m : Machine) : m.start.status ≠ .ready := by
  unfold start
  split
  · exact nofun
  · assumption

theorem status_advance_ne_ready (h : m.status ≠ .ready) (n : Nat) :
    (advance n m).status ≠ .ready := by
  induction n generalizing m with
  | zero => exact h
  | succ n ih =>
    unfold advance
    split
    · exact ih (status_step_ne_ready h)
    · exact h

theorem start_of_ne_ready (h : m.status ≠ .ready) : m.start = m := by
  unfold start
  split
  · contradiction
  · rfl

theorem settle_of_not_isRunning (h : ¬ m.isRunning) : m.settle = m := if_neg fun hs => h hs.1

theorem finish_settle (m : Machine) : m.settle.finish = m.finish := by
  unfold settle
  split
  · next h =>
    rw [finish_of_size_le h.1 h.2]
    exact finish_of_not_isRunning (by simp [isRunning])
  · rfl

theorem status_settle_ne_ready (h : m.status ≠ .ready) : m.settle.status ≠ .ready := by
  unfold settle
  split
  · exact nofun
  · exact h

theorem status_execute_ne_ready (m : Machine) (n : Nat) : (m.execute n).2.status ≠ .ready :=
  status_settle_ne_ready (status_advance_ne_ready (status_start_ne_ready m) n)

/-- It makes no difference whether the end of the code is noticed when a slice is used up or by
the next instruction. -/
theorem settle_advance_settle (n : Nat) (m : Machine) :
    (advance n m.settle).settle = (advance n m).settle := by
  by_cases h : m.isRunning ∧ m.bytecode.code.size ≤ m.ip
  · have hs : m.settle = { m with status := .halted } := if_pos h
    have hstop : ¬ m.settle.isRunning := by simp [hs, isRunning]
    rw [advance_of_not_isRunning hstop, settle_of_not_isRunning hstop]
    cases n with
    | zero => rfl
    | succ n => rw [advance, if_pos h.1, step_of_size_le h.2, ← hs,
        advance_of_not_isRunning hstop, settle_of_not_isRunning hstop]
  · have hs : m.settle = m := if_neg h
    rw [hs]

/-- Two slices in a row are one slice. -/
theorem execute_execute (m : Machine) (a b : Nat) :
    (m.execute a).2.execute b = m.execute (a + b) := by
  have hend : (advance b (m.execute a).2.start).settle = (advance (a + b) m.start).settle := by
    rw [start_of_ne_ready (status_execute_ne_ready m a), advance_add]
    exact settle_advance_settle b (advance a m.start)
  rw [execute, hend, execute]

/-- Run for `n` instructions and then for each of the other numbers in turn. Gives what the last
run reports. -/
def executeAll (m : Machine) (n : Nat) : List Nat → Except Fault Event × Machine
  | [] => m.execute n
  | k :: ns => (m.execute n).2.executeAll k ns

theorem executeAll_eq_execute (m : Machine) (n : Nat) (ns : List Nat) :
    m.executeAll n ns = m.execute (n + ns.sum) := by
  induction ns generalizing m n with
  | nil => rfl
  | cons k ns ih => rw [executeAll, ih, execute_execute, List.sum_cons]

/-- However a number of instructions is divided into slices, the machine ends up in the same
state, and the last slice reports what a single one does. -/
theorem execute_slices (m : Machine) :
    (∀ a b, (m.execute a).2.execute b = m.execute (a + b)) ∧
      ∀ n ns, m.executeAll n ns = m.execute (n + ns.sum) :=
  ⟨m.execute_execute, m.executeAll_eq_execute⟩

/-- A machine that is taken up again goes on as if it had not been stopped. -/
theorem run_execute (m : Machine) (n : Nat) : (m.execute n).2.run = m.run := by
  have h := status_execute_ne_ready m n
  have hf : (m.execute n).2.finish = m.start.finish :=
    (finish_settle _).trans (finish_advance n m.start)
  rw [run, start_of_ne_ready h, hf, run]

theorem ne_ready_of_not_isActive (h : m.isActive = false) : m.status ≠ .ready := by
  intro hs
  simp [isActive, hs] at h

theorem not_isRunning_of_not_isActive (h : m.isActive = false) : ¬ m.isRunning := by
  intro hr
  rw [isActive_of_isRunning hr] at h
  cases h

/-- A machine that has stopped gives the outcome of the whole run. -/
theorem run_of_not_isActive (h : m.isActive = false) : m.run = (m.report.map fun _ => (), m) := by
  rw [run, start_of_ne_ready (ne_ready_of_not_isActive h),
    finish_of_not_isRunning (not_isRunning_of_not_isActive h)]

/-- The outcome of a run to the end, with the value on top of the stack. -/
def answer (m : Machine) : Except Fault (Option Val) := m.run.1.map fun _ => m.run.2.stack.top?

theorem answer_of_execute {r : Except Fault Event} (h : m.execute n = (r, m')) :
    m.answer = m'.answer ∧ m'.report = r := by
  obtain ⟨rfl, rfl⟩ := Prod.mk.inj h.symm
  refine ⟨?_, rfl⟩
  rw [answer, ← run_execute m n]
  rfl

theorem report_eq_running_iff : m.report = .ok .running ↔ m.isActive := by
  cases h : m.status <;> simp [report, isActive, isRunning, h]

theorem answer_of_report_ne (h : m.report ≠ .ok .running) :
    m.answer = m.report.map fun _ => m.stack.top? := by
  rw [ne_eq, report_eq_running_iff, Bool.not_eq_true] at h
  rw [answer, run_of_not_isActive h]
  cases m.report <;> rfl

/-- A machine that nobody interrupts is run to its end. -/
theorem supervise_still (m : Machine) :
    m.supervise (.still false) = (m.answer, .still false) := by
  rw [supervise]
  split
  · next h =>
    obtain ⟨ha, hr⟩ := answer_of_execute h
    rw [ha, answer_of_report_ne (by simp [hr]), hr]
    rfl
  · next h =>
    obtain ⟨ha, hr⟩ := answer_of_execute h
    rw [ha, answer_of_report_ne (by simp [hr]), hr]
    rfl
  · next m' h =>
    have hlt := remaining_of_execute (by decide) h
    rw [(answer_of_execute h).1]
    exact supervise_still m'
termination_by m.remaining

end Machine

end ByteCalc
