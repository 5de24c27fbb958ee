import ByteCalc.Proofs.Lifecycle

/-! # How long a run takes

Every instruction that is performed brings the machine closer to the end of its
code. So a run needs no more instructions than there are bytes left, and it is
the same as a run of limited length with any limit from there on.
-/

namespace ByteCalc.Machine

variable {m : Machine} {k n : Nat}

/-- The machine begins `k` instructions one after the other. Only the last of them can fail. -/
def Begins (m : Machine) (k : Nat) : Prop :=
  ∀ j < k, (advance j m).isRunning ∧ (advance j m).ahead ≠ []

theorem begins_zero (m : Machine) : m.Begins 0 := fun j hj => absurd hj (Nat.not_lt_zero j)

theorem Begins.isRunning (h : m.Begins k) (hk : 0 < k) : m.isRunning := (h 0 hk).1

theorem Begins.succ (hr : m.isRunning) (hahead : m.ahead ≠ []) (h : m.step.Begins k) :
    m.Begins (k + 1) := by
  intro j hj
  cases j with
  | zero => exact ⟨hr, hahead⟩
  | succ j =>
    rw [advance, if_pos hr]
    exact h j (Nat.lt_of_succ_lt_succ hj)

/-- A machine that is left to itself stops after so many instructions. -/
theorem exists_finish_eq_settle (m : Machine) :
    ∃ k ≤ m.bytecode.code.size - m.ip, m.Begins k ∧ m.finish = (advance k m).settle := by
  induction m using finish.induct with
  | case1 m hr ih =>
    rw [finish_of_isRunning hr]
    rcases Nat.lt_or_ge m.ip m.bytecode.code.size with hlt | hge
    · obtain ⟨k, hk, hbegins, hfinish⟩ := ih
      have hahead : m.ahead ≠ [] := fun hnil => Nat.not_le_of_lt hlt (ahead_eq_nil_iff.mp hnil)
      refine ⟨k + 1, ?_, hbegins.succ hr hahead, ?_⟩
      · -- an instruction that is not the last one has moved the machine on
        rcases Nat.eq_zero_or_pos k with rfl | hpos
        · omega
        · obtain ⟨hb, -, hip⟩ := step_of_isActive (isActive_of_isRunning (hbegins.isRunning hpos))
          rw [hb] at hk
          omega
      · rw [hfinish, advance, if_pos hr]
    · refine ⟨0, Nat.zero_le _, m.begins_zero, ?_⟩
      rw [← finish_of_isRunning hr, finish_of_size_le hr hge, advance, settle, if_pos ⟨hr, hge⟩]
  | case2 m hn =>
    refine ⟨0, Nat.zero_le _, m.begins_zero, ?_⟩
    rw [finish_of_not_isRunning hn, advance, settle_of_not_isRunning hn]

theorem not_isRunning_finish (m : Machine) : ¬ m.finish.isRunning := by
  induction m using finish.induct with
  | case1 m hr ih => rwa [finish_of_isRunning hr]
  | case2 m hn => rwa [finish_of_not_isRunning hn]

theorem bytecode_start (m : Machine) : m.start.bytecode = m.bytecode := by
  unfold start
  split <;> rfl

theorem ip_start (m : Machine) : m.start.ip = m.ip := by
  unfold start
  split <;> rfl

/-- Instructions beyond those that a run needs are not performed. -/
theorem settle_advance_of_finish (hk : m.finish = (advance k m).settle) (hn : k ≤ n) :
    (advance n m).settle = m.finish := by
  obtain ⟨i, rfl⟩ := Nat.exists_eq_add_of_le hn
  have hstop := m.not_isRunning_finish
  rw [advance_add, ← settle_advance_settle, ← hk, advance_of_not_isRunning hstop,
    settle_of_not_isRunning hstop]

theorem execute_snd_eq_run (hn : m.bytecode.code.size - m.ip ≤ n) :
    (m.execute n).2 = m.run.2 := by
  obtain ⟨k, hk, -, hfinish⟩ := m.start.exists_finish_eq_settle
  rw [bytecode_start, ip_start] at hk
  exact settle_advance_of_finish hfinish (hk.trans hn)

theorem not_isActive_run (m : Machine) : m.run.2.isActive = false := by
  have hready : m.run.2.status ≠ .ready := by
    rw [← execute_snd_eq_run le_rfl]
    exact status_execute_ne_ready m _
  have hrunning : m.run.2.isRunning = false := Bool.eq_false_iff.mpr m.start.not_isRunning_finish
  simp [isActive, hready, hrunning]

/-- A run begins at most as many instructions as there are bytes of code left, and then the machine
has stopped. With any limit from there on, a run of limited length does the same and comes to the
same result. -/
theorem run_eq_execute (m : Machine) :
    (∃ k ≤ m.bytecode.code.size - m.ip, m.start.Begins k ∧
      m.run.2 = (advance k m.start).settle ∧ m.run.2.isActive = false) ∧
    ∀ n, m.bytecode.code.size - m.ip ≤ n →
      (m.execute n).2 = m.run.2 ∧ (m.execute n).1 ≠ .ok .running ∧
      (m.run.1 = .ok () ↔ (m.execute n).1 = .ok .halted) ∧
      ∀ f, m.run.1 = .error f ↔ (m.execute n).1 = .error f := by
  constructor
  · obtain ⟨k, hk, hbegins, hfinish⟩ := m.start.exists_finish_eq_settle
    rw [bytecode_start, ip_start] at hk
    exact ⟨k, hk, hbegins, hfinish, m.not_isActive_run⟩
  · intro n hn
    have hsnd := execute_snd_eq_run hn
    have hfst : (m.execute n).1 = m.run.2.report := congrArg report hsnd
    have hne : m.run.2.report ≠ .ok .running := by
      rw [ne_eq, report_eq_running_iff, m.not_isActive_run]
      exact Bool.false_ne_true
    have hrun : m.run.1 = m.run.2.report.map fun _ => () := rfl
    refine ⟨hsnd, hfst ▸ hne, ?_, ?_⟩
    · rw [hfst, hrun, Fault.map_eq_ok_iff]
      constructor
      · rintro ⟨_ | _, he, -⟩
        · exact absurd he hne
        · exact he
      · intro he
        exact ⟨_, he, rfl⟩
    · intro f
      rw [hfst, hrun, Fault.map_eq_error_iff]

/-- Two bytes before the end stands an instruction whose operand is cut off. -/
theorem run_eq_execute_at_cut_operand :
    ∃ m m' : Machine, loadWith .addressSpace 1 ⟨#[0, 0, 0, 0, 0], #[.integer 5]⟩ = .ok m ∧
      (m.callAll [.pop, .execute 1]).2 = m' ∧ m'.bytecode.code.size - m'.ip = 2 ∧
      m'.run.1 = .error .wordTruncated ∧ (m'.execute 2).2 = m'.run.2 := by
  have hm : loadWith .addressSpace 1 ⟨#[0, 0, 0, 0, 0], #[.integer 5]⟩ =
      .ok (loaded ⟨#[0, 0, 0, 0, 0], #[.integer 5]⟩ 1 #[]) := rfl
  obtain ⟨hsnd, -, -, hfault⟩ := (run_eq_execute ((loaded ⟨#[0, 0, 0, 0, 0], #[.integer 5]⟩ 1
    #[]).callAll [.pop, .execute 1]).2).2 2 (by decide)
  exact ⟨_, _, hm, rfl, rfl, (hfault _).mpr rfl, hsnd⟩

end ByteCalc.Machine
