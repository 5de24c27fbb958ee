import ByteCalc.Machine.Execution

/-! # Laws of running

What one instruction does to a machine, and what that means for whole runs.
Running to the end does not depend on how many instructions were performed
before. A stopped machine stays as it is. It keeps a fault just if it has failed,
so what it reports is the fault that it failed with.
-/

namespace ByteCalc

theorem Stack.items_push (s : Stack Val) (v : Val) :
    ∃ items, (s.push v).2 = { s with items := items } := by
  unfold push
  split
  · exact ⟨s.items, rfl⟩
  · exact ⟨s.items.push v, rfl⟩

theorem Stack.items_popTwo (s : Stack Val) : ∃ items, s.popTwo.2 = { s with items := items } := by
  unfold popTwo
  split
  · exact ⟨s.items.pop.pop, rfl⟩
  · exact ⟨s.items, rfl⟩

namespace Machine

/-- The machine with other items on its stack, `n` bytes of code further on. -/
def after (m : Machine) (items : Array Val) (n : Nat) : Machine :=
  { m with stack := { m.stack with items := items }, ip := m.ip + n }

/-- The code from the next instruction on. -/
def ahead (m : Machine) : List UInt8 := m.bytecode.code.toList.drop m.ip

variable {m m' : Machine}

@[simp] theorem after_after (m : Machine) (xs ys : Array Val) (i j : Nat) :
    (m.after xs i).after ys j = m.after ys (i + j) := by
  simp [after, Nat.add_assoc]

@[simp] theorem capacity_after (m : Machine) (items : Array Val) (n : Nat) :
    (m.after items n).stack.capacity = m.stack.capacity := rfl

@[simp] theorem items_after (m : Machine) (items : Array Val) (n : Nat) :
    (m.after items n).stack.items = items := rfl

@[simp] theorem size_after (m : Machine) (items : Array Val) (n : Nat) :
    (m.after items n).stack.size = items.size := rfl

@[simp] theorem bytecode_after (m : Machine) (items : Array Val) (n : Nat) :
    (m.after items n).bytecode = m.bytecode := rfl

@[simp] theorem ip_after (m : Machine) (items : Array Val) (n : Nat) :
    (m.after items n).ip = m.ip + n := rfl

@[simp] theorem isRunning_after (m : Machine) (items : Array Val) (n : Nat) :
    (m.after items n).isRunning = m.isRunning := rfl

theorem ahead_after (m : Machine) (items : Array Val) (n : Nat) :
    (m.after items n).ahead = m.ahead.drop n := by
  rw [ahead, ahead, List.drop_drop]
  rfl

theorem getElem?_code_of_ahead {bs : List UInt8} (h : m.ahead = bs) (j : Nat) :
    m.bytecode.code[m.ip + j]? = bs[j]? := by
  rw [← Array.getElem?_toList, ← List.getElem?_drop, ← h, ahead]

theorem stepConstant_eq {index : Nat} {v : Val}
    (hi : readU16 m.bytecode.code (m.ip + 1) = .ok index)
    (hv : m.bytecode.constants[index]? = some v) :
    m.stepConstant = if m.stack.size < m.stack.capacity then m.after (m.stack.items.push v) 3
      else m.fail (.stackFull m.stack.overflowNote) := by
  by_cases hr : m.stack.size < m.stack.capacity
  · rw [if_pos hr]
    simp only [stepConstant, hi, hv, push, onStack, Stack.push_of_lt hr, after]
  · rw [if_neg hr]
    simp only [stepConstant, hi, hv, push, onStack, Stack.push_of_le (Nat.le_of_not_lt hr)]

/-- A sum needs two values on the stack. -/
theorem stepAdd_of_lt (h : m.stack.size < 2) : m.stepAdd = m.fail .stackEmpty := by
  have hpop : m.stack.popTwo = (.error .stackEmpty, m.stack) := dif_neg (Nat.not_le_of_lt h)
  simp only [stepAdd, onStack, hpop]

/-- The result of a sum always finds a free slot, since its operands have left two. -/
theorem stepAdd_eq {items : Array Val} {a b : Val}
    (hi : m.stack.items = (items.push a).push b) (hr : items.size < m.stack.capacity) :
    m.stepAdd = match a.sum b with
      | .ok v => m.after (items.push v) 1
      | .error f => (m.after items 0).fail f := by
  obtain ⟨bytecode, ⟨capacity, note, xs⟩, ip, status, fault⟩ := m
  subst hi
  have hpop := Stack.popTwo_push_push ⟨capacity, note, items⟩ a b
  simp only [stepAdd, onStack, hpop]
  cases a.sum b with
  | error f => rfl
  | ok v =>
    have hpush := Stack.push_of_lt (s := ⟨capacity, note, items⟩) hr v
    simp only [push, onStack, hpush, after]

theorem step_eq_stepConstant (h : m.bytecode.code[m.ip]? = some Opcode.constant.byte) :
    m.step = m.stepConstant := by
  simp only [step, h]
  rfl

theorem step_eq_stepAdd (h : m.bytecode.code[m.ip]? = some Opcode.add.byte) :
    m.step = m.stepAdd := by
  simp only [step, h]
  rfl

theorem step_of_size_le (h : m.bytecode.code.size ≤ m.ip) :
    m.step = { m with status := .halted } := by
  rw [step, Array.getElem?_eq_none h]

theorem step_of_ahead_nil (h : m.ahead = []) : m.step = { m with status := .halted } :=
  step_of_size_le (by simpa [ahead] using h)

theorem readU16_of_ahead {k : Nat} {rest : List UInt8} (hk : k < BigEndian.limit 2)
    (h : m.ahead = Opcode.constant.byte :: BigEndian.encode 2 k ++ rest) :
    readU16 m.bytecode.code (m.ip + 1) = .ok k := by
  have hdec : BigEndian.decode (BigEndian.encode 2 k) = k := by
    rw [BigEndian.decode_encode, Nat.mod_eq_of_lt hk]
  have h₁ := getElem?_code_of_ahead h 1
  have h₂ := getElem?_code_of_ahead h 2
  rw [readU16, h₁, Nat.add_assoc, h₂]
  exact congrArg Except.ok hdec

/-- The instruction that pushes a constant, with all that can happen to it. -/
theorem step_constant {k : Nat} {rest : List UInt8} (hk : k < BigEndian.limit 2)
    (h : m.ahead = Opcode.constant.byte :: BigEndian.encode 2 k ++ rest) :
    m.step = match m.bytecode.constants[k]? with
      | some v => if m.stack.size < m.stack.capacity then m.after (m.stack.items.push v) 3
        else m.fail (.stackFull m.stack.overflowNote)
      | none => m.fail (.constantIndex k m.bytecode.constants.size) := by
  rw [step_eq_stepConstant (getElem?_code_of_ahead h 0)]
  have hi := readU16_of_ahead hk h
  cases hv : m.bytecode.constants[k]? with
  | some v => exact stepConstant_eq hi hv
  | none => simp only [stepConstant, hi, hv]

/-- The instruction that adds, with all that can happen to it. -/
theorem step_add {rest : List UInt8} (h : m.ahead = Opcode.add.byte :: rest)
    (hr : m.stack.size ≤ m.stack.capacity) :
    m.stack.size < 2 ∧ m.step = m.fail .stackEmpty ∨
      ∃ (items : Array Val) (a b : Val), m.stack.items = (items.push a).push b ∧
        m.step = match a.sum b with
          | .ok v => m.after (items.push v) 1
          | .error f => (m.after items 0).fail f := by
  rw [step_eq_stepAdd (getElem?_code_of_ahead h 0)]
  rcases Nat.lt_or_ge m.stack.size 2 with hlt | hge
  · exact .inl ⟨hlt, stepAdd_of_lt hlt⟩
  · rw [Stack.size] at hge hr
    obtain ⟨xs, b, hxs⟩ := Array.exists_push_of_size_pos (show 0 < m.stack.items.size by omega)
    rw [hxs, Array.size_push] at hge hr
    obtain ⟨items, a, rfl⟩ := Array.exists_push_of_size_pos (show 0 < xs.size by omega)
    rw [Array.size_push] at hr
    exact .inr ⟨items, a, b, hxs, stepAdd_eq hxs (by omega)⟩

/-! ## What any instruction can do -/

theorem after_of_push {v : Val} {r : Except Fault Unit} (h : m.push v = (r, m')) :
    ∃ items, m' = m.after items 0 := by
  obtain ⟨items, hi⟩ := m.stack.items_push v
  refine ⟨items, (eq_of_onStack h).trans ?_⟩
  rw [hi]
  rfl

theorem after_of_popTwo {r : Except Fault (Val × Val)} (h : m.onStack (·.popTwo) = (r, m')) :
    ∃ items, m' = m.after items 0 := by
  obtain ⟨items, hi⟩ := m.stack.items_popTwo
  refine ⟨items, (eq_of_onStack h).trans ?_⟩
  rw [hi]
  rfl

/-- What an instruction can do: move on, or fail where it stands. -/
def Performs (m m' : Machine) : Prop :=
  (∃ items n, m' = m.after items n) ∨ ∃ items f, m' = (m.after items 0).fail f

theorem performs_fail (m : Machine) (f : Fault) : m.Performs (m.fail f) :=
  .inr ⟨m.stack.items, f, rfl⟩

theorem performs_stepConstant (m : Machine) : m.Performs m.stepConstant := by
  unfold stepConstant
  split
  · exact performs_fail m _
  · split
    · exact performs_fail m _
    · split
      · next hp =>
        obtain ⟨items, rfl⟩ := after_of_push hp
        exact .inl ⟨items, 3, rfl⟩
      · next hp =>
        obtain ⟨items, rfl⟩ := after_of_push hp
        exact .inr ⟨items, _, rfl⟩

theorem performs_stepAdd (m : Machine) : m.Performs m.stepAdd := by
  unfold stepAdd
  split
  · next hp =>
    obtain ⟨items, rfl⟩ := after_of_popTwo hp
    exact .inr ⟨items, _, rfl⟩
  · next hp =>
    obtain ⟨items, rfl⟩ := after_of_popTwo hp
    split
    · exact .inr ⟨items, _, rfl⟩
    · split
      · next hq =>
        obtain ⟨items', rfl⟩ := after_of_push hq
        exact .inl ⟨items', 1, rfl⟩
      · next hq =>
        obtain ⟨items', rfl⟩ := after_of_push hq
        exact .inr ⟨items', _, rfl⟩

theorem step_cases (m : Machine) :
    m.Performs m.step ∨
      m.bytecode.code.size ≤ m.ip ∧ m.step = { m with status := .halted } := by
  unfold step
  split
  · next h => exact .inr ⟨Array.getElem?_eq_none_iff.mp h, rfl⟩
  · refine .inl ?_
    split
    · exact performs_fail m _
    · exact performs_stepConstant m
    · exact performs_stepAdd m

/-! ## Whole runs -/

theorem advance_one (h : m.isRunning) : advance 1 m = m.step := by
  rw [advance, if_pos h, advance]

theorem isRunning_of_advance_add {j k : Nat} (h : (advance (j + k) m).isRunning) :
    (advance j m).isRunning := by
  refine Decidable.byContradiction fun hn => ?_
  rw [advance_add, advance_of_not_isRunning hn] at h
  exact hn h

theorem advance_succ {k : Nat} (h : (advance k m).isRunning) :
    advance (k + 1) m = (advance k m).step := by
  rw [advance_add, advance_one h]

theorem finish_of_isRunning (h : m.isRunning) : m.finish = m.step.finish := by
  rw [finish, if_pos h]

theorem finish_of_not_isRunning (h : ¬ m.isRunning) : m.finish = m := by
  rw [finish, if_neg h]

theorem finish_advance (n : Nat) (m : Machine) : (advance n m).finish = m.finish := by
  induction n generalizing m with
  | zero => rfl
  | succ n ih =>
    rw [advance]
    split
    · next h => rw [ih, finish_of_isRunning h]
    · rfl

/-- A running machine makes a last step. -/
theorem exists_last_step (h : m.isRunning) : ∃ k, (advance k m).isRunning ∧
    ¬ (advance k m).step.isRunning ∧ m.finish = (advance k m).step := by
  induction m using finish.induct with
  | case1 m hr ih =>
    by_cases hs : m.step.isRunning
    · obtain ⟨k, hk⟩ := ih hs
      refine ⟨k + 1, ?_⟩
      rwa [advance, if_pos hr, finish_of_isRunning hr]
    · refine ⟨0, hr, hs, ?_⟩
      rw [finish_of_isRunning hr, finish_of_not_isRunning hs]
      rfl
  | case2 m hn => exact absurd h hn

theorem isRunning_advance_iff {k : Nat} (hk : (advance k m).isRunning)
    (hs : ¬ (advance k m).step.isRunning) (j : Nat) : (advance j m).isRunning ↔ j ≤ k := by
  constructor
  · intro hj
    refine Nat.le_of_not_lt fun hlt => ?_
    obtain ⟨i, rfl⟩ := Nat.exists_eq_add_of_lt hlt
    rw [Nat.add_right_comm] at hj
    have hnext := isRunning_of_advance_add hj
    rw [advance_succ hk] at hnext
    exact hs hnext
  · intro hj
    obtain ⟨i, rfl⟩ := Nat.exists_eq_add_of_le hj
    exact isRunning_of_advance_add hk

/-! ## Faults -/

/-- The machine has failed and keeps the fault. -/
structure FailedWith (m : Machine) (f : Fault) : Prop where
  status : m.status = .failed
  fault : m.fault = some f

theorem failedWith_fail (m : Machine) (f : Fault) : (m.fail f).FailedWith f := ⟨rfl, rfl⟩

theorem FailedWith.unique {f g : Fault} (hf : m.FailedWith f) (hg : m.FailedWith g) : f = g :=
  Option.some.inj (hf.fault.symm.trans hg.fault)

theorem FailedWith.report_eq {f : Fault} (h : m.FailedWith f) : m.report = .error f := by
  rw [report, h.status, h.fault]
  rfl

theorem status_of_report_eq_error {f : Fault} (h : m.report = .error f) : m.status = .failed := by
  cases hs : m.status <;> simp [report, hs] at h ⊢

theorem not_isRunning_of_failed (h : m.status = .failed) : ¬ m.isRunning := by
  simp [isRunning, h]

theorem advance_of_failed (h : m.status = .failed) (n : Nat) : advance n m = m :=
  advance_of_not_isRunning (not_isRunning_of_failed h) n

/-- A fault is kept just if the machine has failed. -/
def KeepsFault (m : Machine) : Prop := m.fault.isSome ↔ m.status = .failed

namespace KeepsFault

theorem of_none (hf : m.fault = none) (hs : m.status ≠ .failed) : m.KeepsFault := by
  simp [KeepsFault, hf, hs]

theorem fault_eq_none (h : m.KeepsFault) (hs : m.status ≠ .failed) : m.fault = none := by
  simpa using mt h.mp hs

theorem report_eq_error_iff (h : m.KeepsFault) {f : Fault} :
    m.report = .error f ↔ m.FailedWith f := by
  constructor
  · intro hr
    have hs := status_of_report_eq_error hr
    obtain ⟨g, hg⟩ := Option.isSome_iff_exists.mp (h.mpr hs)
    rw [report, hs, hg] at hr
    exact ⟨hs, hg.trans (congrArg some (Except.error.inj hr))⟩
  · exact FailedWith.report_eq

theorem start (h : m.KeepsFault) : m.start.KeepsFault := by
  unfold Machine.start
  split
  · next hs => exact of_none (h.fault_eq_none (by simp [hs])) (by simp)
  · exact h

theorem halt (h : m.KeepsFault) (hr : m.isRunning) :
    KeepsFault { m with status := .halted } :=
  of_none (h.fault_eq_none fun hs => not_isRunning_of_failed hs hr) (by simp)

theorem step (h : m.KeepsFault) (hr : m.isRunning) : m.step.KeepsFault := by
  rcases step_cases m with (⟨items, n, hs⟩ | ⟨items, f, hs⟩) | ⟨-, hs⟩ <;> rw [hs]
  · exact h
  · exact iff_of_true rfl rfl
  · exact h.halt hr

theorem settle (h : m.KeepsFault) : m.settle.KeepsFault := by
  unfold Machine.settle
  split
  · next hs => exact h.halt hs.1
  · exact h

theorem finish (h : m.KeepsFault) : m.finish.KeepsFault := by
  induction m using finish.induct with
  | case1 m hr ih =>
    rw [finish_of_isRunning hr]
    exact ih (h.step hr)
  | case2 m hn => rwa [finish_of_not_isRunning hn]

theorem run_eq_error_iff (h : m.KeepsFault) {f : Fault} :
    m.run.1 = .error f ↔ m.run.2.FailedWith f :=
  Fault.map_eq_error_iff.trans h.start.finish.report_eq_error_iff

end KeepsFault

/-- `P` holds of the machine while it runs, and `A` of its fault if it has failed. -/
structure Within (P : Machine → Prop) (A : Fault → Prop) (m : Machine) : Prop where
  running : m.isRunning → P m
  fault : ∀ f, m.FailedWith f → A f

section Within

variable {P : Machine → Prop} {A : Fault → Prop}

theorem within_fail {f : Fault} (h : A f) (m : Machine) : Within P A (m.fail f) := by
  refine ⟨fun hr => by simp [isRunning, fail] at hr, ?_⟩
  intro g hg
  exact hg.unique (failedWith_fail m f) ▸ h

theorem within_of_halted (h : m.status = .halted) : Within P A m := by
  constructor
  · intro hr
    simp [isRunning, h] at hr
  · intro f hf
    cases h.symm.trans hf.status

theorem within_of_isRunning (hr : m.isRunning) (h : P m) : Within P A m :=
  ⟨fun _ => h, fun _ hf => absurd hr (not_isRunning_of_failed hf.status)⟩

/-- What every step keeps is kept by a whole run. -/
theorem Within.finish (hstep : ∀ m, m.isRunning → P m → Within P A m.step) (h : Within P A m) :
    Within P A m.finish := by
  induction m using finish.induct with
  | case1 m hr ih =>
    rw [finish_of_isRunning hr]
    exact ih (hstep m hr (h.running hr))
  | case2 m hn => rwa [finish_of_not_isRunning hn]

end Within

/-- A running machine at the end of its code halts there. -/
theorem finish_of_size_le (h : m.isRunning) (hip : m.bytecode.code.size ≤ m.ip) :
    m.finish = { m with status := .halted } := by
  rw [finish_of_isRunning h, step_of_size_le hip, finish_of_not_isRunning (by simp [isRunning])]

end Machine

end ByteCalc
