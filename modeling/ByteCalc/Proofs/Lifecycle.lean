import ByteCalc.Proofs.LastInFirstOut
import ByteCalc.Proofs.LineByLine
import ByteCalc.Proofs.Slicing

/-! # The life of a machine

The owner of a machine pushes and pops values and has instructions performed, in
any order. Whatever the code is, the machine stays inside its code and its
stack and keeps a fault just if it has failed. It goes from ready to running and
from there to a halt or a fault, and where it has stopped it stays.
-/

namespace ByteCalc

namespace Fault

theorem category_eq_internalError_iff {f : Fault} :
    f.category = .internalError ↔ f = .faultMissing := by
  cases f <;> simp [category]

/-- The fault lies in the code and not with the user or with the machine itself. -/
def IsOfCode (f : Fault) : Prop := f.category ≠ .interrupted ∧ f.category ≠ .internalError

end Fault

namespace Stack

variable {α : Type} {s : Stack α}

theorem capacity_push (s : Stack α) (a : α) : (s.push a).2.capacity = s.capacity := by
  unfold push
  split <;> rfl

theorem size_push_le (h : s.size ≤ s.capacity) (a : α) : (s.push a).2.size ≤ s.capacity := by
  rcases Nat.lt_or_ge s.size s.capacity with hlt | hge
  · rw [push_of_lt hlt]
    simpa [size] using Nat.succ_le_of_lt hlt
  · rwa [push_of_le hge]

theorem capacity_pop (s : Stack α) : s.pop.2.capacity = s.capacity := by
  unfold pop
  split <;> rfl

theorem size_pop_le (s : Stack α) : s.pop.2.size ≤ s.size := by
  unfold pop
  split
  · simp [size]
  · exact Nat.le_refl _

end Stack

namespace Status

/-- How far along a machine is. -/
def rank : Status → Nat
  | ready => 0
  | running => 1
  | halted | failed => 2

/-- In the order of ready, running and stopped, the second status is not before the first, and a
machine does not stop in two ways. -/
def LeadsTo (s s' : Status) : Prop := s = s' ∨ s.rank < s'.rank

variable {s s' s'' : Status}

theorem LeadsTo.trans (h : s.LeadsTo s') (h' : s'.LeadsTo s'') : s.LeadsTo s'' := by
  rcases h with rfl | h
  · exact h'
  · rcases h' with rfl | h'
    · exact .inr h
    · exact .inr (Nat.lt_trans h h')

theorem leadsTo_running : ready.LeadsTo running := .inr Nat.zero_lt_one

theorem leadsTo_halted : running.LeadsTo halted := .inr Nat.one_lt_two

theorem leadsTo_failed : running.LeadsTo failed := .inr Nat.one_lt_two

end Status

namespace Machine

/-- What the owner of a machine can ask of it. -/
inductive Call where
  | push (v : Val)
  | pop
  | execute (n : Nat)
  | run

/-- What a call gives if it does not fail. -/
inductive Reply where
  | done
  | value (v : Val)
  | event (e : Event)

/-- Whether instructions are performed by a call. -/
def Call.isExecution : Call → Bool
  | execute _ | run => true
  | push _ | pop => false

def call (m : Machine) : Call → Except Fault Reply × Machine
  | .push v => ((m.push v).1.map fun _ => .done, (m.push v).2)
  | .pop => (m.pop.1.map .value, m.pop.2)
  | .execute n => ((m.execute n).1.map .event, (m.execute n).2)
  | .run => (m.run.1.map fun _ => .done, m.run.2)

/-- Make calls one after the other. Gives their results in order. -/
def callAll (m : Machine) : List Call → List (Except Fault Reply) × Machine
  | [] => ([], m)
  | c :: cs =>
    let (result, m) := m.call c
    let (results, m) := m.callAll cs
    (result :: results, m)

/-- The machine at some moment: between two calls, or after some of the instructions that a call
performs. -/
inductive ComesTo (m : Machine) : Machine → Prop where
  | between (cs : List Call) : ComesTo m (m.callAll cs).2
  | during (cs : List Call) (k : Nat) : ComesTo m (advance k (m.callAll cs).2.start)

variable {m m' : Machine} {c : Call} {cs : List Call} {e : Entry} {f : Fault} {n : Nat}

theorem status_of_isRunning (h : m.isRunning) : m.status = .running := by
  simpa [isRunning] using h

theorem callAll_cons (m : Machine) (c : Call) (cs : List Call) :
    m.callAll (c :: cs) = ((m.call c).1 :: ((m.call c).2.callAll cs).1,
      ((m.call c).2.callAll cs).2) := rfl

/-- What is kept by everything that a call is made of. -/
structure Kept (P : Machine → Prop) : Prop where
  push : ∀ m v, P m → P (m.push v).2
  pop : ∀ m, P m → P m.pop.2
  start : ∀ m, P m → P m.start
  step : ∀ m, m.isRunning → P m → P m.step
  settle : ∀ m, P m → P m.settle

namespace Kept

variable {P : Machine → Prop}

theorem advance (hP : Kept P) (h : P m) (n : Nat) : P (advance n m) := by
  induction n generalizing m with
  | zero => exact h
  | succ n ih =>
    unfold Machine.advance
    split
    · next hr => exact ih (hP.step m hr h)
    · exact h

theorem finish (hP : Kept P) (h : P m) : P m.finish := by
  induction m using finish.induct with
  | case1 m hr ih =>
    rw [finish_of_isRunning hr]
    exact ih (hP.step m hr h)
  | case2 m hn => rwa [finish_of_not_isRunning hn]

theorem call (hP : Kept P) (h : P m) (c : Call) : P (m.call c).2 := by
  cases c with
  | push v => exact hP.push m v h
  | pop => exact hP.pop m h
  | execute n => exact hP.settle _ (hP.advance (hP.start m h) n)
  | run => exact hP.finish (hP.start m h)

theorem callAll (hP : Kept P) (h : P m) (cs : List Call) : P (m.callAll cs).2 := by
  induction cs generalizing m with
  | nil => exact h
  | cons c cs ih => exact ih (hP.call h c)

theorem comesTo (hP : Kept P) (h : P m) (hm : m.ComesTo m') : P m' := by
  cases hm with
  | between cs => exact hP.callAll h cs
  | during cs k => exact hP.advance (hP.start _ (hP.callAll h cs)) k

end Kept

/-! ## What one instruction can do -/

theorem Obeys.of_failed (h : m.Obeys e m') (hm : m.isRunning) (hr : ¬ m'.isRunning) :
    ∃ items f, m' = (m.after items 0).fail f ∧ items.size ≤ m.stack.size ∧ f.IsOfCode := by
  cases h with
  | constant hv hlt => exact absurd hm hr
  | add hitems hsum => exact absurd hm hr
  | @noSum items a b f hitems hsum =>
    refine ⟨items, f, rfl, ?_, ?_⟩
    · rw [Stack.size, hitems, Array.size_push, Array.size_push]
      omega
    · rcases a.sum_cases b with ⟨n, hs⟩ | hs | ⟨-, hs⟩ <;> rw [hs] at hsum <;> cases hsum
      · simp [Fault.IsOfCode, Fault.category]
      · simp [Fault.IsOfCode, Fault.category]
  | _ => exact ⟨m.stack.items, _, rfl, Nat.le_refl _, by simp [Fault.IsOfCode, Fault.category]⟩

theorem ahead_eq_nil_iff : m.ahead = [] ↔ m.bytecode.code.size ≤ m.ip := by
  rw [ahead, List.drop_eq_nil_iff, Array.length_toList]

/-- A running machine moves on inside its code, fails where it stands or halts at the end. -/
theorem step_outcomes (hr : m.isRunning) (hroom : m.stack.size ≤ m.stack.capacity) :
    (∃ items n, m.step = m.after items n ∧ items.size ≤ m.stack.capacity ∧
      m.ip + n ≤ m.bytecode.code.size) ∨
    (∃ items f, m.step = (m.after items 0).fail f ∧ items.size ≤ m.stack.size ∧ f.IsOfCode) ∨
    m.bytecode.code.size ≤ m.ip ∧ m.step = { m with status := .halted } := by
  by_cases hnil : m.ahead = []
  · exact .inr (.inr ⟨ahead_eq_nil_iff.mp hnil, step_of_ahead_nil hnil⟩)
  · obtain ⟨e, rest, hheads, -⟩ := Listing.exists_entries_eq_cons hnil
    have hobeys := obeys_step hheads hroom
    by_cases hs : m.step.isRunning
    · obtain ⟨-, items, hstep, hsize⟩ := hobeys.of_isRunning hs hroom
      refine .inl ⟨items, e.width, hstep, hsize, ?_⟩
      have hwidth := hheads.width_le
      rw [ahead_eq_nil_iff] at hnil
      rw [ahead, List.length_drop, Array.length_toList] at hwidth
      omega
    · exact .inr (.inl (hobeys.of_failed hr hs))

theorem ahead_of_getElem? {byte : UInt8} (h : m.bytecode.code[m.ip]? = some byte) :
    ∃ rest, m.ahead = byte :: rest := by
  rw [← Array.getElem?_toList] at h
  obtain ⟨hlt, rfl⟩ := List.getElem?_eq_some_iff.mp h
  exact ⟨_, List.drop_eq_getElem_cons hlt⟩

/-- The result of a sum finds a free slot. -/
theorem fault_of_step_add (hr : m.isRunning) (hroom : m.stack.size ≤ m.stack.capacity)
    (hadd : m.bytecode.code[m.ip]? = some Opcode.add.byte) (hf : m.step.FailedWith f) :
    f.category ≠ .stackOverflow := by
  obtain ⟨rest, hahead⟩ := ahead_of_getElem? hadd
  rcases step_add hahead hroom with ⟨-, hs⟩ | ⟨items, a, b, -, hs⟩ <;> rw [hs] at hf
  · obtain rfl := hf.unique (failedWith_fail _ _)
    simp [Fault.category]
  · rcases a.sum_cases b with ⟨k, hsum⟩ | hsum | ⟨-, hsum⟩ <;> rw [hsum] at hf
    · exact absurd hr (not_isRunning_of_failed hf.status)
    · obtain rfl := hf.unique (failedWith_fail _ _)
      simp [Fault.category]
    · obtain rfl := hf.unique (failedWith_fail _ _)
      simp [Fault.category]

/-! ## Inside the code and the stack -/

/-- A machine for some bytecode with some number of slots, at a place that fits its status. It keeps
a fault just if it has failed. -/
structure Consistent (b : Bytecode) (capacity : Nat) (m : Machine) : Prop where
  bytecode : m.bytecode = b
  capacity_eq : m.stack.capacity = capacity
  ip_le : m.ip ≤ b.code.size
  room : m.stack.size ≤ capacity
  ready : m.status = .ready → m.ip = 0
  halted : m.status = .halted → m.ip = b.code.size
  keepsFault : m.KeepsFault
  isOfCode : ∀ f, m.fault = some f → f.IsOfCode

variable {memory : Memory} {b : Bytecode} {capacity : Nat}

theorem consistent_loaded_of_le (b : Bytecode) {items : Array Val} (h : items.size ≤ capacity) :
    (loaded b capacity items).Consistent b capacity where
  bytecode := rfl
  capacity_eq := rfl
  ip_le := Nat.zero_le _
  room := h
  ready _ := rfl
  halted hs := by cases hs
  keepsFault := keepsFault_loaded b capacity items
  isOfCode f hf := by cases hf

theorem consistent_loaded (b : Bytecode) (capacity : Nat) :
    (loaded b capacity #[]).Consistent b capacity :=
  consistent_loaded_of_le b (Nat.zero_le _)

theorem Consistent.step (hr : m.isRunning) (h : m.Consistent b capacity) :
    m.step.Consistent b capacity := by
  have hkeeps := h.keepsFault.step hr
  obtain ⟨rfl, rfl, hip, hroom, -, -, -, hcode⟩ := h
  have hrun := status_of_isRunning hr
  rcases step_outcomes hr hroom with
    ⟨items, n, hs, hsize, hn⟩ | ⟨items, f, hs, hsize, hf⟩ | ⟨hle, hs⟩ <;> rw [hs] at hkeeps ⊢
  · refine ⟨rfl, rfl, hn, hsize, fun hst => ?_, fun hst => ?_, hkeeps, hcode⟩
    · cases hrun.symm.trans hst
    · cases hrun.symm.trans hst
  · refine ⟨rfl, rfl, hip, Nat.le_trans hsize hroom, by simp [fail], by simp [fail], hkeeps, ?_⟩
    rintro g ⟨⟩
    exact hf
  · exact ⟨rfl, rfl, hip, hroom, by simp, fun _ => Nat.le_antisymm hip hle, hkeeps, hcode⟩

theorem kept_consistent (b : Bytecode) (capacity : Nat) : Kept (Consistent b capacity) where
  push m v h :=
    { h with
      capacity_eq := (m.stack.capacity_push v).trans h.capacity_eq
      room := h.capacity_eq ▸ Stack.size_push_le (h.capacity_eq ▸ h.room) v }
  pop m h :=
    { h with
      capacity_eq := m.stack.capacity_pop.trans h.capacity_eq
      room := Nat.le_trans m.stack.size_pop_le h.room }
  start m h := by
    have hkeeps := h.keepsFault.start
    unfold start at hkeeps ⊢
    split
    · next hs =>
      rw [hs] at hkeeps
      exact { h with ready := by simp, halted := by simp, keepsFault := hkeeps }
    · exact h
  step _ := Consistent.step
  settle m h := by
    unfold settle
    split
    · next hs =>
      have hle : b.code.size ≤ m.ip := h.bytecode ▸ hs.2
      exact { h with
        ready := by simp
        halted := fun _ => Nat.le_antisymm h.ip_le hle
        keepsFault := h.keepsFault.halt hs.1 }
    · exact h

/-! ## From ready to stopped -/

theorem kept_leadsTo (s : Status) : Kept fun m => s.LeadsTo m.status where
  push _ _ h := h
  pop _ h := h
  start m h := by
    unfold start
    split
    · next hr =>
      rw [hr] at h
      exact h.trans Status.leadsTo_running
    · exact h
  step m hr h := by
    rw [status_of_isRunning hr] at h
    rcases step_cases m with (⟨items, n, hs⟩ | ⟨items, f, hs⟩) | ⟨-, hs⟩ <;> rw [hs]
    · exact status_of_isRunning hr ▸ h
    · exact h.trans Status.leadsTo_failed
    · exact h.trans Status.leadsTo_halted
  settle m h := by
    unfold settle
    split
    · next hs =>
      rw [status_of_isRunning hs.1] at h
      exact h.trans Status.leadsTo_halted
    · exact h

/-- Whatever its owner does, the status of a machine does not go back. -/
theorem leadsTo_of_comesTo (h : m.ComesTo m') : m.status.LeadsTo m'.status :=
  (kept_leadsTo m.status).comesTo (.inl rfl) h

theorem execute_of_not_isActive (h : m.isActive = false) (n : Nat) :
    m.execute n = (m.report, m) := by
  have hr := not_isRunning_of_not_isActive h
  rw [execute, start_of_ne_ready (ne_ready_of_not_isActive h), advance_of_not_isRunning hr,
    settle_of_not_isRunning hr]

/-- To have instructions performed gives an outcome and changes nothing. -/
def Repeats (m : Machine) (outcome : Except Fault Event) : Prop :=
  (∀ n, m.execute n = (outcome, m)) ∧ m.run = (outcome.map fun _ => (), m)

theorem kept_stopped (h : m.isActive = false) :
    Kept fun m' => ∃ stack, m' = { m with stack := stack } where
  push := by
    rintro _ v ⟨stack, rfl⟩
    exact ⟨_, rfl⟩
  pop := by
    rintro _ ⟨stack, rfl⟩
    exact ⟨_, rfl⟩
  start := by
    rintro _ ⟨stack, rfl⟩
    exact ⟨stack, start_of_ne_ready (ne_ready_of_not_isActive h)⟩
  step := by
    rintro _ hr ⟨stack, rfl⟩
    exact absurd hr (not_isRunning_of_not_isActive h)
  settle := by
    rintro _ ⟨stack, rfl⟩
    exact ⟨stack, settle_of_not_isRunning (not_isRunning_of_not_isActive h)⟩

/-- Of a machine that has stopped nothing changes but the stack, and that only by its owner. -/
theorem callAll_of_not_isActive (h : m.isActive = false) (cs : List Call) :
    ∃ stack, (m.callAll cs).2 = { m with stack := stack } ∧ (m.callAll cs).2.Repeats m.report := by
  obtain ⟨stack, hstack⟩ := (kept_stopped h).callAll ⟨m.stack, rfl⟩ cs
  refine ⟨stack, hstack, ?_⟩
  rw [hstack]
  exact ⟨execute_of_not_isActive h, run_of_not_isActive h⟩

theorem not_isActive_of_failed (h : m.status = .failed) : m.isActive = false := by
  simp [isActive, isRunning, h]

theorem not_isActive_of_halted (h : m.status = .halted) : m.isActive = false := by
  simp [isActive, isRunning, h]

theorem kept_keepsFault : Kept KeepsFault where
  push _ _ h := h
  pop _ h := h
  start _ h := h.start
  step _ hr h := h.step hr
  settle _ h := h.settle

/-- A machine that has failed or halted stays as it is, but for what its owner does to the stack,
and gives its outcome again whenever instructions are to be performed. At no time does a status go
back. -/
theorem stops_for_good (m : Machine) :
    (∀ f m₁, (∃ n, m.execute n = (.error f, m₁)) ∨ m.run = (.error f, m₁) → ∀ cs,
      (∃ stack, (m₁.callAll cs).2 = { m₁ with stack := stack }) ∧
      (m₁.callAll cs).2.status = .failed ∧ (m.KeepsFault → (m₁.callAll cs).2.FailedWith f) ∧
      (m₁.callAll cs).2.Repeats (.error f)) ∧
    (m.status = .halted → ∀ cs,
      (∃ stack, (m.callAll cs).2 = { m with stack := stack }) ∧
      (m.callAll cs).2.status = .halted ∧ (m.callAll cs).2.Repeats (.ok .halted)) ∧
    ∀ m', m.ComesTo m' → m.status.LeadsTo m'.status := by
  refine ⟨?_, ?_, fun m' => leadsTo_of_comesTo⟩
  · intro f m₁ h cs
    have hm₁ : m₁.report = .error f ∧ (m.KeepsFault → m₁.KeepsFault) := by
      rcases h with ⟨n, h⟩ | h
      · obtain rfl : (m.execute n).2 = m₁ := congrArg Prod.snd h
        exact ⟨congrArg Prod.fst h, fun hm => kept_keepsFault.call hm (.execute n)⟩
      · obtain rfl : m.run.2 = m₁ := congrArg Prod.snd h
        exact ⟨Fault.map_eq_error_iff.mp (congrArg Prod.fst h), fun hm =>
          kept_keepsFault.call hm .run⟩
    have hfailed := status_of_report_eq_error hm₁.1
    obtain ⟨stack, hstack, hrepeats⟩ := callAll_of_not_isActive (not_isActive_of_failed hfailed) cs
    rw [hm₁.1] at hrepeats
    refine ⟨⟨stack, hstack⟩, ?_, fun hm => ?_, hrepeats⟩
    · rw [hstack]
      exact hfailed
    · rw [hstack]
      exact ⟨hfailed, ((hm₁.2 hm).report_eq_error_iff.mp hm₁.1).fault⟩
  · intro hs cs
    obtain ⟨stack, hstack, hrepeats⟩ := callAll_of_not_isActive (not_isActive_of_halted hs) cs
    rw [report, hs] at hrepeats
    refine ⟨⟨stack, hstack⟩, ?_, hrepeats⟩
    rw [hstack]
    exact hs

/-- A sum without operands. Values that are pushed afterwards do not help. -/
theorem stops_for_good_without_operands :
    ∃ m m₁ : Machine, m.execute 1 = (.error .stackEmpty, m₁) ∧
      (m₁.callAll [.push (.integer 1), .push (.integer 2), .execute 1]).2.stack.size = 2 ∧
      (m₁.callAll [.push (.integer 1), .push (.integer 2), .execute 1]).2.Repeats
        (.error .stackEmpty) := by
  have h : (loaded ⟨#[1], #[]⟩ 2 #[]).execute 1 =
      (.error .stackEmpty, ((loaded ⟨#[1], #[]⟩ 2 #[]).execute 1).2) := rfl
  exact ⟨_, _, h, rfl, ((stops_for_good _).1 _ _ (.inl ⟨1, h⟩) _).2.2.2⟩

/-! ## What has happened to a machine -/

theorem failedWith_withStack {stack : Stack Val} :
    FailedWith { m with stack := stack } f ↔ m.FailedWith f :=
  ⟨fun h => ⟨h.status, h.fault⟩, fun h => ⟨h.status, h.fault⟩⟩

theorem call_eq_error_iff (hm : m.KeepsFault) (hc : c.isExecution) :
    (m.call c).1 = .error f ↔ (m.call c).2.FailedWith f := by
  have hkeeps := kept_keepsFault.call hm c
  cases c with
  | push v => cases hc
  | pop => cases hc
  | execute n => exact Fault.map_eq_error_iff.trans hkeeps.report_eq_error_iff
  | run => exact Fault.map_eq_error_iff.trans hm.run_eq_error_iff

theorem call_of_not_isExecution (hc : c.isExecution = false) :
    ∃ stack, (m.call c).2 = { m with stack := stack } := by
  cases c with
  | push v => exact ⟨_, rfl⟩
  | pop => exact ⟨_, rfl⟩
  | execute n => cases hc
  | run => cases hc

theorem failedWith_call_iff (hm : m.KeepsFault) : (m.call c).2.FailedWith f ↔
    m.FailedWith f ∨ c.isExecution ∧ (m.call c).1 = .error f := by
  cases hc : c.isExecution with
  | false =>
    obtain ⟨stack, hstack⟩ := call_of_not_isExecution (m := m) hc
    simp [hstack, failedWith_withStack]
  | true =>
    rw [call_eq_error_iff hm hc]
    constructor
    · intro h
      exact .inr ⟨rfl, h⟩
    · rintro (h | ⟨-, h⟩)
      · obtain ⟨stack, hstack, -⟩ := callAll_of_not_isActive (not_isActive_of_failed h.status) [c]
        have hcall : (m.call c).2 = { m with stack := stack } := hstack
        rw [hcall]
        exact failedWith_withStack.mpr h
      · exact h

/-- A machine has failed with the fault that one of its executions has given. -/
theorem failedWith_callAll_iff (hm : m.KeepsFault) (cs : List Call) (f : Fault) :
    (m.callAll cs).2.FailedWith f ↔ m.FailedWith f ∨
      ∃ c, c.isExecution ∧ (c, .error f) ∈ cs.zip (m.callAll cs).1 := by
  induction cs generalizing m with
  | nil => simp [callAll]
  | cons c cs ih =>
    rw [callAll_cons, ih (kept_keepsFault.call hm c), failedWith_call_iff hm]
    simp only [List.zip_cons_cons, List.mem_cons, Prod.mk.injEq]
    constructor
    · rintro ((h | ⟨hc, h⟩) | ⟨c', hc', h⟩)
      · exact .inl h
      · exact .inr ⟨c, hc, .inl ⟨rfl, h.symm⟩⟩
      · exact .inr ⟨c', hc', .inr h⟩
    · rintro (h | ⟨c', hc', ⟨rfl, h⟩ | h⟩)
      · exact .inl (.inl h)
      · exact .inl (.inr ⟨hc', h.symm⟩)
      · exact .inr ⟨c', hc', h⟩

theorem Consistent.isOfCode_call (hm : m.Consistent b capacity) (h : (m.call c).1 = .error f) :
    f.IsOfCode := by
  cases hc : c.isExecution with
  | true =>
    have hf := (call_eq_error_iff hm.keepsFault hc).mp h
    exact ((kept_consistent b capacity).call hm c).isOfCode f hf.fault
  | false =>
    cases c with
    | push v =>
      have hstack : (m.stack.call (.push v)).1 = .error f :=
        Fault.map_eq_error_iff.mpr (Fault.map_eq_error_iff.mp h)
      simp [Fault.IsOfCode, (m.stack.unchanged_of_error hstack).1, Stack.Call.failure]
    | pop =>
      have hstack : (m.stack.call .pop).1 = .error f :=
        Fault.map_eq_error_iff.mpr (Fault.map_eq_error_iff.mp h)
      simp [Fault.IsOfCode, (m.stack.unchanged_of_error hstack).1, Stack.Call.failure]
    | execute n => cases hc
    | run => cases hc

/-- What a call reports is never that a fault is missing. -/
theorem Consistent.isOfCode_callAll (hm : m.Consistent b capacity)
    (h : .error f ∈ (m.callAll cs).1) : f.IsOfCode := by
  induction cs generalizing m with
  | nil => cases h
  | cons c cs ih =>
    rw [callAll_cons, List.mem_cons] at h
    rcases h with h | h
    · exact hm.isOfCode_call h.symm
    · exact ih ((kept_consistent b capacity).call hm c) h

/-- At every moment a machine stands inside its code and its stack, at the start if it is ready and
at the end if it has halted, and a sum finds a slot for its result. It keeps a fault just if it has
failed, and it has failed just if an execution has, with the fault that it gave. No call finds a
fault missing. Its owner changes nothing but the stack. -/
theorem consistent_at_all_times (hm : loadWith memory capacity b = .ok m) :
    (∀ m', m.ComesTo m' → m'.Consistent b capacity ∧
      (m'.fault.isSome ↔ m'.status = .failed) ∧
      (∀ byte, m'.bytecode.code[m'.ip]? = some byte → m'.ip + 1 ≤ b.code.size) ∧
      (m'.isRunning → m'.bytecode.code[m'.ip]? = some Opcode.add.byte →
        ∀ f, m'.step.FailedWith f → f.category ≠ .stackOverflow) ∧
      (∀ v, ∃ stack, (m'.push v).2 = { m' with stack := stack }) ∧
      ∃ stack, m'.pop.2 = { m' with stack := stack }) ∧
    ∀ cs f,
      ((m.callAll cs).2.FailedWith f ↔
        ∃ c, c.isExecution ∧ (c, .error f) ∈ cs.zip (m.callAll cs).1) ∧
      (.error f ∈ (m.callAll cs).1 → f ≠ .faultMissing ∧ f.category ≠ .internalError) := by
  obtain rfl := loadWith_eq_ok hm
  have hloaded := consistent_loaded b capacity
  constructor
  · intro m' hm'
    have h := (kept_consistent b capacity).comesTo hloaded hm'
    refine ⟨h, h.keepsFault, ?_, ?_, fun v => ⟨_, rfl⟩, _, rfl⟩
    · intro byte hbyte
      rw [h.bytecode] at hbyte
      exact (Array.getElem?_eq_some_iff.mp hbyte).1
    · intro hr hadd f
      exact fault_of_step_add hr (h.capacity_eq ▸ h.room) hadd
  · intro cs f
    constructor
    · rw [failedWith_callAll_iff hloaded.keepsFault, or_iff_right]
      intro h
      cases h.status
    · intro h
      have hne := (hloaded.isOfCode_callAll h).2
      exact ⟨mt Fault.category_eq_internalError_iff.mpr hne, hne⟩

/-- A truth value and a constant that cannot be added, on a stack with two slots. Both are gone
afterwards, and the owner finds the stack empty. -/
theorem consistent_at_all_times_of_mixed_sum :
    ∃ (m : Machine) (cs : List Call), cs.length = 4 ∧
      loadWith .addressSpace 2 ⟨#[0, 0, 0, 1, 7], #[.integer 5]⟩ = .ok m ∧
      (m.callAll cs).2.FailedWith (.operandTypes .boolean .integer) ∧
      (m.callAll cs).2.stack.size = 0 ∧
      (m.callAll cs).2.Consistent ⟨#[0, 0, 0, 1, 7], #[.integer 5]⟩ 2 ∧
      ∃ c, c.isExecution ∧
        (c, .error (.operandTypes .boolean .integer)) ∈ cs.zip (m.callAll cs).1 := by
  have hm : loadWith .addressSpace 2 ⟨#[0, 0, 0, 1, 7], #[.integer 5]⟩ =
      .ok (loaded ⟨#[0, 0, 0, 1, 7], #[.integer 5]⟩ 2 #[]) := rfl
  obtain ⟨hall, hcalls⟩ := consistent_at_all_times hm
  exact ⟨_, [.push (.boolean true), .execute 1, .execute 9, .pop], rfl, hm, ⟨rfl, rfl⟩, rfl,
    (hall _ (.between _)).1, (hcalls _ _).1.mp ⟨rfl, rfl⟩⟩

end Machine

end ByteCalc
