import ByteCalc.Proofs.RunFaults
import ByteCalc.Proofs.Sums

/-! # How many slots a run needs

The number of slots is looked at only where a constant is pushed. So a machine
with more slots does what one with fewer does, unless the latter overflows.
Compiled code overflows just if there are fewer slots than its program needs.
-/

namespace ByteCalc

namespace Machine

/-- The machine with another number of slots. -/
def withCapacity (capacity : Nat) (m : Machine) : Machine :=
  { m with stack := { m.stack with capacity := capacity } }

variable {memory : Memory} {m m' m₁ m₂ : Machine} {e : Entry} {b : Bytecode}
  {capacity capacity' : Nat} {f : Fault}

/-! ## More slots -/

/-- An entry and a machine leave no choice. -/
theorem Obeys.unique (h₁ : m.Obeys e m₁) (h₂ : m.Obeys e m₂) : m₁ = m₂ := by
  cases h₁ <;> cases h₂ <;> grind [Stack.size, Array.push_eq_push]

/-- What an instruction does without an overflow it also does with more slots. -/
theorem Obeys.withCapacity (h : m.Obeys e m') (hle : m.stack.capacity ≤ capacity)
    (hf : ∀ f, m'.FailedWith f → f.category ≠ .stackOverflow) :
    (m.withCapacity capacity).Obeys e (m'.withCapacity capacity) := by
  cases h with
  | constant hv hlt => exact .constant hv (Nat.lt_of_lt_of_le hlt hle)
  | noConstant hv => exact .noConstant hv
  | noSlot hv hfull => exact absurd rfl (hf _ (failedWith_fail m _))
  | add hitems hsum => exact .add hitems hsum
  | noOperands hlt => exact .noOperands hlt
  | noSum hitems hsum => exact .noSum hitems hsum
  | undefined => exact .undefined
  | truncated => exact .truncated

theorem step_withCapacity (hroom : m.stack.size ≤ m.stack.capacity)
    (hle : m.stack.capacity ≤ capacity)
    (hf : ∀ f, m.step.FailedWith f → f.category ≠ .stackOverflow) :
    (m.withCapacity capacity).step = m.step.withCapacity capacity := by
  by_cases hnil : m.ahead = []
  · rw [step_of_ahead_nil hnil]
    exact step_of_ahead_nil hnil
  · obtain ⟨e, rest, hheads, -⟩ := Listing.exists_entries_eq_cons hnil
    have hstep := (obeys_step hheads hroom).withCapacity hle hf
    exact (obeys_step (m := m.withCapacity capacity) hheads (hroom.trans hle)).unique hstep

/-- A run that does not overflow is the same with more slots. -/
theorem finish_withCapacity (hle : capacity ≤ capacity') (hm : m.Consistent b capacity)
    (hf : ∀ f, m.finish.FailedWith f → f.category ≠ .stackOverflow) :
    (m.withCapacity capacity').finish = m.finish.withCapacity capacity' := by
  induction m using finish.induct with
  | case1 m hr ih =>
    rw [finish_of_isRunning hr] at hf ⊢
    have hstep : (m.withCapacity capacity').step = m.step.withCapacity capacity' := by
      refine step_withCapacity (hm.capacity_eq ▸ hm.room) (hm.capacity_eq ▸ hle) fun f hs => ?_
      -- a machine that fails in this step has come to its end
      refine hf f ?_
      rwa [finish_of_not_isRunning (not_isRunning_of_failed hs.status)]
    rw [finish_of_isRunning (m := m.withCapacity capacity') hr, hstep]
    exact ih (hm.step hr) hf
  | case2 m hn =>
    rw [finish_of_not_isRunning hn]
    exact finish_of_not_isRunning hn

/-- A machine that overflows stands at a constant that it could push if there were a slot. -/
theorem FailsAs.of_stackOverflow (h : m.FailsAs m' f) (hf : f.category = .stackOverflow) :
    m'.stack = m.stack ∧ m.stack.capacity ≤ m.stack.size ∧
      ∃ index rest, (Entry.instruction .constant [index]).Heads m.ahead rest ∧
        index < m.bytecode.constants.size := by
  obtain ⟨hmeets, hfirst⟩ := h.first
  rw [hf] at hmeets hfirst
  obtain ⟨⟨rest, hahead⟩, hfull⟩ := hmeets
  refine ⟨h.stack (by simp [hf, Category.isOfSum]), hfull, ?_⟩
  have hwhole : 2 ≤ rest.length := by
    by_contra hlt
    exact absurd (hfirst .malformedBytecode ⟨rest, hahead, by omega⟩) (by decide)
  obtain ⟨index, rest', hk, rfl⟩ := Entry.exists_encode_append_of_length_le hwhole
  refine ⟨index, rest', hahead ▸ .constant hk, ?_⟩
  by_contra hge
  have hindex := (meets_index_iff (c := .constantIndexOutOfRange) hk hahead).mpr
    (.inl ⟨rfl, Array.getElem?_eq_none (Nat.le_of_not_lt hge)⟩)
  exact absurd (hfirst _ hindex) (by decide)

/-- A run that does not overflow comes to the same end with more slots, except for their number. A
run that overflows has filled all slots and stands at an instruction that pushes a constant which
exists. -/
theorem run_with_more_slots (hm : loadWith memory capacity b = .ok m) :
    (∀ memory' capacity' m', capacity ≤ capacity' → loadWith memory' capacity' b = .ok m' →
      (∀ f, m.run.1 = .error f → f.category ≠ .stackOverflow) →
      m'.run.1 = m.run.1 ∧ m'.run.2 = m.run.2.withCapacity capacity') ∧
    ∀ f, m.run.1 = .error f → f.category = .stackOverflow →
      m.run.2.stack.size = capacity ∧
      ∃ index rest, (Entry.instruction .constant [index]).Heads m.run.2.ahead rest ∧
        index < b.constants.size := by
  obtain rfl := loadWith_eq_ok hm
  have hc := consistent_loaded b capacity
  constructor
  · intro memory' capacity' m' hle hm' hf
    obtain rfl := loadWith_eq_ok hm'
    have hfinish := finish_withCapacity hle ((kept_consistent b capacity).start _ hc)
      fun f hs => hf f (hc.keepsFault.run_eq_error_iff.mpr hs)
    exact ⟨congrArg (fun m => m.report.map fun _ => ()) hfinish, hfinish⟩
  · intro f hf hcategory
    obtain ⟨k, -, hbytecode, hfails⟩ := failsAs_run hc rfl hf
    obtain ⟨hstack, hfull, index, rest, hheads, hindex⟩ := hfails.of_stackOverflow hcategory
    have hk := hc.advance_start k
    have hrun : (loaded b capacity #[]).run.2.Consistent b capacity :=
      (kept_consistent b capacity).call hc .run
    have hahead : (loaded b capacity #[]).run.2.ahead =
        (advance k (loaded b capacity #[]).start).ahead := by
      rw [ahead, ahead, hrun.bytecode, hk.bytecode, hfails.ip]
    rw [hk.capacity_eq] at hfull
    rw [hbytecode] at hindex
    rw [hstack, hahead]
    exact ⟨Nat.le_antisymm hk.room hfull, index, rest, hheads, hindex⟩

/-- Two constants that cannot be added. With two slots the sum fails, and so it does with nine. With
one slot the second constant finds no room. -/
theorem run_with_more_slots_of_mixed_sum :
    ∃ m m' m₁,
      loadWith .addressSpace 2 ⟨#[0, 0, 0, 0, 0, 1, 1], #[.integer 5, .boolean true]⟩ = .ok m ∧
      loadWith .addressSpace 9 ⟨#[0, 0, 0, 0, 0, 1, 1], #[.integer 5, .boolean true]⟩ = .ok m' ∧
      loadWith .addressSpace 1 ⟨#[0, 0, 0, 0, 0, 1, 1], #[.integer 5, .boolean true]⟩ = .ok m₁ ∧
      m.run.1 = .error (.operandTypes .integer .boolean) ∧ m'.run.1 = m.run.1 ∧
      m'.run.2 = m.run.2.withCapacity 9 ∧ m₁.run.1 = .error .operandStackFull ∧
      m₁.run.2.stack.size = 1 ∧
      ∃ index rest, (Entry.instruction .constant [index]).Heads m₁.run.2.ahead rest := by
  have hm {capacity : Nat} (h : Memory.addressSpace.grants capacity) :
      loadWith .addressSpace capacity ⟨#[0, 0, 0, 0, 0, 1, 1], #[.integer 5, .boolean true]⟩ =
        .ok (loaded ⟨#[0, 0, 0, 0, 0, 1, 1], #[.integer 5, .boolean true]⟩ capacity #[]) :=
    loadWith_eq_ok_iff.mpr ⟨h, rfl⟩
  have h₁ : Memory.addressSpace.grants 1 := rfl
  have h₂ : Memory.addressSpace.grants 2 := rfl
  have h₉ : Memory.addressSpace.grants 9 := rfl
  have hsum : (loaded ⟨#[0, 0, 0, 0, 0, 1, 1], #[.integer 5, .boolean true]⟩ 2 #[]).run.1 =
      .error (.operandTypes .integer .boolean) := by
    rw [run, finish_of_isRunning rfl, finish_of_isRunning rfl, finish_of_isRunning rfl,
      finish_of_not_isRunning (by decide)]
    rfl
  have hfull : (loaded ⟨#[0, 0, 0, 0, 0, 1, 1], #[.integer 5, .boolean true]⟩ 1 #[]).run.1 =
      .error .operandStackFull := by
    rw [run, finish_of_isRunning rfl, finish_of_isRunning rfl, finish_of_not_isRunning (by decide)]
    rfl
  obtain ⟨hmore, -⟩ := run_with_more_slots (hm h₂)
  obtain ⟨-, hover⟩ := run_with_more_slots (hm h₁)
  obtain ⟨hfst, hsnd⟩ := hmore _ 9 _ (by decide) (hm h₉) (by simp [hsum, Fault.category])
  obtain ⟨hsize, index, rest, hheads, -⟩ := hover _ hfull rfl
  exact ⟨_, _, _, hm h₂, hm h₉, hm h₁, hsum, hfst, hsnd, hfull, hsize, index, rest, hheads⟩

end Machine

/-! ## As many slots as a program needs -/

namespace Expr

/-- A sum of `n` literals in which every left operand is a sum again. -/
inductive LeftChain : Nat → Expr → Prop where
  | literal {s : Span} {k : Int64} : LeftChain 1 (literal s k)
  | binary {n : Nat} {s s' : Span} {op : Operator} {l : Expr} {k : Int64} :
    LeftChain n l → LeftChain (n + 1) (binary s op l (.literal s' k))

/-- A sum of `n` literals in which every right operand is a sum again. -/
inductive RightChain : Nat → Expr → Prop where
  | literal {s : Span} {k : Int64} : RightChain 1 (literal s k)
  | binary {n : Nat} {s s' : Span} {op : Operator} {r : Expr} {k : Int64} :
    RightChain n r → RightChain (n + 1) (binary s op (.literal s' k) r)

variable {n : Nat} {e : Expr}

theorem need_pos (e : Expr) : 0 < e.need := by
  cases e <;> simp only [need] <;> omega

theorem LeftChain.need_eq (h : e.LeftChain n) : e.need = min n 2 := by
  induction h with
  | literal => rfl
  | @binary _ _ _ _ l _ _ ih =>
    have := l.need_pos
    simp only [need]
    omega

theorem RightChain.need_eq (h : e.RightChain n) : e.need = n := by
  induction h with
  | literal => rfl
  | @binary _ _ _ _ r _ _ ih =>
    have := r.need_pos
    simp only [need]
    omega

end Expr

/-- The slots that statements take above `depth` others. -/
def Statement.needAbove (depth : Nat) (ss : List Statement) : Nat :=
  (ss.mapIdx fun i s => depth + i + s.expr.need).foldr max 0

namespace Statement

variable {capacity depth : Nat} {s : Statement} {ss : List Statement}

theorem needAbove_cons (depth : Nat) (s : Statement) (ss : List Statement) :
    needAbove depth (s :: ss) = max (depth + s.expr.need) (needAbove (depth + 1) ss) := by
  have hshift : (fun i (s : Statement) => depth + (i + 1) + s.expr.need) =
      fun i s => depth + 1 + i + s.expr.need := by
    funext i s
    omega
  rw [needAbove, List.mapIdx_cons, List.foldr_cons, hshift]
  rfl

theorem values_of_summable (h : ∀ s ∈ ss, ∀ e ∈ s.expr.postorder, e.Summable) :
    values capacity depth ss = if needAbove depth ss ≤ capacity
      then .ok (ss.map fun s => .ofInt s.expr.total) else .error .operandStackFull := by
  induction ss generalizing depth with
  | nil => exact (if_pos (Nat.zero_le _)).symm
  | cons s ss ih =>
    obtain ⟨hs, hss⟩ := List.forall_mem_cons.mp h
    rw [needAbove_cons, if_congr max_le_iff rfl rfl]
    by_cases hs' : depth + s.expr.need ≤ capacity
    · have hv := (Expr.value_of_summable hs).trans (if_pos hs')
      by_cases hss' : needAbove (depth + 1) ss ≤ capacity
      · rw [if_pos ⟨hs', hss'⟩]
        exact values_cons_eq_ok_iff.mpr ⟨_, _, hv, (ih hss).trans (if_pos hss'), rfl⟩
      · rw [if_neg fun h => hss' h.2]
        exact values_cons_eq_error_iff.mpr (.inr ⟨_, hv, (ih hss).trans (if_neg hss')⟩)
    · rw [if_neg fun h => hs' h.1]
      exact values_cons_eq_error_iff.mpr (.inl ((Expr.value_of_summable hs).trans (if_neg hs')))

end Statement

theorem Program.need_eq (p : Program) : p.need = Statement.needAbove 0 p.statements := by
  simp only [need, Statement.needAbove, Nat.zero_add]

namespace Machine

variable {memory : Memory} {m : Machine} {p : Program} {b : Bytecode} {capacity : Nat}

theorem run_eq_of_summable (hb : p.compile = .ok b) (hp : ∀ e ∈ p.nodes, Integer.Fits e.total)
    (hm : loadWith memory capacity b = .ok m) :
    m.run.1 = if p.need ≤ capacity then .ok () else .error .operandStackFull := by
  obtain ⟨hs, hk, rfl⟩ := Program.compile_eq_ok_iff.mp hb
  obtain rfl := loadWith_eq_ok hm
  have hsummable : ∀ s ∈ p.statements, ∀ e ∈ s.expr.postorder, e.Summable := by
    intro s hmem e he
    have hnode : e ∈ p.nodes := List.mem_flatMap.mpr ⟨s, hmem, he⟩
    exact ⟨hs e hnode, hp e hnode⟩
  have hvalues : Statement.values capacity 0 p.statements = if p.need ≤ capacity
      then .ok (p.statements.map fun s => .ofInt s.expr.total) else .error .operandStackFull := by
    rw [p.need_eq]
    exact Statement.values_of_summable hsummable
  by_cases hroom : p.need ≤ capacity
  · rw [if_pos hroom] at hvalues ⊢
    rw [run_loaded_of_ok hk hvalues]
  · rw [if_neg hroom] at hvalues ⊢
    exact (run_loaded_of_error hs hk hvalues).1

/-- A compiled program all of whose sums fit runs to its end with as many slots as it needs and
overflows with fewer. Literals that are added up from the left never need more than two, those that
are added up from the right need a slot each. -/
theorem run_compile_needs (hb : p.compile = .ok b) (hp : ∀ e ∈ p.nodes, Integer.Fits e.total) :
    (∀ memory capacity, memory.grants capacity → ∃ m, loadWith memory capacity b = .ok m ∧
      (p.need ≤ capacity → m.run.1 = .ok ()) ∧
      (capacity < p.need → ∃ f, m.run.1 = .error f ∧ f.category = .stackOverflow)) ∧
    ∀ s n, p.statements = [s] →
      (s.expr.LeftChain n → p.need = min n 2) ∧ (s.expr.RightChain n → p.need = n) := by
  constructor
  · intro memory capacity hgrants
    have hm : loadWith memory capacity b = .ok (loaded b capacity #[]) :=
      loadWith_eq_ok_iff.mpr ⟨hgrants, rfl⟩
    refine ⟨_, hm, ?_⟩
    rw [run_eq_of_summable hb hp hm]
    exact ⟨fun hle => if_pos hle, fun hlt => ⟨_, if_neg (Nat.not_le_of_lt hlt), rfl⟩⟩
  · intro s n hs
    have hneed : p.need = s.expr.need := by
      simp [Program.need, hs]
    rw [hneed]
    exact ⟨Expr.LeftChain.need_eq, Expr.RightChain.need_eq⟩

/-- Three slots are enough for `-1 + (2 + 3)`, and two are not. -/
theorem run_compile_needs_from_right :
    ∃ (p : Program) (b : Bytecode) (m m' : Machine) (f : Fault), p.compile = .ok b ∧
      p.need = 3 ∧ loadWith .addressSpace 3 b = .ok m ∧ m.run.1 = .ok () ∧
      loadWith .addressSpace 2 b = .ok m' ∧ m'.run.1 = .error f ∧ f.category = .stackOverflow := by
  let p : Program := ⟨[.ofExpr (.join .plus (.literal ⟨0, 2⟩ (-1))
    (.join .plus (.literal ⟨6, 7⟩ 2) (.literal ⟨10, 11⟩ 3)))]⟩
  have hb : p.compile = .ok ⟨#[0, 0, 0, 0, 0, 1, 0, 0, 2, 1, 1],
      #[.integer (-1), .integer 2, .integer 3]⟩ := rfl
  obtain ⟨hrun, hchain⟩ := run_compile_needs hb (by decide)
  obtain ⟨m, hm, hok, -⟩ := hrun .addressSpace 3 rfl
  obtain ⟨m', hm', -, hover⟩ := hrun .addressSpace 2 rfl
  have hneed : p.need = 3 := (hchain _ 3 rfl).2 (.binary (.binary .literal))
  obtain ⟨f, hf, hcategory⟩ := hover (by rw [hneed]; decide)
  exact ⟨p, _, m, m', f, hb, hneed, hm, hok hneed.le, hm', hf, hcategory⟩

end Machine

end ByteCalc
