import ByteCalc.Proofs.Lifecycle

/-! # Where a run fails

An instruction is checked before it takes effect, in a fixed order, and the
first check that finds something wrong is the one that is reported. A machine
that fails stands at that instruction with the stack that the instructions before
it have left. Only a sum that fails has already taken its operands away.
-/

namespace ByteCalc

/-- The order in which an instruction is checked. -/
def Category.checkOrder : List Category :=
  [.undefinedOpcode, .malformedBytecode, .constantIndexOutOfRange, .stackOverflow,
    .stackUnderflow, .typeError, .overflow]

/-- The categories of faults that a sum meets after it has taken its operands. -/
def Category.isOfSum : Category → Bool
  | typeError | overflow => true
  | _ => false

theorem Val.sum_eq_error_iff {a b : Val} {f : Fault} : a.sum b = .error f ↔
    (a.kind ≠ .integer ∨ b.kind ≠ .integer) ∧ f = .operandTypes a.kind b.kind ∨
    ∃ x y, a = .integer x ∧ b = .integer y ∧ ¬ Integer.Fits (x.toInt + y.toInt) ∧
      f = .sumRange := by
  cases a with
  | boolean x => simp [sum, kind, eq_comm]
  | integer x =>
    cases b with
    | boolean y => simp [sum, kind, eq_comm]
    | integer y =>
      by_cases hfits : Integer.Fits (x.toInt + y.toInt) <;>
        simp [sum, Integer.add?_eq, kind, hfits, eq_comm]

namespace Machine

/-- The opcode of the next instruction. -/
def StandsAt (m : Machine) (op : Opcode) : Prop := ∃ rest, m.ahead = op.byte :: rest

/-- The two topmost values, the upper one second. -/
def Operands (m : Machine) (a b : Val) : Prop :=
  ∃ items : Array Val, m.stack.items = (items.push a).push b

/-- What is wrong with the next instruction, by the category of the fault. -/
def Meets (m : Machine) : Category → Prop
  | .undefinedOpcode => m.ahead ≠ [] ∧ ∀ op, ¬ m.StandsAt op
  | .malformedBytecode => ∃ rest, m.ahead = Opcode.constant.byte :: rest ∧ rest.length < 2
  | .constantIndexOutOfRange => ∃ hi lo rest, m.ahead = Opcode.constant.byte :: hi :: lo :: rest ∧
    m.bytecode.constants.size ≤ BigEndian.decode [hi, lo]
  | .stackOverflow => m.StandsAt .constant ∧ m.stack.capacity ≤ m.stack.size
  | .stackUnderflow => m.StandsAt .add ∧ m.stack.size < 2
  | .typeError => m.StandsAt .add ∧
    ∃ a b, m.Operands a b ∧ (a.kind ≠ .integer ∨ b.kind ≠ .integer)
  | .overflow => m.StandsAt .add ∧
    ∃ a b, m.Operands (.integer a) (.integer b) ∧ ¬ Integer.Fits (a.toInt + b.toInt)
  | _ => False

/-- The first check in order that finds something wrong. -/
def MeetsFirst (m : Machine) (c : Category) : Prop :=
  m.Meets c ∧ ∀ c', m.Meets c' → Category.checkOrder.idxOf c ≤ Category.checkOrder.idxOf c'

/-- The machine after a fault in comparison with the one before it. -/
structure FailsAs (m m' : Machine) (f : Fault) : Prop where
  ip : m'.ip = m.ip
  first : m.MeetsFirst f.category
  stack : ¬ f.category.isOfSum → m'.stack = m.stack
  operands : f.category.isOfSum → ∃ a b, m.stack.items.toList = m'.stack.items.toList ++ [a, b]

variable {m m' : Machine} {c : Category} {f : Fault} {rest : List UInt8}

theorem standsAt_iff {byte : UInt8} {op : Opcode} (h : m.ahead = byte :: rest) :
    m.StandsAt op ↔ byte = op.byte := by
  simp [StandsAt, h]

theorem meets_constant_iff (h : m.ahead = Opcode.constant.byte :: rest) :
    m.Meets c ↔ c = .malformedBytecode ∧ rest.length < 2 ∨
      c = .constantIndexOutOfRange ∧ (∃ hi lo rest', rest = hi :: lo :: rest' ∧
        m.bytecode.constants.size ≤ BigEndian.decode [hi, lo]) ∨
      c = .stackOverflow ∧ m.stack.capacity ≤ m.stack.size := by
  have hconstant : m.StandsAt .constant := ⟨rest, h⟩
  have hadd : ¬ m.StandsAt .add := by
    rw [standsAt_iff h]
    decide
  cases c <;> simp [Meets, hconstant, hadd, h]
  exact ⟨_, hconstant⟩

theorem meets_add_iff (h : m.ahead = Opcode.add.byte :: rest) :
    m.Meets c ↔ c = .stackUnderflow ∧ m.stack.size < 2 ∨
      c = .typeError ∧ (∃ a b, m.Operands a b ∧ (a.kind ≠ .integer ∨ b.kind ≠ .integer)) ∨
      c = .overflow ∧
        ∃ a b, m.Operands (.integer a) (.integer b) ∧ ¬ Integer.Fits (a.toInt + b.toInt) := by
  have hadd : m.StandsAt .add := ⟨rest, h⟩
  have hconstant : ¬ m.StandsAt .constant := by
    rw [standsAt_iff h]
    decide
  have hne : Opcode.add.byte ≠ Opcode.constant.byte := by decide
  cases c <;> simp [Meets, hconstant, hadd, h, hne]
  exact ⟨_, hadd⟩

theorem meets_undefined_iff {byte : UInt8} (h : m.ahead = byte :: rest)
    (hop : Opcode.ofByte? byte = none) : m.Meets c ↔ c = .undefinedOpcode := by
  have hbyte : ∀ op : Opcode, op.byte ≠ byte := by
    rintro op rfl
    simp at hop
  have hnot : ∀ op, ¬ m.StandsAt op := by
    intro op
    rw [standsAt_iff h]
    exact fun he => hbyte op he.symm
  cases c <;> simp [Meets, hnot, h, (hbyte .constant).symm]

theorem meets_index_iff {k : Nat} (hk : k < BigEndian.limit 2)
    (h : m.ahead = Opcode.constant.byte :: BigEndian.encode 2 k ++ rest) :
    m.Meets c ↔ c = .constantIndexOutOfRange ∧ m.bytecode.constants[k]? = none ∨
      c = .stackOverflow ∧ m.stack.capacity ≤ m.stack.size := by
  have hindex : BigEndian.decode (BigEndian.encode 2 k) = k := by
    rw [BigEndian.decode_encode, Nat.mod_eq_of_lt hk]
  have hbytes : BigEndian.encode 2 k = [UInt8.ofNat (k / 256), UInt8.ofNat k] := rfl
  rw [List.cons_append] at h
  rw [hbytes] at h hindex
  rw [meets_constant_iff h]
  simp [hindex]

theorem Meets.ahead_ne_nil (h : m.Meets c) : m.ahead ≠ [] := by
  intro hnil
  cases c <;> simp [Meets, StandsAt, hnil] at h

theorem Operands.unique {a b a' b' : Val} (h : m.Operands a b) (h' : m.Operands a' b') :
    a = a' ∧ b = b' := by
  obtain ⟨items, hi⟩ := h
  obtain ⟨items', hi'⟩ := h'
  rw [hi, Array.push_eq_push, Array.push_eq_push] at hi'
  exact ⟨hi'.2.1, hi'.1⟩

theorem Operands.two_le_size {a b : Val} (h : m.Operands a b) : 2 ≤ m.stack.size := by
  obtain ⟨items, hi⟩ := h
  rw [Stack.size, hi, Array.size_push, Array.size_push]
  omega

theorem meetsFirst_of_sum {a b : Val} (h : m.ahead = Opcode.add.byte :: rest)
    (hab : m.Operands a b) (hsum : a.sum b = .error f) :
    m.MeetsFirst f.category ∧ f.category.isOfSum := by
  rcases Val.sum_eq_error_iff.mp hsum with ⟨hkind, rfl⟩ | ⟨x, y, rfl, rfl, hfits, rfl⟩
  · have hfirst : m.MeetsFirst .typeError := by
      refine ⟨(meets_add_iff h).mpr (.inr (.inl ⟨rfl, a, b, hab, hkind⟩)), fun c' hc' => ?_⟩
      rcases (meets_add_iff h).mp hc' with ⟨-, hlt⟩ | ⟨rfl, -⟩ | ⟨rfl, -⟩
      · exact absurd hab.two_le_size (Nat.not_le_of_lt hlt)
      · decide
      · decide
    exact ⟨hfirst, rfl⟩
  · have hfirst : m.MeetsFirst .overflow := by
      refine ⟨(meets_add_iff h).mpr (.inr (.inr ⟨rfl, x, y, hab, hfits⟩)), fun c' hc' => ?_⟩
      rcases (meets_add_iff h).mp hc' with ⟨-, hlt⟩ | ⟨-, a', b', hab', hkind⟩ | ⟨rfl, -⟩
      · exact absurd hab.two_le_size (Nat.not_le_of_lt hlt)
      · obtain ⟨rfl, rfl⟩ := hab.unique hab'
        simp [Val.kind] at hkind
      · decide
    exact ⟨hfirst, rfl⟩

theorem not_meets_of_sum {a b v : Val} (h : m.ahead = Opcode.add.byte :: rest)
    (hab : m.Operands a b) (hsum : a.sum b = .ok v) : ¬ m.Meets c := by
  intro hc
  have hne (f : Fault) : a.sum b ≠ .error f := by simp [hsum]
  rcases (meets_add_iff h).mp hc with ⟨-, hlt⟩ | ⟨-, a', b', hab', hkind⟩ | ⟨-, x, y, hab', hfits⟩
  · exact Nat.not_le_of_lt hlt hab.two_le_size
  · obtain ⟨rfl, rfl⟩ := hab.unique hab'
    exact hne _ (Val.sum_eq_error_iff.mpr (.inl ⟨hkind, rfl⟩))
  · obtain ⟨rfl, rfl⟩ := hab.unique hab'
    exact hne _ (Val.sum_eq_error_iff.mpr (.inr ⟨x, y, rfl, rfl, hfits, rfl⟩))

theorem failsAs_fail (h : m.MeetsFirst f.category) (hf : ¬ f.category.isOfSum) :
    m.FailsAs (m.fail f) f :=
  ⟨rfl, h, fun _ => rfl, fun hs => absurd hs hf⟩

/-- An instruction fails just if one of the checks finds something wrong. -/
theorem Obeys.fails_or_not_meets {e : Entry} (hheads : e.Heads m.ahead rest) (h : m.Obeys e m') :
    (∃ f, m'.FailedWith f ∧ m.FailsAs m' f) ∨ m'.status = m.status ∧ ∀ c, ¬ m.Meets c := by
  generalize hahead : m.ahead = code at hheads
  cases h with
  | constant hv hlt =>
    cases hheads with | constant hk =>
    refine .inr ⟨rfl, fun c hc => ?_⟩
    rcases (meets_index_iff hk hahead).mp hc with ⟨-, hn⟩ | ⟨-, hfull⟩
    · rw [hv] at hn
      cases hn
    · exact Nat.not_le_of_lt hlt hfull
  | noConstant hv =>
    cases hheads with | constant hk =>
    have hfirst : m.MeetsFirst .constantIndexOutOfRange := by
      refine ⟨(meets_index_iff hk hahead).mpr (.inl ⟨rfl, hv⟩), fun c hc => ?_⟩
      rcases (meets_index_iff hk hahead).mp hc with ⟨rfl, -⟩ | ⟨rfl, -⟩ <;> decide
    exact .inl ⟨_, failedWith_fail m _, failsAs_fail hfirst Bool.false_ne_true⟩
  | noSlot hv hfull =>
    cases hheads with | constant hk =>
    have hfirst : m.MeetsFirst .stackOverflow := by
      refine ⟨(meets_index_iff hk hahead).mpr (.inr ⟨rfl, hfull⟩), fun c hc => ?_⟩
      rcases (meets_index_iff hk hahead).mp hc with ⟨-, hn⟩ | ⟨rfl, -⟩
      · rw [hv] at hn
        cases hn
      · decide
    exact .inl ⟨_, failedWith_fail m _, failsAs_fail hfirst Bool.false_ne_true⟩
  | add hitems hsum =>
    cases hheads with | add =>
    exact .inr ⟨rfl, fun c => not_meets_of_sum hahead ⟨_, hitems⟩ hsum⟩
  | noOperands hlt =>
    cases hheads with | add =>
    have hfirst : m.MeetsFirst .stackUnderflow := by
      refine ⟨(meets_add_iff hahead).mpr (.inl ⟨rfl, hlt⟩), fun c hc => ?_⟩
      rcases (meets_add_iff hahead).mp hc with ⟨rfl, -⟩ | ⟨rfl, -⟩ | ⟨rfl, -⟩ <;> decide
    exact .inl ⟨_, failedWith_fail m _, failsAs_fail hfirst Bool.false_ne_true⟩
  | @noSum items a b f hitems hsum =>
    cases hheads with | add =>
    obtain ⟨hfirst, hcategory⟩ := meetsFirst_of_sum hahead ⟨items, hitems⟩ hsum
    refine .inl ⟨f, failedWith_fail _ f, rfl, hfirst, fun hn => absurd hcategory hn,
      fun _ => ⟨a, b, ?_⟩⟩
    rw [hitems]
    simp [fail]
  | undefined =>
    cases hheads with | undefined hop =>
    have hfirst : m.MeetsFirst .undefinedOpcode :=
      ⟨(meets_undefined_iff hahead hop).mpr rfl, fun c hc => Nat.zero_le _⟩
    exact .inl ⟨_, failedWith_fail m _, failsAs_fail hfirst Bool.false_ne_true⟩
  | truncated =>
    cases hheads with | truncated hlt =>
    have hfirst : m.MeetsFirst .malformedBytecode := by
      refine ⟨(meets_constant_iff hahead).mpr (.inl ⟨rfl, hlt⟩), fun c hc => ?_⟩
      rcases (meets_constant_iff hahead).mp hc with ⟨rfl, -⟩ | ⟨rfl, -⟩ | ⟨rfl, -⟩ <;> decide
    exact .inl ⟨_, failedWith_fail m _, failsAs_fail hfirst Bool.false_ne_true⟩

/-- A step of a running machine fails just if one of the checks finds something wrong. -/
theorem fails_step_or_not_meets (hr : m.isRunning) (hroom : m.stack.size ≤ m.stack.capacity) :
    (∃ f, m.step.FailedWith f ∧ m.FailsAs m.step f) ∨
      m.step.status ≠ .failed ∧ ∀ c, ¬ m.Meets c := by
  by_cases hnil : m.ahead = []
  · refine .inr ⟨?_, fun c hc => hc.ahead_ne_nil hnil⟩
    rw [step_of_ahead_nil hnil]
    simp
  · obtain ⟨e, rest, hheads, -⟩ := Listing.exists_entries_eq_cons hnil
    refine ((obeys_step hheads hroom).fails_or_not_meets hheads).imp_right ?_
    rintro ⟨hstatus, hmeets⟩
    refine ⟨fun hf => ?_, hmeets⟩
    rw [hstatus] at hf
    exact not_isRunning_of_failed hf hr

/-! ## Runs -/

variable {memory : Memory} {b : Bytecode} {capacity : Nat} {σ : List Val}

theorem Consistent.advance_start (h : m.Consistent b capacity) (k : Nat) :
    (advance k m.start).Consistent b capacity :=
  (kept_consistent b capacity).advance ((kept_consistent b capacity).start m h) k

theorem failsAs_run (hm : m.Consistent b capacity) (hr : m.start.isRunning)
    (hf : m.run.1 = .error f) : ∃ k, (∀ j, m.Reaches j ↔ j ≤ k) ∧
      (advance k m.start).bytecode = b ∧ (advance k m.start).FailsAs m.run.2 f := by
  obtain ⟨k, hk, hs, hfinish⟩ := exists_last_step hr
  have hc := hm.advance_start k
  refine ⟨k, isRunning_advance_iff hk hs, hc.bytecode, ?_⟩
  have hrun : m.run.2 = (advance k m.start).step := hfinish
  have hfailed := hm.keepsFault.run_eq_error_iff.mp hf
  rw [hrun] at hfailed ⊢
  rcases fails_step_or_not_meets hk (hc.capacity_eq ▸ hc.room) with ⟨g, hg, hfails⟩ | ⟨hnot, -⟩
  · obtain rfl := hfailed.unique hg
    exact hfails
  · exact absurd hfailed.status hnot

theorem run_eq_error_of_meets {k : Nat} (hm : m.Consistent b capacity) (hk : m.Reaches k)
    (h : (advance k m.start).Meets c) : ∃ f, m.run.1 = .error f := by
  have hc := hm.advance_start k
  rcases fails_step_or_not_meets hk (hc.capacity_eq ▸ hc.room) with ⟨f, hf, -⟩ | ⟨-, hnot⟩
  · refine ⟨f, hm.keepsFault.run_eq_error_iff.mpr ?_⟩
    have hrun : m.run.2 = (advance k m.start).step := by
      rw [run, ← finish_advance k, finish_of_isRunning hk,
        finish_of_not_isRunning (not_isRunning_of_failed hf.status)]
    rwa [hrun]
  · exact absurd h (hnot c)

theorem pushAll_of_loadWith (hm : loadWith memory capacity b = .ok m) (hσ : σ.length ≤ capacity) :
    m.pushAll σ = .ok (loaded b capacity σ.toArray) := by
  obtain rfl := loadWith_eq_ok hm
  simpa using pushAll_loaded b #[] σ (by simpa using hσ)

/-- A run fails just if it comes to an instruction with which something is wrong. It then has
performed `k` instructions and fails at the next one for the first reason in order. The machine
still stands there, with the same stack, unless a sum has taken its two operands from the top. -/
theorem run_fails_at_first_check (hm : loadWith memory capacity b = .ok m)
    (hσ : σ.length ≤ capacity) :
    ∃ m₀, m.pushAll σ = .ok m₀ ∧
      (∀ f, m₀.run.1 = .error f → ∃ k, (∀ j, m₀.Reaches j ↔ j ≤ k) ∧
        (advance k m₀.start).bytecode = b ∧ (advance k m₀.start).FailsAs m₀.run.2 f) ∧
      ((∃ f, m₀.run.1 = .error f) ↔ ∃ k c, m₀.Reaches k ∧ (advance k m₀.start).Meets c) := by
  have hc : (loaded b capacity σ.toArray).Consistent b capacity :=
    consistent_loaded_of_le b (by simpa using hσ)
  refine ⟨_, pushAll_of_loadWith hm hσ, fun f => failsAs_run hc rfl, ?_, ?_⟩
  · rintro ⟨f, hf⟩
    obtain ⟨k, hk, -, hfails⟩ := failsAs_run hc rfl hf
    exact ⟨k, f.category, (hk k).mpr le_rfl, hfails.first.1⟩
  · rintro ⟨k, c, hk, h⟩
    exact run_eq_error_of_meets hc hk h

/-- A truth value on the stack and a constant above it cannot be added. Both are taken away. -/
theorem run_fails_at_first_check_of_mixed_sum :
    ∃ m m₀ f, loadWith .addressSpace 2 ⟨#[0, 0, 0, 1, 7], #[.integer 5]⟩ = .ok m ∧
      m.pushAll [.boolean true] = .ok m₀ ∧ m₀.run.1 = .error f ∧
      (advance 1 m₀.start).Meets .typeError ∧ (advance 1 m₀.start).FailsAs m₀.run.2 f := by
  have hm : loadWith .addressSpace 2 ⟨#[0, 0, 0, 1, 7], #[.integer 5]⟩ =
      .ok (loaded ⟨#[0, 0, 0, 1, 7], #[.integer 5]⟩ 2 #[]) := rfl
  have hpush : (loaded ⟨#[0, 0, 0, 1, 7], #[.integer 5]⟩ 2 #[]).pushAll [.boolean true] =
      .ok (loaded ⟨#[0, 0, 0, 1, 7], #[.integer 5]⟩ 2 #[.boolean true]) := rfl
  obtain ⟨m₀, hm₀, hfault, hiff⟩ := run_fails_at_first_check (σ := [.boolean true]) hm (by decide)
  obtain rfl := Except.ok.inj (hpush.symm.trans hm₀)
  have hreach : (loaded ⟨#[0, 0, 0, 1, 7], #[.integer 5]⟩ 2 #[.boolean true]).Reaches 1 := rfl
  have hmeets : (advance 1 (loaded ⟨#[0, 0, 0, 1, 7], #[.integer 5]⟩ 2
      #[.boolean true]).start).Meets .typeError :=
    ⟨⟨[7], rfl⟩, .boolean true, .integer 5, ⟨#[], rfl⟩, .inl (by decide)⟩
  obtain ⟨f, hf⟩ := hiff.mpr ⟨1, _, hreach, hmeets⟩
  obtain ⟨k, hk, -, hfails⟩ := hfault f hf
  have hstop : ¬ (loaded ⟨#[0, 0, 0, 1, 7], #[.integer 5]⟩ 2 #[.boolean true]).Reaches 2 :=
    Bool.false_ne_true
  rw [hk] at hreach hstop
  obtain rfl : k = 1 := by omega
  exact ⟨_, _, f, hm, hpush, hf, hmeets, hfails⟩

end Machine

end ByteCalc
