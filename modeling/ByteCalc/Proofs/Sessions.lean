import ByteCalc.Proofs.Emission

/-! # Sessions of code generation

Bytecode is built by a sequence of calls, some of which may fail. A program
fails with the fault that comes first in post-order. A call that fails leaves
nothing behind, so a session goes on as if it had not been made.
-/

namespace ByteCalc

namespace Emission

/-- What is wrong with a node that comes after the nodes in `before`, if the pool held `k` constants
at the start: no instruction performs its operator, or it is the first literal without an index. -/
inductive Faulty (k : Nat) (before : List Expr) : Expr → Diagnostic → Prop where
  | operator {s : Span} {op : Operator} {l r : Expr} :
    op ≠ .plus → Faulty k before (.binary s op l r) ⟨.unknownOperator, s, op.text⟩
  | literal {s : Span} {n : Int64} :
    (literals before).length = maxConstants - k →
      Faulty k before (.literal s n) ⟨.constantIndexOutOfRange, .nowhere, "CONSTANT POOL FULL"⟩

/-- What is wrong with the first faulty node. -/
def FirstFault (k : Nat) (es : List Expr) (d : Diagnostic) : Prop :=
  ∃ before e after, es = before ++ e :: after ∧ Faulty k before e d ∧
    ∀ xs x ys, before = xs ++ x :: ys → ∀ d', ¬ Faulty k xs x d'

variable {k : Nat} {e x : Expr} {es before : List Expr} {d : Diagnostic}

theorem faulty_nil_iff : Faulty k [] e d ↔ ∃ f, fault? k e = some f ∧ f.diagnostic = d := by
  constructor
  · rintro (hop | hk)
    · exact ⟨_, if_neg hop, rfl⟩
    · rw [literals_nil, List.length_nil] at hk
      exact ⟨_, if_neg (by omega), rfl⟩
  · rintro ⟨f, hf, rfl⟩
    cases e with
    | literal s n =>
      obtain ⟨hk, rfl⟩ : ¬ k < maxConstants ∧ Fault.poolFull = f := by simpa [fault?] using hf
      apply Faulty.literal
      rw [literals_nil, List.length_nil]
      omega
    | binary s op l r =>
      obtain ⟨hop, rfl⟩ : op ≠ .plus ∧ Fault.unsupported op s = f := by simpa [fault?] using hf
      exact .operator hop

/-- A node that has found its index leaves one index less to the nodes after it. -/
theorem faulty_cons_iff (h : fault? k e = none) :
    Faulty k (e :: before) x d ↔ Faulty (k + (literals [e]).length) before x d := by
  have hcount : (literals (e :: before)).length = maxConstants - k ↔
      (literals before).length = maxConstants - (k + (literals [e]).length) := by
    cases e with
    | literal s n =>
      have hk : k < maxConstants := by simpa [fault?] using h
      simp only [literals_literal, literals_nil, List.length_cons, List.length_nil]
      omega
    | binary s op l r => rfl
  constructor
  · rintro (hop | hk)
    · exact .operator hop
    · exact .literal (hcount.mp hk)
  · rintro (hop | hk)
    · exact .operator hop
    · exact .literal (hcount.mpr hk)

theorem firstFault_of_some {f : Fault} (h : fault? k e = some f) :
    FirstFault k (e :: es) f.diagnostic := by
  refine ⟨[], e, es, rfl, faulty_nil_iff.mpr ⟨f, h, rfl⟩, ?_⟩
  intro xs x ys hnil
  simp at hnil

theorem firstFault_of_none (h : fault? k e = none)
    (hf : FirstFault (k + (literals [e]).length) es d) : FirstFault k (e :: es) d := by
  obtain ⟨before, x, after, rfl, hx, hbefore⟩ := hf
  refine ⟨e :: before, x, after, rfl, (faulty_cons_iff h).mpr hx, ?_⟩
  rintro (_ | ⟨y, xs⟩) z ys heq d' hz
  · obtain ⟨rfl, -⟩ := List.cons.inj heq
    obtain ⟨f, hf, -⟩ := faulty_nil_iff.mp hz
    rw [h] at hf
    cases hf
  · obtain ⟨rfl, rfl⟩ := List.cons.inj heq
    exact hbefore xs z ys rfl d' ((faulty_cons_iff h).mp hz)

end Emission

namespace Bytecode

theorem firstFault_of_addNodes {b : Bytecode} {es : List Expr} {f : Fault}
    (h : (b.addNodes es).1 = .error f) :
    Emission.FirstFault b.constants.size es f.diagnostic := by
  induction es generalizing b with
  | nil => cases h
  | cons e es ih =>
    cases he : Emission.fault? b.constants.size e with
    | none =>
      rw [addNodes_cons_of_none he] at h
      have hes := ih h
      rw [size_constants_extend] at hes
      exact Emission.firstFault_of_none he hes
    | some g =>
      rw [addNodes_cons_of_some he] at h
      cases h
      exact Emission.firstFault_of_some he

/-- The calls that extend bytecode. -/
inductive Call where
  | addProgram (p : Program)
  | emit (op : Opcode) (operands : List Nat)
  | addConstant (v : Val)

def Call.isEmit : Call → Bool
  | emit .. => true
  | _ => false

/-- Make a call. An instruction gives its offset and a constant its index. -/
def call (b : Bytecode) : Call → Except Fault (Option Nat) × Bytecode
  | .addProgram p => ((b.addProgram p).1.map fun _ => none, (b.addProgram p).2)
  | .emit op operands => ((b.emit op operands).1.map some, (b.emit op operands).2)
  | .addConstant v => ((b.addConstant v).1.map some, (b.addConstant v).2)

/-- Make calls one after the other. Gives their results in order. -/
def callAll (b : Bytecode) : List Call → List (Except Fault (Option Nat)) × Bytecode
  | [] => ([], b)
  | c :: cs =>
    let (result, b) := b.call c
    let (results, b) := b.callAll cs
    (result :: results, b)

/-- Those of some calls that succeed when all of them are made. -/
def succeeding (b : Bytecode) (cs : List Call) : List Call :=
  ((cs.zip (b.callAll cs).1).filter (·.2.isOk)).map (·.1)

variable {b : Bytecode} {c : Call} {f : Fault}

theorem emit_of_error {op : Opcode} {operands : List Nat} (h : (b.emit op operands).1 = .error f) :
    (b.emit op operands).2 = b := by
  unfold emit at h ⊢
  split at h
  · cases h
  · rfl

theorem addConstant_of_error {v : Val} (h : (b.addConstant v).1 = .error f) :
    (b.addConstant v).2 = b := by
  unfold addConstant at h ⊢
  split at h
  · cases h
  · rw [if_neg ‹_›]

theorem call_of_error (h : (b.call c).1 = .error f) : (b.call c).2 = b := by
  cases c with
  | addProgram p => exact addProgram_of_error (Fault.map_eq_error_iff.mp h)
  | emit op operands => exact emit_of_error (Fault.map_eq_error_iff.mp h)
  | addConstant v => exact addConstant_of_error (Fault.map_eq_error_iff.mp h)

theorem callAll_cons (b : Bytecode) (c : Call) (cs : List Call) :
    b.callAll (c :: cs) = ((b.call c).1 :: ((b.call c).2.callAll cs).1,
      ((b.call c).2.callAll cs).2) := rfl

theorem succeeding_cons_of_ok {r : Option Nat} (h : (b.call c).1 = .ok r) (cs : List Call) :
    b.succeeding (c :: cs) = c :: (b.call c).2.succeeding cs := by
  simp [succeeding, callAll_cons, h, Except.isOk, Except.toBool]

theorem succeeding_cons_of_error (h : (b.call c).1 = .error f) (cs : List Call) :
    b.succeeding (c :: cs) = b.succeeding cs := by
  simp [succeeding, callAll_cons, h, call_of_error h, Except.isOk, Except.toBool]

/-- The calls that succeed have the same results when they are made on their own. -/
theorem callAll_succeeding (b : Bytecode) (cs : List Call) :
    b.callAll (b.succeeding cs) = ((b.callAll cs).1.filter (·.isOk), (b.callAll cs).2) := by
  induction cs generalizing b with
  | nil => rfl
  | cons c cs ih =>
    cases h : (b.call c).1 with
    | ok r =>
      rw [succeeding_cons_of_ok h, callAll_cons, ih, callAll_cons, h]
      rfl
    | error f =>
      rw [succeeding_cons_of_error h, ih, callAll_cons, h, call_of_error h]
      rfl

/-- What a call does if it succeeds. -/
inductive Extends (b : Bytecode) : Call → Bytecode → Prop where
  | program {p : Program} :
    (b.addNodes p.nodes).1 = .ok () → Extends b (.addProgram p) (b.extend p.nodes)
  | instruction {op : Opcode} {operands : List Nat} {bytes : List UInt8} :
    op.encode operands = .ok bytes →
      Extends b (.emit op operands) { b with code := b.code ++ bytes }
  | constant {v : Val} :
    b.constants.size < maxConstants →
      Extends b (.addConstant v) { b with constants := b.constants.push v }

theorem extends_of_call {r : Option Nat} (h : (b.call c).1 = .ok r) :
    b.Extends c (b.call c).2 := by
  cases c with
  | addProgram p =>
    obtain ⟨⟨⟩, hp, -⟩ := Fault.map_eq_ok_iff.mp h
    rw [call, addProgram_of_ok hp]
    exact .program ((addProgram_fst b p).symm.trans hp)
  | emit op operands =>
    obtain ⟨offset, he, -⟩ := Fault.map_eq_ok_iff.mp h
    cases hbytes : op.encode operands with
    | ok bytes =>
      rw [call, emit_of_ok hbytes]
      exact .instruction hbytes
    | error f => simp [emit, hbytes] at he
  | addConstant v =>
    obtain ⟨index, ha, -⟩ := Fault.map_eq_ok_iff.mp h
    rcases Nat.lt_or_ge b.constants.size maxConstants with hlt | hge
    · rw [call, addConstant_of_lt hlt]
      exact .constant hlt
    · simp [addConstant_of_le hge] at ha

/-- What every call that succeeds keeps is kept by a whole session. -/
theorem callAll_invariant {P : Bytecode → Prop} {cs : List Call}
    (hext : ∀ c ∈ cs, ∀ b b', Extends b c b' → P b → P b') {b : Bytecode} (h : P b) :
    P (b.callAll cs).2 := by
  induction cs generalizing b with
  | nil => exact h
  | cons c cs ih =>
    rw [List.forall_mem_cons] at hext
    rw [callAll_cons]
    apply ih hext.2
    cases hc : (b.call c).1 with
    | ok r => exact hext.1 b _ (extends_of_call hc) h
    | error f => rwa [call_of_error hc]

/-- A program that is not added reports its first fault and leaves both the code and the pool as
they were. In a session the calls that fail can be left out: the others have the same results and
build the same bytecode. -/
theorem failed_calls_leave_no_trace (b : Bytecode) :
    (∀ p f, (b.addProgram p).1 = .error f →
      Emission.FirstFault b.constants.size p.nodes f.diagnostic ∧
      (b.addProgram p).2.code = b.code ∧ (b.addProgram p).2.constants = b.constants) ∧
    ∀ cs, b.callAll (b.succeeding cs) = ((b.callAll cs).1.filter (·.isOk), (b.callAll cs).2) := by
  refine ⟨?_, b.callAll_succeeding⟩
  intro p f h
  rw [addProgram_of_error h]
  rw [addProgram_fst] at h
  exact ⟨firstFault_of_addNodes h, rfl, rfl⟩

/-- In `1 - 2 * 3` the product comes first in post-order, when three literals have been added. -/
theorem failed_calls_leave_no_trace_of_product :
    ∃ (b : Bytecode) (p : Program), (b.addNodes p.nodes).2 ≠ b ∧
      (b.addProgram p).1 = .error (.unsupported .times ⟨4, 9⟩) ∧
      Emission.FirstFault b.constants.size p.nodes ⟨.unknownOperator, ⟨4, 9⟩, "*"⟩ ∧
      (b.addProgram p).2.code = b.code ∧ (b.addProgram p).2.constants = b.constants := by
  have h : (addProgram ⟨#[1], #[.boolean true]⟩ ⟨[.ofExpr (.join .minus (.literal ⟨0, 1⟩ 1)
      (.join .times (.literal ⟨4, 5⟩ 2) (.literal ⟨8, 9⟩ 3)))]⟩).1 =
      .error (.unsupported .times ⟨4, 9⟩) := rfl
  exact ⟨_, _, by decide, h, (failed_calls_leave_no_trace _).1 _ _ h⟩

end Bytecode

end ByteCalc
