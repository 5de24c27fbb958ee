import ByteCalc.Proofs.DirectEvaluation
import ByteCalc.Proofs.Sessions

/-! # Code that cannot go wrong

The code of a session consists of whole instructions, so a machine never loses
its place in it. If no instruction was emitted by hand, then every index denotes
an integer and every sum finds two operands. Such code can only fail because the
stack is too small or a sum is out of range.
-/

namespace ByteCalc

/-- Instructions and the bytes that they are encoded as, one after the other. -/
inductive Assembles : List (Opcode × List Nat) → List UInt8 → Prop where
  | nil : Assembles [] []
  | cons {op : Opcode} {operands : List Nat} {bytes rest : List UInt8}
      {is : List (Opcode × List Nat)} : op.encode operands = .ok bytes → Assembles is rest →
    Assembles ((op, operands) :: is) (bytes ++ rest)

theorem Assembles.append {is js : List (Opcode × List Nat)} {bs cs : List UInt8}
    (h : Assembles is bs) (h' : Assembles js cs) : Assembles (is ++ js) (bs ++ cs) := by
  induction h with
  | nil => exact h'
  | cons he _ ih =>
    rw [List.append_assoc]
    exact .cons he ih

theorem assembles_singleton {op : Opcode} {operands : List Nat} {bytes : List UInt8}
    (h : op.encode operands = .ok bytes) : Assembles [(op, operands)] bytes := by
  simpa using Assembles.cons h .nil

theorem Emission.assembles_code {k : Nat} {es : List Expr}
    (h : k + (literals es).length ≤ maxConstants) : ∃ is, Assembles is (code k es) := by
  induction es generalizing k with
  | nil => exact ⟨[], .nil⟩
  | cons e es ih =>
    cases e with
    | literal s n =>
      rw [literals_literal, List.length_cons] at h
      obtain ⟨is, his⟩ := ih (k := k + 1) (by omega)
      exact ⟨_, .cons (Bytecode.encode_constant (by omega)) his⟩
    | binary s op l r =>
      obtain ⟨is, his⟩ := ih h
      exact ⟨_, .cons Bytecode.encode_add his⟩

/-- An instruction is one that pushes a constant or one that adds. -/
theorem Opcode.encode_cases {op : Opcode} {operands : List Nat} {bytes : List UInt8}
    (h : op.encode operands = .ok bytes) :
    (∃ k, op = .constant ∧ operands = [k] ∧ k < BigEndian.limit 2 ∧
      bytes = Opcode.constant.byte :: BigEndian.encode 2 k) ∨
    op = .add ∧ operands = [] ∧ bytes = [Opcode.add.byte] := by
  cases op with
  | constant =>
    rcases operands with _ | ⟨k, _ | ⟨j, operands⟩⟩
    · cases h
    · by_cases hk : k < maxConstants
      · rw [Bytecode.encode_constant hk] at h
        cases h
        exact .inl ⟨k, rfl, rfl, hk, rfl⟩
      · have hlimit : ¬ k < BigEndian.limit 2 := hk
        simp only [encode, layout, Layout.encode, List.length_cons, List.length_nil, if_true,
          List.zip_cons_cons, Layout.encodeFields, hlimit] at h
        cases h
    · cases h
  | add =>
    rcases operands with _ | ⟨k, operands⟩
    · cases h
      exact .inr ⟨rfl, rfl, rfl⟩
    · cases h

namespace Bytecode

/-- Whole instructions and no more constants than there are indices. -/
structure WellFormed (b : Bytecode) : Prop where
  code : ∃ is, Assembles is b.code.toList
  pool : b.constants.size ≤ maxConstants

theorem Extends.wellFormed {b b' : Bytecode} {c : Call} (h : b.Extends c b')
    (hb : b.WellFormed) : b'.WellFormed := by
  obtain ⟨⟨is, his⟩, hp⟩ := hb
  cases h with
  | program hok =>
    obtain ⟨-, hk⟩ := (addNodes_fst_eq_ok_iff hp).mp hok
    obtain ⟨js, hjs⟩ := Emission.assembles_code hk
    refine ⟨⟨is ++ js, ?_⟩, by rwa [size_constants_extend]⟩
    rw [extend, Array.toList_appendList]
    exact his.append hjs
  | @instruction op operands bytes he =>
    refine ⟨⟨is ++ [(op, operands)], ?_⟩, hp⟩
    rw [Array.toList_appendList]
    exact his.append (assembles_singleton he)
  | constant hlt => exact ⟨⟨is, his⟩, by rwa [Array.size_push]⟩

theorem wellFormed_empty : empty.WellFormed := ⟨⟨[], .nil⟩, by decide⟩

theorem wellFormed_callAll (cs : List Call) : (empty.callAll cs).2.WellFormed :=
  callAll_invariant (fun _ _ _ _ h => h.wellFormed) wellFormed_empty

end Bytecode

/-- A sum is an integer, or it is out of range, or one of the operands is no integer. -/
theorem Val.sum_cases (a b : Val) :
    (∃ n, a.sum b = .ok (.integer n)) ∨ a.sum b = .error .sumRange ∨
      (a.kind = .boolean ∨ b.kind = .boolean) ∧ a.sum b = .error (.operandTypes a.kind b.kind) := by
  cases a with
  | boolean x => exact .inr (.inr ⟨.inl rfl, rfl⟩)
  | integer x =>
    cases b with
    | boolean y => exact .inr (.inr ⟨.inr rfl, rfl⟩)
    | integer y =>
      rw [sum]
      cases Integer.add? x y with
      | some n => exact .inl ⟨n, rfl⟩
      | none => exact .inr (.inl rfl)

namespace Machine

/-- A machine that stands at the beginning of an instruction. -/
structure Aligned (m : Machine) : Prop where
  code : ∃ is, Assembles is m.ahead
  room : m.stack.size ≤ m.stack.capacity

/-- A machine among whole instructions moves on by whole instructions, and no fault of it is one of
decoding. -/
theorem Aligned.step {m : Machine} (hr : m.isRunning) (h : m.Aligned) :
    Within Aligned (fun f => f.category ≠ .undefinedOpcode ∧ f.category ≠ .malformedBytecode)
      m.step := by
  obtain ⟨⟨is, his⟩, hroom⟩ := h
  -- The first instruction ahead decides the step, and the step consumes exactly its bytes.
  generalize hahead : m.ahead = bs at his
  cases his with
  | nil =>
    rw [step_of_ahead_nil hahead]
    exact within_of_halted rfl
  | @cons _ _ _ rest is he hrest =>
    rcases Opcode.encode_cases he with ⟨k, -, -, hk, rfl⟩ | ⟨-, -, rfl⟩
    · rw [step_constant hk hahead]
      cases m.bytecode.constants[k]? with
      | none => exact within_fail (by simp [Fault.category]) m
      | some v =>
        dsimp only
        split
        · next hlt =>
          refine within_of_isRunning hr ⟨⟨is, ?_⟩, ?_⟩
          · rwa [ahead_after, hahead]
          · rwa [size_after, Array.size_push]
        · exact within_fail (by simp [Fault.category]) m
    · rcases step_add hahead hroom with ⟨-, hs⟩ | ⟨items, a, b, hitems, hs⟩
      · rw [hs]
        exact within_fail (by simp [Fault.category]) m
      · -- Two operands leave and at most one sum enters, so there is room for it.
        rw [hs]
        have hsize : items.size + 2 ≤ m.stack.capacity := by
          rw [Stack.size, hitems, Array.size_push, Array.size_push] at hroom
          exact hroom
        rcases a.sum_cases b with ⟨n, hsum⟩ | hsum | ⟨-, hsum⟩ <;> rw [hsum]
        · refine within_of_isRunning hr ⟨⟨is, ?_⟩, ?_⟩
          · rwa [ahead_after, hahead]
          · rw [size_after, Array.size_push, capacity_after]
            omega
        · exact within_fail (by simp [Fault.category]) _
        · exact within_fail (by simp [Fault.category]) _

end Machine

/-- Code that leads from `i` integers on the stack to `j` of them. Every index in it denotes an
integer, and every sum finds two. -/
inductive Balanced (pool : Array Val) : Nat → List UInt8 → Nat → Prop where
  | nil {i : Nat} : Balanced pool i [] i
  | constant {i j k : Nat} {n : Int64} {code : List UInt8} : k < BigEndian.limit 2 →
    pool[k]? = some (.integer n) → Balanced pool (i + 1) code j →
      Balanced pool i (Opcode.constant.byte :: BigEndian.encode 2 k ++ code) j
  | add {i j : Nat} {code : List UInt8} : Balanced pool (i + 1) code j →
    Balanced pool (i + 2) (Opcode.add.byte :: code) j

namespace Balanced

variable {pool pool' : Array Val} {i j k : Nat} {code code' : List UInt8}

theorem append (h : Balanced pool i code j) (h' : Balanced pool j code' k) :
    Balanced pool i (code ++ code') k := by
  induction h with
  | nil => exact h'
  | constant hk hv _ ih =>
    rw [List.append_assoc]
    exact .constant hk hv (ih h')
  | add _ ih => exact .add (ih h')

/-- Constants that are added later do not matter. -/
theorem mono (h : Balanced pool i code j) (hp : pool.toList <+: pool'.toList) :
    Balanced pool' i code j := by
  induction h with
  | nil => exact .nil
  | @constant _ _ k n _ hk hv _ ih =>
    have hv' : pool'[k]? = some (.integer n) := by
      rw [← Array.getElem?_toList] at hv ⊢
      obtain ⟨vs, hvs⟩ := hp
      have hlt := (List.getElem?_eq_some_iff.mp hv).1
      rw [← hvs, List.getElem?_append_left hlt, hv]
    exact .constant hk hv' ih
  | add _ ih => exact .add ih

end Balanced

namespace Emission

variable {pool : Array Val} {k : Nat}

/-- The code of an expression pushes one integer. -/
theorem balanced_code_postorder {e : Expr} (i : Nat) (hp : Pooled pool k e.postorder)
    (hk : k + e.literals.length ≤ maxConstants) :
    Balanced pool i (code k e.postorder) (i + 1) := by
  induction e generalizing k i with
  | literal s n => exact .constant hk hp.getElem?_eq .nil
  | binary s op l r ihl ihr =>
    rw [Expr.postorder_binary] at hp ⊢
    rw [Expr.literals, List.length_append] at hk
    have hl := ihl i hp.left.left (by omega)
    have hr := ihr (i + 1) hp.left.right (by rw [literals_postorder]; omega)
    rw [code_append, code_append]
    exact (hl.append hr).append (.add .nil)

theorem balanced_code_statements {ss : List Statement} (i : Nat)
    (hp : Pooled pool k (ss.flatMap (·.expr.postorder)))
    (hk : k + (literals (ss.flatMap (·.expr.postorder))).length ≤ maxConstants) :
    Balanced pool i (code k (ss.flatMap (·.expr.postorder))) (i + ss.length) := by
  induction ss generalizing k i with
  | nil => exact .nil
  | cons s ss ih =>
    rw [List.flatMap_cons] at hp hk ⊢
    rw [literals_append, List.length_append, literals_postorder] at hk
    have hs := balanced_code_postorder i hp.left (by omega)
    have hss := ih (i + 1) hp.right (by rw [literals_postorder]; omega)
    rw [code_append, List.length_cons, Nat.add_comm ss.length, ← Nat.add_assoc]
    exact hs.append hss

end Emission

namespace Bytecode

/-- Bytecode that needs nothing on the stack but room. -/
structure SelfContained (b : Bytecode) : Prop where
  code : ∃ j, Balanced b.constants 0 b.code.toList j
  pool : b.constants.size ≤ maxConstants

theorem Extends.selfContained {b b' : Bytecode} {c : Call} (h : b.Extends c b')
    (hc : c.isEmit = false) (hb : b.SelfContained) : b'.SelfContained := by
  obtain ⟨⟨j, hj⟩, hp⟩ := hb
  cases h with
  | @program p hok =>
    obtain ⟨-, hk⟩ := (addNodes_fst_eq_ok_iff hp).mp hok
    refine ⟨⟨j + p.statements.length, ?_⟩, by rwa [size_constants_extend]⟩
    -- The old code keeps its constants, and the new code starts where the old one ends.
    have hold : Balanced (b.extend p.nodes).constants 0 b.code.toList j :=
      hj.mono (by simp [extend])
    have hnew := Emission.balanced_code_statements j (b.pooled_extend p.nodes) hk
    rw [extend, Array.toList_appendList]
    exact hold.append hnew
  | instruction _ => cases hc
  | @constant v hlt =>
    exact ⟨⟨j, hj.mono (by simp)⟩, by rwa [Array.size_push]⟩

theorem selfContained_callAll {cs : List Call} (h : ∀ c ∈ cs, c.isEmit = false) :
    (empty.callAll cs).2.SelfContained :=
  callAll_invariant (fun c hc _ _ hext => hext.selfContained (h c hc)) ⟨⟨0, .nil⟩, by decide⟩

end Bytecode

namespace Machine

/-- A machine whose instructions find what they need on its stack. -/
structure Provided (m : Machine) : Prop where
  code : ∃ j, Balanced m.bytecode.constants m.stack.size m.ahead j
  integers : ∀ v ∈ m.stack.items, v.kind = .integer
  room : m.stack.size ≤ m.stack.capacity

/-- Only a lack of slots or a sum out of range can stop such a machine before the end. -/
theorem Provided.step {m : Machine} (hr : m.isRunning) (h : m.Provided) :
    Within Provided (fun f => f.category = .stackOverflow ∨ f.category = .overflow) m.step := by
  obtain ⟨⟨j, hj⟩, hint, hroom⟩ := h
  generalize hahead : m.ahead = bs at hj
  generalize hsize : m.stack.size = i at hj
  cases hj with
  | nil =>
    rw [step_of_ahead_nil hahead]
    exact within_of_halted rfl
  | constant hk hv hrest =>
    rw [step_constant hk hahead, hv]
    dsimp only
    split
    · next hlt =>
      refine within_of_isRunning hr ⟨⟨j, ?_⟩, ?_, ?_⟩
      · rwa [ahead_after, hahead, size_after, Array.size_push, ← Stack.size, hsize]
      · exact Array.forall_mem_push.mpr ⟨rfl, hint⟩
      · rwa [size_after, Array.size_push]
    · exact within_fail (.inl rfl) m
  | @add i' _ _ hrest =>
    rcases step_add hahead hroom with ⟨hlt, -⟩ | ⟨items, a, b, hitems, hs⟩
    · -- The code counts on two operands.
      omega
    · rw [Stack.size, hitems, Array.size_push, Array.size_push] at hsize hroom
      rw [hitems, Array.forall_mem_push, Array.forall_mem_push] at hint
      obtain ⟨hb, ha, hitems'⟩ := hint
      rw [hs]
      rcases a.sum_cases b with ⟨n, hsum⟩ | hsum | ⟨hkind, -⟩
      · rw [hsum]
        refine within_of_isRunning hr ⟨⟨j, ?_⟩, ?_, ?_⟩
        · rw [ahead_after, hahead, size_after, Array.size_push, Nat.add_right_cancel hsize]
          exact hrest
        · exact Array.forall_mem_push.mpr ⟨rfl, hitems'⟩
        · rw [size_after, Array.size_push, capacity_after]
          omega
      · rw [hsum]
        exact within_fail (.inr rfl) _
      · simp [ha, hb] at hkind

variable {b : Bytecode}

theorem fault_of_run {P : Machine → Prop} {A : Fault → Prop}
    (hstep : ∀ m, m.isRunning → P m → Within P A m.step) {memory : Memory} {capacity : Nat}
    {m : Machine} (hm : loadWith memory capacity b = .ok m)
    (hP : P (loaded b capacity #[]).start) {f : Fault} (hf : m.run.1 = .error f) : A f := by
  obtain rfl := loadWith_eq_ok hm
  have hrun := (within_of_isRunning rfl hP).finish hstep
  exact hrun.fault f ((keepsFault_loaded b capacity #[]).run_eq_error_iff.mp hf)

/-- The bytecode of a session is made of whole instructions at every point, so no run of it fails to
decode one. Without instructions emitted by hand a run only fails for lack of slots or range. -/
theorem run_session_safe (cs : List Bytecode.Call) :
    (∀ n, (∃ is, Assembles is (Bytecode.empty.callAll (cs.take n)).2.code.toList) ∧
      (Bytecode.empty.callAll (cs.take n)).2.constants.size ≤ maxConstants) ∧
    ∀ memory capacity m f, loadWith memory capacity (Bytecode.empty.callAll cs).2 = .ok m →
      m.run.1 = .error f →
      (f.category ≠ .undefinedOpcode ∧ f.category ≠ .malformedBytecode) ∧
      ((∀ c ∈ cs, c.isEmit = false) → f.category = .stackOverflow ∨ f.category = .overflow) := by
  constructor
  · intro n
    have h := Bytecode.wellFormed_callAll (cs.take n)
    exact ⟨h.code, h.pool⟩
  · intro memory capacity m f hm hf
    constructor
    · have h := Bytecode.wellFormed_callAll cs
      exact fault_of_run (fun _ => Aligned.step) hm ⟨h.code, Nat.zero_le _⟩ hf
    · intro hcs
      have h := Bytecode.selfContained_callAll hcs
      exact fault_of_run (fun _ => Provided.step) hm ⟨h.code, nofun, Nat.zero_le _⟩ hf

/-- A truth value, a program that fails and then `1 + 2`, on a stack with a single slot. -/
theorem run_session_safe_single_slot :
    ∃ (cs : List Bytecode.Call) (m : Machine) (f : Fault), cs.length = 3 ∧
      loadWith .addressSpace 1 (Bytecode.empty.callAll cs).2 = .ok m ∧ m.run.1 = .error f ∧
      (f.category = .stackOverflow ∨ f.category = .overflow) := by
  have hm : loadWith .addressSpace 1 (Bytecode.empty.callAll [.addConstant (.boolean true),
      .addProgram ⟨[.ofExpr (.join .minus (.literal ⟨0, 1⟩ 3) (.literal ⟨2, 3⟩ 4))]⟩,
      .addProgram ⟨[.ofExpr (.join .plus (.literal ⟨0, 1⟩ 1) (.literal ⟨2, 3⟩ 2))]⟩]).2 =
      .ok (loaded ⟨#[0, 0, 1, 0, 0, 2, 1], #[.boolean true, .integer 1, .integer 2]⟩ 1 #[]) := rfl
  have hrun : (loaded ⟨#[0, 0, 1, 0, 0, 2, 1], #[.boolean true, .integer 1, .integer 2]⟩ 1
      #[]).run.1 = .error .operandStackFull := by
    rw [run, finish_of_isRunning rfl, finish_of_isRunning rfl, finish_of_not_isRunning (by decide)]
    rfl
  exact ⟨_, _, _, rfl, hm, hrun, ((run_session_safe _).2 _ _ _ _ hm hrun).2 (by decide)⟩

end Machine

end ByteCalc
