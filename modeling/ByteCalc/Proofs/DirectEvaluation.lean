import ByteCalc.Proofs.Emission
import ByteCalc.Proofs.Running

/-! # Compiled code and direct evaluation

A program has a meaning of its own: each statement is evaluated from left to
right, and its value stays on the stack. The machine arrives at the same values
and meets the same fault first.
-/

namespace ByteCalc

/-- The fault of a push for which there is no slot. -/
def Fault.operandStackFull : Fault := .stackFull "OPERAND STACK FULL"

/-- An integer that a word can hold. -/
def Integer.Fits (n : Int) : Prop := Int64.minValue.toInt ≤ n ∧ n ≤ Int64.maxValue.toInt

instance : DecidablePred Integer.Fits := fun n =>
  inferInstanceAs (Decidable (Int64.minValue.toInt ≤ n ∧ n ≤ Int64.maxValue.toInt))

theorem Integer.add?_eq (a b : Int64) :
    add? a b = if Fits (a.toInt + b.toInt) then some (a + b) else none := by
  rw [add?, ofInt?, Int64.ofInt_add, Int64.ofInt_toInt, Int64.ofInt_toInt]
  rfl

/-- The value of an expression when `depth` out of `capacity` slots are taken. The left operand
takes up one more while the right operand is evaluated. -/
def Expr.value (capacity : Nat) : Nat → Expr → Except Fault Int64
  | depth, literal _ n => if depth < capacity then .ok n else .error .operandStackFull
  | depth, binary span op l r => do
    let a ← l.value capacity depth
    let b ← r.value capacity (depth + 1)
    if op ≠ .plus then .error (.unsupported op span)
    else if Integer.Fits (a.toInt + b.toInt) then .ok (a + b)
    else .error .sumRange

/-- The values of statements in order, each of which takes up a slot from then on. -/
def Statement.values (capacity : Nat) : Nat → List Statement → Except Fault (List Int64)
  | _, [] => .ok []
  | depth, s :: ss => do
    let v ← s.expr.value capacity depth
    let vs ← values capacity (depth + 1) ss
    return v :: vs

namespace Expr

variable {capacity depth : Nat} {s : Span} {op : Operator} {l r e : Expr} {f : Fault}

theorem value_literal_eq_ok_iff {n v : Int64} :
    (literal s n).value capacity depth = .ok v ↔ depth < capacity ∧ v = n := by
  by_cases h : depth < capacity <;> simp [value, h, eq_comm]

theorem value_literal_eq_error_iff {n : Int64} :
    (literal s n).value capacity depth = .error f ↔
      ¬ depth < capacity ∧ f = .operandStackFull := by
  by_cases h : depth < capacity <;> simp [value, h, eq_comm]

theorem value_binary_eq_ok_iff {v : Int64} :
    (binary s op l r).value capacity depth = .ok v ↔
      ∃ a b, l.value capacity depth = .ok a ∧ r.value capacity (depth + 1) = .ok b ∧
        op = .plus ∧ Integer.Fits (a.toInt + b.toInt) ∧ v = a + b := by
  cases hl : l.value capacity depth with
  | error f => simp [value, hl, bind, Except.bind]
  | ok a =>
    cases hr : r.value capacity (depth + 1) with
    | error f => simp [value, hl, hr, bind, Except.bind]
    | ok b =>
      by_cases hop : op = .plus <;> by_cases hab : Integer.Fits (a.toInt + b.toInt) <;>
        simp [value, hl, hr, hop, hab, bind, Except.bind, eq_comm]

/-- The left operand fails first, then the right one, then the operator. -/
theorem value_binary_eq_error_iff :
    (binary s op l r).value capacity depth = .error f ↔
      l.value capacity depth = .error f ∨
      (∃ a, l.value capacity depth = .ok a ∧ r.value capacity (depth + 1) = .error f) ∨
      ∃ a b, l.value capacity depth = .ok a ∧ r.value capacity (depth + 1) = .ok b ∧
        (op ≠ .plus ∧ f = .unsupported op s ∨
          op = .plus ∧ ¬ Integer.Fits (a.toInt + b.toInt) ∧ f = .sumRange) := by
  cases hl : l.value capacity depth with
  | error g => simp [value, hl, bind, Except.bind]
  | ok a =>
    cases hr : r.value capacity (depth + 1) with
    | error g => simp [value, hl, hr, bind, Except.bind]
    | ok b =>
      by_cases hop : op = .plus <;> by_cases hab : Integer.Fits (a.toInt + b.toInt) <;>
        simp [value, hl, hr, hop, hab, bind, Except.bind, eq_comm]

theorem lt_of_value_eq_ok {v : Int64} (h : e.value capacity depth = .ok v) :
    depth < capacity := by
  induction e generalizing v with
  | literal s n => exact (value_literal_eq_ok_iff.mp h).1
  | binary s op l r ihl ihr =>
    obtain ⟨a, b, hl, -⟩ := value_binary_eq_ok_iff.mp h
    exact ihl hl

theorem fault_of_value_eq_error (hs : ∀ e' ∈ e.postorder, e'.Supported)
    (h : e.value capacity depth = .error f) : f = .operandStackFull ∨ f = .sumRange := by
  induction e generalizing depth with
  | literal s n => exact .inl (value_literal_eq_error_iff.mp h).2
  | binary s op l r ihl ihr =>
    rw [postorder_binary] at hs
    simp only [List.forall_mem_append, List.forall_mem_singleton] at hs
    obtain ⟨⟨hsl, hsr⟩, hop⟩ := hs
    rcases value_binary_eq_error_iff.mp h with hl | ⟨a, -, hr⟩ | ⟨a, b, -, -, hab⟩
    · exact ihl hsl hl
    · exact ihr hsr hr
    · rcases hab with ⟨hne, -⟩ | ⟨-, -, hf⟩
      · exact absurd hop hne
      · exact .inr hf

end Expr

namespace Statement

variable {capacity depth : Nat} {s : Statement} {ss : List Statement}

theorem values_cons_eq_ok_iff {vs : List Int64} :
    values capacity depth (s :: ss) = .ok vs ↔
      ∃ v vs', s.expr.value capacity depth = .ok v ∧ values capacity (depth + 1) ss = .ok vs' ∧
        vs = v :: vs' := by
  cases hv : s.expr.value capacity depth with
  | error f => simp [values, hv, bind, Except.bind]
  | ok v =>
    cases hvs : values capacity (depth + 1) ss <;>
      simp [values, hv, hvs, bind, Except.bind, pure, Except.pure, eq_comm]

theorem values_cons_eq_error_iff {f : Fault} :
    values capacity depth (s :: ss) = .error f ↔
      s.expr.value capacity depth = .error f ∨
      ∃ v, s.expr.value capacity depth = .ok v ∧ values capacity (depth + 1) ss = .error f := by
  cases hv : s.expr.value capacity depth with
  | error g => simp [values, hv, bind, Except.bind]
  | ok v =>
    cases hvs : values capacity (depth + 1) ss <;>
      simp [values, hv, hvs, bind, Except.bind, pure, Except.pure]

theorem length_of_values_eq_ok {vs : List Int64} (h : values capacity depth ss = .ok vs) :
    vs.length = ss.length := by
  induction ss generalizing depth vs with
  | nil => cases h; rfl
  | cons s ss ih =>
    obtain ⟨v, vs', -, hvs, rfl⟩ := values_cons_eq_ok_iff.mp h
    rw [List.length_cons, List.length_cons, ih hvs]

theorem fault_of_values_eq_error {f : Fault}
    (hs : ∀ e ∈ ss.flatMap (·.expr.postorder), e.Supported)
    (h : values capacity depth ss = .error f) : f = .operandStackFull ∨ f = .sumRange := by
  induction ss generalizing depth with
  | nil => cases h
  | cons s ss ih =>
    rw [List.flatMap_cons, List.forall_mem_append] at hs
    rcases values_cons_eq_error_iff.mp h with he | ⟨v, -, hss⟩
    · exact Expr.fault_of_value_eq_error hs.1 he
    · exact ih hs.2 hss

end Statement

namespace Machine

/-- `m` is about to perform the instructions of `es` and then those in `rest`. The first literal
in `es` is constant number `k`. -/
structure Facing (m : Machine) (k : Nat) (es : List Expr) (rest : List UInt8) : Prop where
  running : m.isRunning
  code : m.ahead = Emission.code k es ++ rest
  constants : Emission.Pooled m.bytecode.constants k es
  small : m.bytecode.constants.size ≤ maxConstants
  note : m.stack.overflowNote = "OPERAND STACK FULL"

variable {m : Machine} {k : Nat} {es : List Expr} {rest : List UInt8}

namespace Facing

/-- The machine faces the code that follows once it has performed what stands before. -/
theorem after {es' : List Expr} (h : m.Facing k (es' ++ es) rest) (items : Array Val) :
    (m.after items (Emission.code k es').length).Facing (k + (Emission.literals es').length) es
      rest := by
  refine ⟨h.running, ?_, h.constants.right, h.small, h.note⟩
  have hc := h.code
  rw [Emission.code_append, List.append_assoc] at hc
  rw [ahead_after, hc, List.drop_left]

theorem step_literal {s : Span} {n : Int64} (h : m.Facing k (.literal s n :: es) rest) :
    m.step = if m.stack.size < m.stack.capacity then m.after (m.stack.items.push (.integer n)) 3
      else m.fail .operandStackFull := by
  have hv := h.constants.getElem?_eq
  have hlt : k < m.bytecode.constants.size := (Array.getElem?_eq_some_iff.mp hv).1
  have hcode := h.code
  rw [Emission.code, List.append_assoc] at hcode
  rw [step_constant (Nat.lt_of_lt_of_le hlt h.small) hcode, hv, h.note, Fault.operandStackFull]

/-- The instruction of an operator adds the two topmost integers. -/
theorem step_binary {s : Span} {op : Operator} {l r : Expr} {items : Array Val} {a b : Int64}
    (h : m.Facing k (.binary s op l r :: es) rest)
    (hi : m.stack.items = (items.push (.integer a)).push (.integer b))
    (hr : items.size < m.stack.capacity) :
    m.step = if Integer.Fits (a.toInt + b.toInt) then
        m.after (items.push (.integer (a + b))) 1
      else (m.after items 0).fail .sumRange := by
  rw [step_eq_stepAdd (getElem?_code_of_ahead h.code 0), stepAdd_eq hi hr, Val.sum,
    Integer.add?_eq]
  by_cases hsum : Integer.Fits (a.toInt + b.toInt)
  · rw [if_pos hsum, if_pos hsum]
  · rw [if_neg hsum, if_neg hsum]

end Facing

/-- The code of an expression that has a value pushes it. -/
theorem advance_expr_of_ok {e : Expr} {v : Int64} (h : m.Facing k (e.postorder ++ es) rest)
    (hv : e.value m.stack.capacity m.stack.size = .ok v) :
    advance e.postorder.length m =
      m.after (m.stack.items.push (.integer v)) (Emission.code k e.postorder).length := by
  induction e generalizing m k es v with
  | literal s n =>
    obtain ⟨hr, rfl⟩ := Expr.value_literal_eq_ok_iff.mp hv
    rw [Expr.postorder_literal] at h ⊢
    rw [List.length_singleton, advance_one h.running, h.step_literal, if_pos hr]
    rfl
  | binary s op l r ihl ihr =>
    obtain ⟨a, b, hvl, hvr, -, hsum, rfl⟩ := Expr.value_binary_eq_ok_iff.mp hv
    rw [Expr.postorder_binary] at h ⊢
    rw [List.append_assoc, List.append_assoc] at h
    have hl := ihl h hvl
    have hfr := h.after (m.stack.items.push (.integer a))
    have hr := ihr hfr (v := b) (by rwa [size_after, Array.size_push])
    have hfb := hfr.after ((m.stack.items.push (.integer a)).push (.integer b))
    rw [after_after] at hr hfb
    rw [List.length_append, List.length_append, advance_add, advance_add, hl, hr,
      List.length_singleton, items_after, advance_one hfb.running,
      hfb.step_binary rfl (Expr.lt_of_value_eq_ok hvl), if_pos hsum, after_after]
    simp [Emission.code_append, Emission.code, Nat.add_assoc]

/-- The code of an expression that has no value stops with the fault of its evaluation. -/
theorem advance_expr_of_error {e : Expr} {f : Fault} (hs : ∀ e' ∈ e.postorder, e'.Supported)
    (h : m.Facing k (e.postorder ++ es) rest)
    (hf : e.value m.stack.capacity m.stack.size = .error f) :
    (advance e.postorder.length m).FailedWith f := by
  induction e generalizing m k es with
  | literal s n =>
    obtain ⟨hr, rfl⟩ := Expr.value_literal_eq_error_iff.mp hf
    rw [Expr.postorder_literal] at h ⊢
    rw [List.length_singleton, advance_one h.running, h.step_literal, if_neg hr]
    exact failedWith_fail _ _
  | binary s op l r ihl ihr =>
    rw [Expr.postorder_binary] at h hs ⊢
    rw [List.append_assoc, List.append_assoc] at h
    simp only [List.forall_mem_append, List.forall_mem_singleton] at hs
    obtain ⟨⟨hsl, hsr⟩, rfl⟩ := hs
    rw [List.length_append, List.length_append, advance_add, advance_add]
    rcases Expr.value_binary_eq_error_iff.mp hf with hfl | ⟨a, hvl, hfr⟩ | ⟨a, b, hvl, hvr, hab⟩
    · have hl := ihl hsl h hfl
      rwa [advance_of_failed hl.status, advance_of_failed hl.status]
    · have hfc := h.after (m.stack.items.push (.integer a))
      have hr := ihr hsr hfc (by rwa [size_after, Array.size_push])
      rw [advance_expr_of_ok h hvl]
      rwa [advance_of_failed hr.status]
    · have hfc := h.after (m.stack.items.push (.integer a))
      have hr := advance_expr_of_ok hfc (v := b) (by rwa [size_after, Array.size_push])
      have hfb := hfc.after ((m.stack.items.push (.integer a)).push (.integer b))
      rw [after_after] at hr hfb
      rw [advance_expr_of_ok h hvl, hr, List.length_singleton, items_after,
        advance_one hfb.running, hfb.step_binary rfl (Expr.lt_of_value_eq_ok hvl)]
      rcases hab with ⟨hop, -⟩ | ⟨-, hsum, rfl⟩
      · exact absurd rfl hop
      · rw [if_neg hsum]
        exact failedWith_fail _ _

theorem advance_statements_of_ok {ss : List Statement} {vs : List Int64}
    (h : m.Facing k (ss.flatMap (·.expr.postorder)) rest)
    (hv : Statement.values m.stack.capacity m.stack.size ss = .ok vs) :
    advance (ss.flatMap (·.expr.postorder)).length m =
      m.after (m.stack.items ++ vs.map Val.integer)
        (Emission.code k (ss.flatMap (·.expr.postorder))).length := by
  induction ss generalizing m k vs with
  | nil =>
    cases hv
    simp [advance, after, Emission.code]
  | cons s ss ih =>
    obtain ⟨v, vs', he, hvs, rfl⟩ := Statement.values_cons_eq_ok_iff.mp hv
    rw [List.flatMap_cons] at h ⊢
    have hf := h.after (m.stack.items.push (.integer v))
    have hss := ih hf (by rwa [size_after, Array.size_push])
    rw [after_after, ← List.length_append, ← Emission.code_append] at hss
    rw [List.length_append, advance_add, advance_expr_of_ok h he, hss]
    simp

theorem advance_statements_of_error {ss : List Statement} {f : Fault}
    (hs : ∀ e ∈ ss.flatMap (·.expr.postorder), e.Supported)
    (h : m.Facing k (ss.flatMap (·.expr.postorder)) rest)
    (hf : Statement.values m.stack.capacity m.stack.size ss = .error f) :
    (advance (ss.flatMap (·.expr.postorder)).length m).FailedWith f := by
  induction ss generalizing m k with
  | nil => cases hf
  | cons s ss ih =>
    rw [List.flatMap_cons] at h hs ⊢
    rw [List.forall_mem_append] at hs
    rw [List.length_append, advance_add]
    rcases Statement.values_cons_eq_error_iff.mp hf with hf | ⟨v, hv, hf⟩
    · have he := advance_expr_of_error hs.1 h hf
      rwa [advance_of_failed he.status]
    · rw [advance_expr_of_ok h hv]
      exact ih hs.2 (h.after _) (by rwa [size_after, Array.size_push])

/-- A machine at the start of a program with some items on its stack. -/
def loaded (b : Bytecode) (capacity : Nat) (items : Array Val) : Machine :=
  ⟨b, ⟨capacity, "OPERAND STACK FULL", items⟩, 0, .ready, none⟩

theorem loadWith_eq_ok_iff {memory : Memory} {b : Bytecode} {capacity : Nat} :
    loadWith memory capacity b = .ok m ↔
      memory.grants capacity ∧ m = loaded b capacity #[] := by
  rw [loadWith, Stack.create]
  split
  · next h => simp [h, loaded, bind, Except.bind, pure, Except.pure, eq_comm]
  · next h => simp [h, bind, Except.bind]

theorem loadWith_eq_ok {memory : Memory} {b : Bytecode} {capacity : Nat}
    (h : loadWith memory capacity b = .ok m) : m = loaded b capacity #[] :=
  (loadWith_eq_ok_iff.mp h).2

theorem keepsFault_loaded (b : Bytecode) (capacity : Nat) (items : Array Val) :
    (loaded b capacity items).KeepsFault :=
  .of_none rfl nofun

variable {p : Program}

theorem facing_start_loaded (capacity : Nat) (items : Array Val)
    (hk : (Emission.literals p.nodes).length ≤ maxConstants) :
    (loaded (Bytecode.empty.extend p.nodes) capacity items).start.Facing 0 p.nodes [] := by
  refine ⟨rfl, ?_, Bytecode.pooled_extend .empty p.nodes, ?_, rfl⟩
  · simp [ahead, start, loaded, Bytecode.extend, Bytecode.empty]
  · simpa [start, loaded, Bytecode.empty] using hk

theorem run_loaded_of_ok {capacity : Nat} {items : Array Val} {vs : List Int64}
    (hk : (Emission.literals p.nodes).length ≤ maxConstants)
    (hv : Statement.values capacity items.size p.statements = .ok vs) :
    (loaded (Bytecode.empty.extend p.nodes) capacity items).run =
      (.ok (), ⟨Bytecode.empty.extend p.nodes,
        ⟨capacity, "OPERAND STACK FULL", items ++ vs.map Val.integer⟩,
        (Bytecode.empty.extend p.nodes).code.size, .halted, none⟩) := by
  have hf := facing_start_loaded capacity items hk
  have hsize : (Bytecode.empty.extend p.nodes).code.size = (Emission.code 0 p.nodes).length := by
    simp [Bytecode.extend, Bytecode.empty, ← Array.length_toList]
  have hend : (loaded (Bytecode.empty.extend p.nodes) capacity items).start.finish =
      { (loaded (Bytecode.empty.extend p.nodes) capacity items).start.after
          (items ++ vs.map Val.integer) (Emission.code 0 p.nodes).length with
        status := .halted } := by
    rw [← finish_advance p.nodes.length]
    refine (congrArg finish (advance_statements_of_ok hf hv)).trans (finish_of_size_le rfl ?_)
    rw [bytecode_after, ip_after]
    exact Nat.le_trans (Nat.le_of_eq hsize) (Nat.le_add_left _ _)
  rw [run, hend, hsize]
  simp [report, Except.map, after, start, loaded]

theorem run_loaded_of_error {capacity : Nat} {items : Array Val} {f : Fault}
    (hs : ∀ e ∈ p.nodes, e.Supported)
    (hk : (Emission.literals p.nodes).length ≤ maxConstants)
    (hv : Statement.values capacity items.size p.statements = .error f) :
    (loaded (Bytecode.empty.extend p.nodes) capacity items).run.1 = .error f ∧
      (loaded (Bytecode.empty.extend p.nodes) capacity items).run.2.FailedWith f := by
  have hf := facing_start_loaded capacity items hk
  have hstop := advance_statements_of_error hs hf hv
  have hend :
      (loaded (Bytecode.empty.extend p.nodes) capacity items).start.finish.FailedWith f := by
    rwa [← finish_advance (p.statements.flatMap (·.expr.postorder)).length,
      finish_of_not_isRunning (not_isRunning_of_failed hstop.status)]
  exact ⟨(keepsFault_loaded _ capacity items).run_eq_error_iff.mpr hend, hend⟩

/-- Push values one after the other, before a run or between two of them. -/
def pushAll (m : Machine) : List Val → Except Fault Machine
  | [] => .ok m
  | v :: vs =>
    match m.push v with
    | (.ok (), m) => m.pushAll vs
    | (.error f, _) => .error f

theorem push_loaded {b : Bytecode} {capacity : Nat} {items : Array Val}
    (h : items.size < capacity) (v : Val) :
    (loaded b capacity items).push v = (.ok (), loaded b capacity (items.push v)) := by
  have hpush := Stack.push_of_lt (s := ⟨capacity, "OPERAND STACK FULL", items⟩) h v
  simp only [push, onStack, loaded, hpush]

theorem pushAll_loaded (b : Bytecode) {capacity : Nat} (items : Array Val) (vs : List Val)
    (h : items.size + vs.length ≤ capacity) :
    (loaded b capacity items).pushAll vs = .ok (loaded b capacity (items ++ vs)) := by
  induction vs generalizing items with
  | nil => simp [pushAll]
  | cons v vs ih =>
    rw [List.length_cons] at h
    rw [pushAll, push_loaded (by omega)]
    simpa using ih (items.push v) (by rw [Array.size_push]; omega)

/-- A compiled program computes the values of its statements on top of what lies on the stack, or
fails with the fault that direct evaluation meets first. -/
theorem run_compile {memory : Memory} {b : Bytecode} {capacity : Nat} {σ : List Val}
    (hb : p.compile = .ok b) (hm : loadWith memory capacity b = .ok m) (hσ : σ.length ≤ capacity) :
    ∃ m₀, m.pushAll σ = .ok m₀ ∧
      match Statement.values capacity σ.length p.statements with
      | .ok vs => m₀.run.1 = .ok () ∧ m₀.run.2.status = .halted ∧ m₀.run.2.ip = b.code.size ∧
        m₀.run.2.stack.items.toList = σ ++ vs.map Val.integer ∧ vs.length = p.statements.length
      | .error f => m₀.run.1 = .error f ∧ m₀.run.2.FailedWith f ∧
        (f.diagnostic = ⟨.stackOverflow, .nowhere, "OPERAND STACK FULL"⟩ ∨
          f.diagnostic = ⟨.overflow, .nowhere, ""⟩) := by
  obtain ⟨hs, hk, rfl⟩ := Program.compile_eq_ok_iff.mp hb
  obtain rfl := loadWith_eq_ok hm
  have hpush : (loaded (Bytecode.empty.extend p.nodes) capacity #[]).pushAll σ =
      .ok (loaded (Bytecode.empty.extend p.nodes) capacity σ.toArray) := by
    simpa using pushAll_loaded (Bytecode.empty.extend p.nodes) #[] σ (by simpa using hσ)
  refine ⟨_, hpush, ?_⟩
  cases hv : Statement.values capacity σ.length p.statements with
  | error f =>
    obtain ⟨hrun, hstatus⟩ := run_loaded_of_error hs hk hv
    refine ⟨hrun, hstatus, ?_⟩
    rcases Statement.fault_of_values_eq_error hs hv with rfl | rfl
    · exact .inl rfl
    · exact .inr rfl
  | ok vs => simp [run_loaded_of_ok hk hv, Statement.length_of_values_eq_ok hv]

/-- The program `1 + 2; 3` on a stack of four slots that holds a truth value. -/
theorem run_compile_above_truth_value :
    ∃ b m m₀, Program.compile ⟨[.ofExpr (.join .plus (.literal ⟨0, 1⟩ 1) (.literal ⟨4, 5⟩ 2)),
        .ofExpr (.literal ⟨7, 8⟩ 3)]⟩ = .ok b ∧ loadWith .addressSpace 4 b = .ok m ∧
      m.pushAll [.boolean true] = .ok m₀ ∧ m₀.run.1 = .ok () ∧
      m₀.run.2.stack.items.toList = [.boolean true, .integer 3, .integer 3] := by
  have hb : Program.compile ⟨[.ofExpr (.join .plus (.literal ⟨0, 1⟩ 1) (.literal ⟨4, 5⟩ 2)),
      .ofExpr (.literal ⟨7, 8⟩ 3)]⟩ = .ok ⟨#[0, 0, 0, 0, 0, 1, 1, 0, 0, 2],
        #[.integer 1, .integer 2, .integer 3]⟩ := rfl
  have hm : loadWith .addressSpace 4 ⟨#[0, 0, 0, 0, 0, 1, 1, 0, 0, 2],
      #[.integer 1, .integer 2, .integer 3]⟩ = .ok (loaded _ 4 #[]) := rfl
  obtain ⟨m₀, hpush, hrun⟩ := run_compile (σ := [.boolean true]) hb hm (by decide)
  exact ⟨_, _, m₀, hb, hm, hpush, hrun.1, hrun.2.2.2.1⟩

end Machine

end ByteCalc
