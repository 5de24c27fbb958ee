import ByteCalc.Bytecode.Codegen
import ByteCalc.Proofs.Walks

/-! # What code generation emits

The walk of the generator adds the nodes of a program in post-order and nothing
else. They give one instruction each, and the literals among them one
constant each. Generation succeeds exactly when every operator is a sum and the
pool has an index for every literal.
-/

namespace ByteCalc

namespace Expr

/-- A node for which an instruction exists. -/
def Supported : Expr → Prop
  | literal .. => True
  | binary _ op _ _ => op = .plus

instance : DecidablePred Supported
  | literal .. => inferInstanceAs (Decidable True)
  | binary _ op _ _ => inferInstanceAs (Decidable (op = .plus))

/-- The values of the literals from left to right. -/
def literals : Expr → List Int64
  | literal _ n => [n]
  | binary _ _ l r => l.literals ++ r.literals

/-- The operators from left to right. -/
def operators : Expr → List Operator
  | literal .. => []
  | binary _ op l r => l.operators ++ op :: r.operators

/-- The instructions of an expression whose first literal is constant number `k`. Its other literals
count on from there. -/
def bytes (k : Nat) : Expr → List UInt8
  | literal .. => [Opcode.constant.byte, UInt8.ofNat (k / 256), UInt8.ofNat (k % 256)]
  | binary _ _ l r => l.bytes k ++ r.bytes (k + l.literals.length) ++ [Opcode.add.byte]

def literal? : Expr → Option Int64
  | literal _ n => some n
  | binary .. => none

theorem forall_supported_iff (e : Expr) :
    (∀ e' ∈ e.postorder, e'.Supported) ↔ ∀ op ∈ e.operators, op = .plus := by
  induction e with
  | literal s n => simp [Supported, operators]
  | binary s op l r ihl ihr =>
    rw [postorder_binary, operators, List.forall_mem_append, List.forall_mem_append,
      List.forall_mem_singleton, List.forall_mem_append, List.forall_mem_cons, ihl, ihr]
    constructor
    · rintro ⟨⟨hl, hr⟩, hop⟩
      exact ⟨hl, hop, hr⟩
    · rintro ⟨hl, hop, hr⟩
      exact ⟨⟨hl, hr⟩, hop⟩

theorem supported_mapSpan_iff {f : Span → Span} {e : Expr} :
    (e.mapSpan f).Supported ↔ e.Supported := by
  cases e <;> rfl

theorem postorder_mapSpan (f : Span → Span) (e : Expr) :
    (e.mapSpan f).postorder = e.postorder.map (mapSpan f) := by
  induction e with
  | literal s n => rfl
  | binary s op l r ihl ihr => simp [mapSpan, postorder_binary, ihl, ihr]

end Expr

/-- The instructions of statements, the first literal of which is constant number `k`. -/
def Statement.bytes (k : Nat) : List Statement → List UInt8
  | [] => []
  | s :: ss => s.expr.bytes k ++ bytes (k + s.expr.literals.length) ss

namespace Program

/-- The integer literals of a program in order. -/
def literals (p : Program) : List Int64 := p.statements.flatMap (·.expr.literals)

/-- The operators of a program in order. -/
def operators (p : Program) : List Operator := p.statements.flatMap (·.expr.operators)

theorem forall_supported_iff (p : Program) :
    (∀ e ∈ p.nodes, e.Supported) ↔ ∀ op ∈ p.operators, op = .plus := by
  rw [nodes, operators]
  induction p.statements with
  | nil => simp
  | cons s ss ih =>
    rw [List.flatMap_cons, List.flatMap_cons, List.forall_mem_append, List.forall_mem_append, ih,
      s.expr.forall_supported_iff]

end Program

namespace Emission

/-- The values of the literals among some nodes. -/
def literals (es : List Expr) : List Int64 := es.filterMap Expr.literal?

/-- The instructions for some nodes, if the next free constant has index `k`. -/
def code : Nat → List Expr → List UInt8
  | _, [] => []
  | k, .literal .. :: es => Opcode.constant.byte :: BigEndian.encode 2 k ++ code (k + 1) es
  | k, .binary .. :: es => Opcode.add.byte :: code k es

/-- The fault of a node, if the next free constant has index `k`. -/
def fault? (k : Nat) : Expr → Option Fault
  | .literal .. => if k < maxConstants then none else some .poolFull
  | .binary s op _ _ => if op = .plus then none else some (.unsupported op s)

@[simp] theorem literals_nil : literals [] = [] := rfl

@[simp] theorem literals_literal (s : Span) (n : Int64) (es : List Expr) :
    literals (.literal s n :: es) = n :: literals es := rfl

@[simp] theorem literals_binary (s : Span) (op : Operator) (l r : Expr) (es : List Expr) :
    literals (.binary s op l r :: es) = literals es := rfl

@[simp] theorem literals_append (es es' : List Expr) :
    literals (es ++ es') = literals es ++ literals es' := by
  simp [literals]

@[simp] theorem literals_postorder (e : Expr) : literals e.postorder = e.literals := by
  induction e with
  | literal s n => rfl
  | binary s op l r ihl ihr =>
    rw [Expr.postorder_binary, literals_append, literals_append, ihl, ihr]
    simp [Expr.literals]

theorem code_append (k : Nat) (es es' : List Expr) :
    code k (es ++ es') = code k es ++ code (k + (literals es).length) es' := by
  induction es generalizing k with
  | nil => rfl
  | cons e es ih =>
    cases e with
    | literal s n =>
      simp only [List.cons_append, code, ih, literals_literal, List.length_cons, List.append_assoc]
      rw [Nat.add_assoc, Nat.add_comm 1]
    | binary s op l r => simp only [List.cons_append, code, ih, literals_binary]

theorem literals_mapSpan (f : Span → Span) (es : List Expr) :
    literals (es.map (Expr.mapSpan f)) = literals es := by
  induction es with
  | nil => rfl
  | cons e es ih => cases e <;> simp [Expr.mapSpan, ih]

theorem code_mapSpan (f : Span → Span) (k : Nat) (es : List Expr) :
    code k (es.map (Expr.mapSpan f)) = code k es := by
  induction es generalizing k with
  | nil => rfl
  | cons e es ih => cases e <;> simp [Expr.mapSpan, code, ih]

/-- The literals of some nodes are the constants from index `k` on. -/
def Pooled (pool : Array Val) (k : Nat) (es : List Expr) : Prop :=
  (literals es).map .integer <+: pool.toList.drop k

namespace Pooled

variable {pool : Array Val} {k : Nat} {es es' : List Expr}

theorem left (h : Pooled pool k (es ++ es')) : Pooled pool k es := by
  rw [Pooled, literals_append, List.map_append] at h
  exact (List.prefix_append _ _).trans h

theorem right (h : Pooled pool k (es ++ es')) : Pooled pool (k + (literals es).length) es' := by
  obtain ⟨vs, hvs⟩ := h
  rw [literals_append, List.map_append, List.append_assoc] at hvs
  refine ⟨vs, ?_⟩
  rw [← List.drop_drop, ← hvs, List.drop_left' (List.length_map _)]

theorem getElem?_eq {s : Span} {n : Int64} (h : Pooled pool k (.literal s n :: es)) :
    pool[k]? = some (.integer n) := by
  obtain ⟨vs, hvs⟩ := h
  rw [← Array.getElem?_toList, ← Nat.add_zero k, ← List.getElem?_drop, ← hvs]
  rfl

end Pooled

/-- Along the tree the same instructions are found as along its nodes. -/
theorem code_postorder (k : Nat) (e : Expr) : code k e.postorder = e.bytes k := by
  induction e generalizing k with
  | literal s n =>
    rw [Expr.bytes, UInt8.ofNat_mod_size]
    rfl
  | binary s op l r ihl ihr =>
    rw [Expr.postorder_binary, code_append, code_append, ihl, ihr, literals_postorder]
    rfl

theorem code_flatMap_postorder (k : Nat) (ss : List Statement) :
    code k (ss.flatMap (·.expr.postorder)) = Statement.bytes k ss := by
  induction ss generalizing k with
  | nil => rfl
  | cons s ss ih =>
    rw [List.flatMap_cons, code_append, code_postorder, literals_postorder, ih, Statement.bytes]

theorem fault?_eq_none_iff {k : Nat} {e : Expr} (hk : k ≤ maxConstants) :
    fault? k e = none ↔ e.Supported ∧ k + (literals [e]).length ≤ maxConstants := by
  cases e with
  | literal s n =>
    by_cases h : k < maxConstants
    · exact iff_of_true (if_pos h) ⟨trivial, h⟩
    · refine iff_of_false ?_ fun h' => h h'.2
      rw [fault?, if_neg h]
      exact nofun
  | binary s op l r => simp [fault?, Expr.Supported, hk]

end Emission

/-- The node that a visitor is called for, if it is an expression. -/
def Visit.node? : Visit → Option Expr
  | expr e => some e
  | _ => none

theorem Program.filterMap_visits (p : Program) : p.visits.filterMap Visit.node? = p.nodes := by
  have hstatement (s : Statement) : s.visits.filterMap Visit.node? = s.expr.postorder := by
    simp [Statement.visits, Function.comp_def, Visit.node?]
  simp [visits, nodes, List.filterMap_flatMap, hstatement, Visit.node?]

namespace Bytecode

/-- Bytecode with the code and the constants of some nodes added at the end. -/
def extend (b : Bytecode) (es : List Expr) : Bytecode :=
  ⟨b.code ++ Emission.code b.constants.size es,
    b.constants ++ (Emission.literals es).map Val.integer⟩

@[simp] theorem extend_nil (b : Bytecode) : b.extend [] = b := by
  simp [extend, Emission.code]

@[simp] theorem size_constants_extend (b : Bytecode) (es : List Expr) :
    (b.extend es).constants.size = b.constants.size + (Emission.literals es).length := by
  simp [extend, ← Array.length_toList]

theorem pooled_extend (b : Bytecode) (es : List Expr) :
    Emission.Pooled (b.extend es).constants b.constants.size es := by
  have hdrop : (b.extend es).constants.toList.drop b.constants.size =
      (Emission.literals es).map .integer := by
    rw [extend, Array.toList_appendList, List.drop_left' Array.length_toList]
  exact ⟨[], (List.append_nil _).trans hdrop.symm⟩

theorem extend_append (b : Bytecode) (es es' : List Expr) :
    b.extend (es ++ es') = (b.extend es).extend es' := by
  rw [extend, extend, Emission.code_append, Emission.literals_append, size_constants_extend]
  simp [extend, ← Array.toList_inj]

theorem emit_of_ok {b : Bytecode} {op : Opcode} {operands : List Nat} {bytes : List UInt8}
    (h : op.encode operands = .ok bytes) :
    b.emit op operands = (.ok b.code.size, { b with code := b.code ++ bytes }) := by
  simp [emit, h, append]

theorem encode_constant {k : Nat} (h : k < maxConstants) :
    Opcode.constant.encode [k] = .ok (Opcode.constant.byte :: BigEndian.encode 2 k) := by
  have hk : k < BigEndian.limit 2 := h
  simp only [Opcode.encode, Layout.encode, Opcode.layout, List.length_cons, List.length_nil,
    if_true, List.zip_cons_cons, List.zip_nil_right, Layout.encodeFields, hk]
  rfl

theorem encode_add : Opcode.add.encode [] = .ok [Opcode.add.byte] := rfl

/-- The index of a new constant always fits the operand, so only the pool can be too small. -/
theorem addNode_literal (b : Bytecode) (s : Span) (n : Int64) :
    b.addNode (.literal s n) = if b.constants.size < maxConstants then
      (.ok (), b.extend [.literal s n]) else (.error .poolFull, b) := by
  rcases Nat.lt_or_ge b.constants.size maxConstants with h | h
  · rw [if_pos h]
    simp [addNode, addConstant_of_lt h, emit_of_ok (encode_constant h), extend, Emission.code,
      Except.map]
  · rw [if_neg (Nat.not_lt_of_le h)]
    simp [addNode, addConstant_of_le h]

theorem addNode_binary (b : Bytecode) (s : Span) (op : Operator) (l r : Expr) :
    b.addNode (.binary s op l r) = if op = .plus then (.ok (), b.extend [.binary s op l r])
      else (.error (.unsupported op s), b) := by
  by_cases h : op = .plus
  · subst h
    simp [addNode, Operator.opcode?, emit_of_ok encode_add, extend, Emission.code, Except.map]
  · rw [if_neg h]
    cases op with
    | plus => exact absurd rfl h
    | _ => rfl

/-- A node is added whole or not at all. -/
theorem addNode_eq (b : Bytecode) (e : Expr) :
    b.addNode e = match Emission.fault? b.constants.size e with
      | none => (.ok (), b.extend [e])
      | some f => (.error f, b) := by
  cases e with
  | literal s n =>
    rw [addNode_literal, Emission.fault?]
    split <;> rfl
  | binary s op l r =>
    rw [addNode_binary, Emission.fault?]
    split <;> rfl

/-- Add the code for nodes in order, up to the first that fails. -/
def addNodes (b : Bytecode) : List Expr → Except Fault Unit × Bytecode
  | [] => (.ok (), b)
  | e :: es =>
    match b.addNode e with
    | (.ok (), b) => b.addNodes es
    | (.error f, b) => (.error f, b)

theorem perform_generator (xs : List Visit) (b : Bytecode) :
    generator.perform xs b = b.addNodes (xs.filterMap Visit.node?) := by
  induction xs generalizing b with
  | nil => rfl
  | cons x xs ih =>
    cases x with
    | expr e =>
      have hcall : (generator.on (.expr e)).runFrom b = b.addNode e := rfl
      have hnodes : (Visit.expr e :: xs).filterMap Visit.node? = e :: xs.filterMap Visit.node? :=
        List.filterMap_cons_some rfl
      rw [Visitor.perform, hcall, hnodes, addNodes]
      rcases b.addNode e with ⟨_ | _, b'⟩
      · rfl
      · exact ih b'
    | statement s => exact ih b
    | program p => exact ih b

/-- A walk of the generator over a program adds its nodes. -/
theorem runFrom_accept_generator (p : Program) (b : Bytecode) :
    (p.accept generator).runFrom b = b.addNodes p.nodes := by
  rw [Visitor.runFrom_accept, perform_generator, p.filterMap_visits]

theorem addNodes_cons_of_none {b : Bytecode} {e : Expr}
    (h : Emission.fault? b.constants.size e = none) (es : List Expr) :
    b.addNodes (e :: es) = (b.extend [e]).addNodes es := by
  rw [addNodes, addNode_eq, h]

theorem addNodes_cons_of_some {b : Bytecode} {e : Expr} {f : Fault}
    (h : Emission.fault? b.constants.size e = some f) (es : List Expr) :
    b.addNodes (e :: es) = (.error f, b) := by
  rw [addNodes, addNode_eq, h]

/-- Whatever happens, the nodes of a first part have been added and no others. -/
theorem addNodes_snd (b : Bytecode) (es : List Expr) :
    ∃ done, done <+: es ∧ (b.addNodes es).2 = b.extend done ∧
      ((b.addNodes es).1 = .ok () → done = es) := by
  induction es generalizing b with
  | nil => exact ⟨[], List.prefix_rfl, (extend_nil b).symm, fun _ => rfl⟩
  | cons e es ih =>
    cases h : Emission.fault? b.constants.size e with
    | none =>
      obtain ⟨done, hd, hb, hok⟩ := ih (b.extend [e])
      refine ⟨e :: done, List.cons_prefix_cons.mpr ⟨rfl, hd⟩, ?_, ?_⟩
      · rw [addNodes_cons_of_none h, hb, ← extend_append]
        rfl
      · intro ho
        rw [addNodes_cons_of_none h] at ho
        rw [hok ho]
    | some f =>
      rw [addNodes_cons_of_some h]
      exact ⟨[], List.nil_prefix, (extend_nil b).symm, nofun⟩

/-- Nodes are added exactly when they are supported and there is an index for each literal. -/
theorem addNodes_fst_eq_ok_iff {b : Bytecode} {es : List Expr}
    (hb : b.constants.size ≤ maxConstants) :
    (b.addNodes es).1 = .ok () ↔ (∀ e ∈ es, e.Supported) ∧
      b.constants.size + (Emission.literals es).length ≤ maxConstants := by
  induction es generalizing b with
  | nil => simpa [addNodes] using hb
  | cons e es ih =>
    rw [List.forall_mem_cons, ← List.singleton_append, Emission.literals_append,
      List.length_append]
    cases h : Emission.fault? b.constants.size e with
    | none =>
      obtain ⟨hs, hk⟩ := (Emission.fault?_eq_none_iff hb).mp h
      rw [List.singleton_append, addNodes_cons_of_none h, ih (by simpa using hk),
        size_constants_extend, Nat.add_assoc]
      simp [hs]
    | some f =>
      rw [List.singleton_append, addNodes_cons_of_some h]
      simp only [reduceCtorEq, false_iff]
      rintro ⟨⟨hs, -⟩, hk⟩
      rw [(Emission.fault?_eq_none_iff hb).mpr ⟨hs, by omega⟩] at h
      cases h

theorem take_size_append {α : Type} (xs : Array α) (ys : List α) :
    (xs ++ ys).take xs.size = xs := by
  apply Array.toList_inj.mp
  simp

/-- Cutting back to the old sizes takes away all that was added since. -/
theorem truncate_extend (b : Bytecode) (es : List Expr) :
    (b.extend es).truncate b.code.size b.constants.size = b := by
  rw [truncate, extend, take_size_append, take_size_append]

/-- A program is added whole or not at all. -/
theorem addProgram_eq (b : Bytecode) (p : Program) :
    b.addProgram p = match (b.addNodes p.nodes).1 with
      | .ok () => (.ok (), b.extend p.nodes)
      | .error f => (.error f, b) := by
  obtain ⟨done, -, hb, hok⟩ := addNodes_snd b p.nodes
  cases h : b.addNodes p.nodes with
  | mk result b' =>
    rw [h] at hb hok
    dsimp only at hb hok
    subst hb
    cases result with
    | ok _ => simp only [addProgram, runFrom_accept_generator, h, hok rfl]
    | error f => simp only [addProgram, runFrom_accept_generator, h, truncate_extend]

theorem addProgram_fst (b : Bytecode) (p : Program) :
    (b.addProgram p).1 = (b.addNodes p.nodes).1 := by
  rw [addProgram_eq]
  split <;> simp only [*]

theorem addProgram_of_ok {b : Bytecode} {p : Program} (h : (b.addProgram p).1 = .ok ()) :
    (b.addProgram p).2 = b.extend p.nodes := by
  rw [addProgram_fst] at h
  rw [addProgram_eq, h]

theorem addProgram_of_error {b : Bytecode} {p : Program} {f : Fault}
    (h : (b.addProgram p).1 = .error f) : (b.addProgram p).2 = b := by
  rw [addProgram_fst] at h
  rw [addProgram_eq, h]

end Bytecode

theorem Program.compile_eq_ok_iff {p : Program} {b : Bytecode} :
    p.compile = .ok b ↔ (∀ e ∈ p.nodes, e.Supported) ∧
      (Emission.literals p.nodes).length ≤ maxConstants ∧ b = Bytecode.empty.extend p.nodes := by
  have hiff : (Bytecode.empty.addNodes p.nodes).1 = .ok () ↔ _ :=
    Bytecode.addNodes_fst_eq_ok_iff (by decide)
  have hzero : Bytecode.empty.constants.size = 0 := rfl
  rw [hzero, Nat.zero_add] at hiff
  rw [← and_assoc, ← hiff, compile, Bytecode.addProgram_eq]
  cases (Bytecode.empty.addNodes p.nodes).1 with
  | ok _ => simp [eq_comm]
  | error f => simp

theorem Program.nodes_mapSpan (f : Span → Span) (p : Program) :
    (p.mapSpan f).nodes = p.nodes.map (Expr.mapSpan f) := by
  simp [nodes, mapSpan, Statement.mapSpan, List.flatMap_map, List.map_flatMap,
    Expr.postorder_mapSpan]

/-- The code of a program does not depend on its spans. -/
theorem Program.compile_mapSpan_eq_ok_iff {f : Span → Span} {p : Program} {b : Bytecode} :
    (p.mapSpan f).compile = .ok b ↔ p.compile = .ok b := by
  have hs : (∀ e ∈ (p.mapSpan f).nodes, e.Supported) ↔ ∀ e ∈ p.nodes, e.Supported := by
    simp [nodes_mapSpan, Expr.supported_mapSpan_iff]
  have he : Bytecode.empty.extend (p.mapSpan f).nodes = Bytecode.empty.extend p.nodes := by
    simp only [Bytecode.extend, nodes_mapSpan, Emission.code_mapSpan, Emission.literals_mapSpan]
  rw [compile_eq_ok_iff, compile_eq_ok_iff, hs, he, nodes_mapSpan, Emission.literals_mapSpan]

theorem Program.literals_nodes (p : Program) : Emission.literals p.nodes = p.literals := by
  rw [nodes, literals]
  induction p.statements with
  | nil => rfl
  | cons s ss ih => simp [ih]

namespace Bytecode

/-- Code generation succeeds exactly when every operator is a sum and every literal finds an index.
It then adds a constant for each literal, equal or not, and the instructions of the statements. -/
theorem addProgram_emits (b : Bytecode) (p : Program) (hb : b.constants.size ≤ maxConstants) :
    ((b.addProgram p).1 = .ok () ↔ (∀ op ∈ p.operators, op = .plus) ∧
      b.constants.size + p.literals.length ≤ maxConstants) ∧
    ((b.addProgram p).1 = .ok () →
      (b.addProgram p).2.constants.toList = b.constants.toList ++ p.literals.map .integer ∧
      (b.addProgram p).2.code.toList =
        b.code.toList ++ Statement.bytes b.constants.size p.statements) := by
  constructor
  · rw [addProgram_fst, addNodes_fst_eq_ok_iff hb, p.forall_supported_iff, p.literals_nodes]
  · intro h
    rw [addProgram_of_ok h, ← Emission.code_flatMap_postorder, ← p.literals_nodes]
    exact ⟨Array.toList_appendList .., Array.toList_appendList ..⟩

/-- The last index of a pool is given out, and it fills both bytes of the operand. -/
theorem addProgram_emits_last_index :
    (addProgram ⟨#[], .replicate 65535 (.boolean true)⟩
      ⟨[.ofExpr (.literal ⟨0, 1⟩ 7)]⟩).1 = .ok () ∧
    (addProgram ⟨#[], .replicate 65535 (.boolean true)⟩
      ⟨[.ofExpr (.literal ⟨0, 1⟩ 7)]⟩).2.code.toList = [0, 255, 255] := by
  obtain ⟨hiff, hcode⟩ := addProgram_emits ⟨#[], .replicate 65535 (.boolean true)⟩
    ⟨[.ofExpr (.literal ⟨0, 1⟩ 7)]⟩ (by simp [maxConstants])
  have hok := hiff.mpr ⟨by simp [Program.operators, Statement.ofExpr, Expr.operators],
    by simp [Program.literals, Statement.ofExpr, Expr.literals, maxConstants]⟩
  refine ⟨hok, (hcode hok).2.trans ?_⟩
  simp [Statement.bytes, Statement.ofExpr, Expr.bytes, Opcode.byte]

end Bytecode

end ByteCalc
