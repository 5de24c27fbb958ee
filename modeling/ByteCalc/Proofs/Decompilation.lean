import ByteCalc.Proofs.Disassembly
import ByteCalc.Proofs.Emission
import ByteCalc.Proofs.SpanErasure

/-! # Programs from their code

The code of a program is its expressions in postfix form, back to back. Going
through the listing with a stack of expressions finds them again, so a program
is determined by its code and its constants, except for its spans.
-/

namespace ByteCalc

/-- Go on by one entry, with the latest expression first: a constant is a literal, and an addition
joins the two latest expressions. -/
def Entry.rebuild (pool : Array Val) (es : List Expr) : Entry → Option (List Expr)
  | instruction .constant [k] =>
    match pool[k]? with
    | some (.integer n) => some (.literal .nowhere n :: es)
    | _ => none
  | instruction .add [] =>
    match es with
    | r :: l :: es => some (.binary .nowhere .plus l r :: es)
    | _ => none
  | _ => none

namespace Bytecode

/-- The expressions of some code, on top of those found before. -/
def rebuild (pool : Array Val) (code : List UInt8) (es : List Expr) : Option (List Expr) :=
  (Listing.entries code).foldlM (Entry.rebuild pool) es

/-- The program that some bytecode computes, if its code leaves whole expressions. -/
def decompile (b : Bytecode) : Option Program := do
  let es ← rebuild b.constants b.code.toList []
  return ⟨es.reverse.map .ofExpr⟩

variable {pool : Array Val} {k : Nat}

@[simp] theorem rebuild_nil (es : List Expr) : rebuild pool [] es = some es := by
  rw [rebuild, Listing.entries_nil]
  rfl

theorem rebuild_constant {n : Int64} (hk : k < BigEndian.limit 2)
    (hv : pool[k]? = some (.integer n)) (rest : List UInt8) (es : List Expr) :
    rebuild pool (Opcode.constant.byte :: BigEndian.encode 2 k ++ rest) es =
      rebuild pool rest (.literal .nowhere n :: es) := by
  rw [rebuild, Listing.entries_constant hk, List.foldlM_cons, Entry.rebuild, hv]
  rfl

theorem rebuild_add (rest : List UInt8) (l r : Expr) (es : List Expr) :
    rebuild pool (Opcode.add.byte :: rest) (r :: l :: es) =
      rebuild pool rest (.binary .nowhere .plus l r :: es) := by
  rw [rebuild, Listing.entries_add, List.foldlM_cons]
  rfl

/-- The code of an expression gives the expression, whatever lies below it and whatever code
follows. -/
theorem rebuild_postorder {e : Expr} (hs : ∀ e' ∈ e.postorder, e'.Supported)
    (hp : Emission.Pooled pool k e.postorder) (hk : k + e.literals.length ≤ maxConstants)
    (rest : List UInt8) (es : List Expr) :
    rebuild pool (Emission.code k e.postorder ++ rest) es = rebuild pool rest (e.erase :: es) := by
  induction e generalizing k rest es with
  | literal s n =>
    have hlt : k < BigEndian.limit 2 := hk
    exact rebuild_constant hlt hp.getElem?_eq rest es
  | binary s op l r ihl ihr =>
    rw [Expr.postorder_binary] at hs hp ⊢
    simp only [List.forall_mem_append, List.forall_mem_singleton] at hs
    obtain ⟨⟨hsl, hsr⟩, rfl⟩ := hs
    rw [Expr.literals, List.length_append] at hk
    rw [Emission.code_append, Emission.code_append, List.append_assoc, List.append_assoc,
      ihl hsl hp.left.left (by omega),
      ihr hsr hp.left.right (by rw [Emission.literals_postorder]; omega)]
    exact rebuild_add rest l.erase r.erase es

theorem rebuild_statements {ss : List Statement}
    (hs : ∀ e ∈ ss.flatMap (·.expr.postorder), e.Supported)
    (hp : Emission.Pooled pool k (ss.flatMap (·.expr.postorder)))
    (hk : k + (Emission.literals (ss.flatMap (·.expr.postorder))).length ≤ maxConstants)
    (es : List Expr) :
    rebuild pool (Emission.code k (ss.flatMap (·.expr.postorder))) es =
      some ((ss.map (·.expr.erase)).reverse ++ es) := by
  induction ss generalizing k es with
  | nil => exact rebuild_nil es
  | cons s ss ih =>
    rw [List.flatMap_cons] at hs hp hk ⊢
    rw [List.forall_mem_append] at hs
    rw [Emission.literals_append, List.length_append, Emission.literals_postorder] at hk
    rw [Emission.code_append, rebuild_postorder hs.1 hp.left (by omega),
      ih hs.2 hp.right (by rw [Emission.literals_postorder]; omega)]
    simp

end Bytecode

namespace Program

variable {p q : Program} {b b' : Bytecode}

/-- Decompiling undoes compiling, up to spans. -/
theorem decompile_of_compile (h : p.compile = .ok b) : b.decompile = some p.erase := by
  obtain ⟨hs, hk, rfl⟩ := compile_eq_ok_iff.mp h
  have hcode : (Bytecode.empty.extend p.nodes).code.toList = Emission.code 0 p.nodes := by
    simp [Bytecode.extend, Bytecode.empty]
  have hexprs : Bytecode.rebuild (Bytecode.empty.extend p.nodes).constants
      (Emission.code 0 p.nodes) [] = some ((p.statements.map (·.expr.erase)).reverse ++ []) :=
    Bytecode.rebuild_statements hs (Bytecode.pooled_extend .empty p.nodes)
      ((Nat.zero_add _).le.trans hk) []
  have hstatement (s : Statement) : Statement.ofExpr s.expr.erase = s.erase := by
    rw [← Statement.erase_ofExpr]
    exact Statement.erase_eq_iff.mpr rfl
  rw [Bytecode.decompile, hcode, hexprs]
  simp [erase, mapSpan, hstatement, Statement.erase]

/-- Programs have the same code and the same constants just if they differ in spans only. -/
theorem compile_determines (hp : p.compile = .ok b) (hq : q.compile = .ok b') :
    b.code = b'.code ∧ b.constants = b'.constants ↔ p.erase = q.erase := by
  constructor
  · rintro ⟨hcode, hconstants⟩
    obtain rfl : b = b' := by
      cases b
      cases b'
      simp_all
    exact Option.some.inj ((decompile_of_compile hp).symm.trans (decompile_of_compile hq))
  · intro he
    have hpe : p.erase.compile = .ok b := compile_mapSpan_eq_ok_iff.mpr hp
    have hqe : q.erase.compile = .ok b' := compile_mapSpan_eq_ok_iff.mpr hq
    rw [he] at hpe
    obtain rfl := Except.ok.inj (hpe.symm.trans hqe)
    exact ⟨rfl, rfl⟩

/-- The sums `(1 + 2) + 3` and `1 + (2 + 3)` have the same literals and not the same code. -/
theorem compile_determines_nesting :
    ∃ (p q : Program) (b b' : Bytecode), p.literals = q.literals ∧ p.compile = .ok b ∧
      q.compile = .ok b' ∧ b.constants = b'.constants ∧ b.code ≠ b'.code := by
  let p : Program := ⟨[.ofExpr (.join .plus (.join .plus (.literal ⟨1, 2⟩ 1) (.literal ⟨5, 6⟩ 2))
    (.literal ⟨10, 11⟩ 3))]⟩
  let q : Program := ⟨[.ofExpr (.join .plus (.literal ⟨0, 1⟩ 1)
    (.join .plus (.literal ⟨5, 6⟩ 2) (.literal ⟨9, 10⟩ 3)))]⟩
  have hp : p.compile = .ok ⟨#[0, 0, 0, 0, 0, 1, 1, 0, 0, 2, 1],
    #[.integer 1, .integer 2, .integer 3]⟩ := rfl
  have hq : q.compile = .ok ⟨#[0, 0, 0, 0, 0, 1, 0, 0, 2, 1, 1],
    #[.integer 1, .integer 2, .integer 3]⟩ := rfl
  refine ⟨p, q, _, _, rfl, hp, hq, rfl, fun hcode => ?_⟩
  exact absurd ((compile_determines hp hq).mp ⟨hcode, rfl⟩) (by decide)

end Program

end ByteCalc
