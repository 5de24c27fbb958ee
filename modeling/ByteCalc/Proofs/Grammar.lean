import Mathlib.Data.List.Forall2
import Mathlib.Data.List.Induction
import Mathlib.Data.Nat.Digits.Defs
import ByteCalc.Program.Parser

/-! # The grammar

Operators stand on four levels, each of which associates to the left, over
literals and parenthesised expressions. A program is a sequence of expressions
with semicolons between, before and after them. Spans have no part in it.
-/

namespace ByteCalc

/-- The digits of a number in decimal, the most significant one first. -/
structure Digits (ds : List Char) (n : Nat) : Prop where
  ne_nil : ds ≠ []
  isDigit : ∀ d ∈ ds, d.isDigit
  value : n = Nat.ofDigits 10 (ds.reverse.map fun d => d.toNat - '0'.toNat)

/-- Digits, with a sign before them or without. -/
inductive Numeral : List Char → Int → Prop where
  | unsigned {ds : List Char} {n : Nat} : Digits ds n → Numeral ds n
  | plus {ds : List Char} {n : Nat} : Digits ds n → Numeral ('+' :: ds) n
  | minus {ds : List Char} {n : Nat} : Digits ds n → Numeral ('-' :: ds) (-n)

/-- A numeral without a sign is the numeral of a natural number. -/
theorem Numeral.exists_digits {cs : List Char} {z : Int} (h : Numeral cs z)
    (hcs : ∀ c ∈ cs, c.isDigit) : ∃ k : Nat, Digits cs k ∧ z = k := by
  cases h with
  | unsigned hk => exact ⟨_, hk, rfl⟩
  | plus => exact absurd (hcs '+' List.mem_cons_self) (by decide)
  | minus => exact absurd (hcs '-' List.mem_cons_self) (by decide)

namespace Grammar

/-- The operators of a level. The higher the level the tighter they bind. -/
def operators : Nat → List Operator
  | 1 => [.equal, .notEqual]
  | 2 => [.less, .greater]
  | 3 => [.plus, .minus]
  | 4 => [.times, .divide]
  | _ => []

/-- The level of literals and parentheses. -/
def primary : Nat := 5

/-- The tokens of an expression of a level. Expressions as such are those of level one. -/
inductive Derives : Nat → List Token → Expr → Prop where
  | literal {cs : List Char} {s : Span} {n : Int64} :
    Numeral cs n.toInt → Derives primary [.integer cs] (.literal s n)
  | group {ts : List Token} {e : Expr} :
    Derives 1 ts e → Derives primary (.openParen :: ts ++ [.closeParen]) e
  | tighter {level : Nat} {ts : List Token} {e : Expr} :
    level < primary → Derives (level + 1) ts e → Derives level ts e
  | binary {level : Nat} {op : Operator} {s : Span} {ls rs : List Token} {l r : Expr} :
    op ∈ operators level → Derives level ls l → Derives (level + 1) rs r →
      Derives level (ls ++ .operator op :: rs) (.binary s op l r)

/-- The tokens of a sequence of statements. -/
inductive Statements : List Token → List Statement → Prop where
  | nil : Statements [] []
  | skip {ts : List Token} {ss : List Statement} :
    Statements ts ss → Statements (.semicolon :: ts) ss
  | last {ts : List Token} {s : Span} {e : Expr} : Derives 1 ts e → Statements ts [⟨s, e⟩]
  | cons {ts us : List Token} {s : Span} {e : Expr} {ss : List Statement} :
    Derives 1 ts e → Statements us ss → Statements (ts ++ .semicolon :: us) (⟨s, e⟩ :: ss)

/-- Whether a program comes from some tokens, whatever blanks stand between them. -/
def Generates (ts : List Token) (p : Program) : Prop :=
  Statements (ts.filter (!·.isBlank)) p.statements

theorem mem_operators_iff {op : Operator} {level : Nat} :
    op ∈ operators level ↔ op.precedence = level := by
  constructor
  · intro h
    unfold operators at h
    split at h <;> simp only [List.mem_cons, List.not_mem_nil, or_false] at h
    all_goals obtain rfl | rfl := h <;> rfl
  · rintro rfl
    cases op <;> decide

theorem Derives.mono {i j : Nat} {ts : List Token} {e : Expr} (h : Derives j ts e) (hij : i ≤ j)
    (hj : j ≤ primary) : Derives i ts e := by
  induction hij with
  | refl => exact h
  | step hij ih => exact ih (.tighter hj h) (Nat.le_of_lt hj)

end Grammar

/-- A literal or an operator of an expression. -/
inductive Symbol where
  | value (n : Int64)
  | operator (op : Operator)

/-- The tokens that a symbol is written as. -/
inductive Symbol.Spelled : Token → Symbol → Prop where
  | value {cs : List Char} {n : Int64} : Numeral cs n.toInt → Spelled (.integer cs) (.value n)
  | operator {op : Operator} : Spelled (.operator op) (.operator op)

def Token.isSymbol : Token → Bool
  | integer _ | operator _ => true
  | _ => false

/-- Literals and operators from left to right. -/
def Expr.symbols : Expr → List Symbol
  | literal _ n => [.value n]
  | binary _ op l r => l.symbols ++ .operator op :: r.symbols

def Program.symbols (p : Program) : List Symbol := p.statements.flatMap (·.expr.symbols)

namespace Grammar

theorem Derives.spelled {level : Nat} {ts : List Token} {e : Expr} (h : Derives level ts e) :
    List.Forall₂ Symbol.Spelled (ts.filter Token.isSymbol) e.symbols := by
  induction h with
  | literal hn => exact .cons (.value hn) .nil
  | group _ ih => simpa [Token.isSymbol] using ih
  | tighter _ _ ih => exact ih
  | binary _ _ _ ihl ihr =>
    rw [List.filter_append, List.filter_cons_of_pos rfl]
    exact List.rel_append ihl (.cons .operator ihr)

theorem Statements.spelled {ts : List Token} {ss : List Statement} (h : Statements ts ss) :
    List.Forall₂ Symbol.Spelled (ts.filter Token.isSymbol) (ss.flatMap (·.expr.symbols)) := by
  induction h with
  | nil => exact .nil
  | skip _ ih => exact ih
  | last he => simpa using he.spelled
  | cons he _ ih =>
    rw [List.filter_append, List.filter_cons_of_neg Bool.false_ne_true, List.flatMap_cons]
    exact List.rel_append he.spelled ih

theorem isSymbol_of_isBlank {t : Token} (h : t.isBlank) : t.isSymbol = false := by
  cases t with
  | blank => rfl
  | _ => cases h

/-- Every integer and every operator of the tokens stands in the program, in its place. -/
theorem Generates.spelled {ts : List Token} {p : Program} (h : Generates ts p) :
    List.Forall₂ Symbol.Spelled (ts.filter Token.isSymbol) p.symbols := by
  have hts : (ts.filter (!·.isBlank)).filter Token.isSymbol = ts.filter Token.isSymbol := by
    rw [List.filter_filter]
    refine List.filter_congr fun t _ => ?_
    cases hb : t.isBlank
    · simp
    · simp [isSymbol_of_isBlank hb]
  exact hts ▸ Statements.spelled h

end Grammar

namespace Integer

theorem ofDigits_eq (ds : List Char) :
    ofDigits ds = Nat.ofDigits 10 (ds.reverse.map fun d => d.toNat - '0'.toNat) := by
  induction ds using List.reverseRecOn with
  | nil => rfl
  | append_singleton ds d ih =>
    rw [List.reverse_append, List.reverse_singleton, List.singleton_append, List.map_cons,
      Nat.ofDigits_cons, ← ih]
    simp [ofDigits, Nat.add_comm]

theorem isNumeral_iff {ds : List Char} : isNumeral ds ↔ Digits ds (ofDigits ds) := by
  simp only [isNumeral, Bool.and_eq_true, Bool.not_eq_true', List.isEmpty_eq_false_iff,
    List.all_eq_true]
  exact ⟨fun h => ⟨h.1, h.2, ofDigits_eq ds⟩, fun h => ⟨h.ne_nil, h.isDigit⟩⟩

theorem ofDigits_of_digits {ds : List Char} {n : Nat} (h : Digits ds n) : ofDigits ds = n := by
  rw [ofDigits_eq, h.value]

theorem readInt?_of_digits {ds : List Char} (h : isNumeral ds) :
    readInt? ds = some ↑(ofDigits ds) := by
  have hd := (isNumeral_iff.mp h).isDigit
  unfold readInt?
  split
  · exact absurd (hd _ List.mem_cons_self) (by decide)
  · exact absurd (hd _ List.mem_cons_self) (by decide)
  · rw [if_pos h]

theorem readInt?_eq_some_iff {cs : List Char} {n : Int} :
    readInt? cs = some n ↔ Numeral cs n := by
  constructor
  · intro h
    unfold readInt? at h
    split at h <;> split at h <;> cases h
    · next hd => exact .minus (isNumeral_iff.mp hd)
    · next hd => exact .plus (isNumeral_iff.mp hd)
    · next hd => exact .unsigned (isNumeral_iff.mp hd)
  · intro h
    cases h with
    | unsigned hd =>
      obtain rfl := ofDigits_of_digits hd
      exact readInt?_of_digits (isNumeral_iff.mpr hd)
    | plus hd =>
      obtain rfl := ofDigits_of_digits hd
      exact if_pos (isNumeral_iff.mpr hd)
    | minus hd =>
      obtain rfl := ofDigits_of_digits hd
      exact if_pos (isNumeral_iff.mpr hd)

/-- Words are read from the numerals of the integers that fit. -/
theorem read?_eq_some_iff {cs : List Char} {n : Int64} :
    read? cs = some n ↔ Numeral cs n.toInt := by
  rw [read?, Option.bind_eq_some_iff, ← readInt?_eq_some_iff]
  constructor
  · rintro ⟨z, hz, hn⟩
    rw [hz, ofInt?_eq_some_iff.mp hn]
  · intro h
    exact ⟨_, h, ofInt?_eq_some_iff.mpr rfl⟩

end Integer

end ByteCalc
