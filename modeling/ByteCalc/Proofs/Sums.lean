import Mathlib.Algebra.Order.BigOperators.Group.List
import Mathlib.Data.List.MinMax
import ByteCalc.Proofs.DirectEvaluation
import ByteCalc.Proofs.Lexing
import ByteCalc.Proofs.Recognition
import ByteCalc.Proofs.Slicing

/-! # The value of a text of sums

Literals are never negative in a text, so no partial sum exceeds the total. A
statement therefore overflows exactly when the sum of its literals does not fit,
in whatever order its additions are made.
-/

namespace ByteCalc

theorem Integer.fits_iff_lt {n : Int} (h : 0 ≤ n) : Fits n ↔ n < 2 ^ 63 := by
  rw [Fits, Int64.toInt_minValue, Int64.toInt_maxValue]
  omega

theorem Integer.toInt_ofInt_of_fits {n : Int} (h : Fits n) : (Int64.ofInt n).toInt = n :=
  Int64.toInt_ofInt_of_le h.1 (Int.lt_add_one_of_le h.2)

namespace Expr

/-- The slots that an evaluation takes. The left operand keeps one while the right operand is
evaluated. -/
def need : Expr → Nat
  | literal .. => 1
  | binary _ _ l r => max l.need (1 + r.need)

/-- The exact sum of the literals. -/
def total (e : Expr) : Int := (e.literals.map Int64.toInt).sum

@[simp] theorem total_literal (s : Span) (n : Int64) : (literal s n).total = n.toInt := by
  simp [total, literals]

@[simp] theorem total_binary (s : Span) (op : Operator) (l r : Expr) :
    (binary s op l r).total = l.total + r.total := by
  simp [total, literals]

variable {capacity depth : Nat} {e : Expr}

theorem total_nonneg (h : ∀ n ∈ e.literals, 0 ≤ n.toInt) : 0 ≤ e.total := by
  apply List.sum_nonneg
  intro z hz
  obtain ⟨n, hn, rfl⟩ := List.mem_map.mp hz
  exact h n hn

/-- A node whose operator is a sum with an exact result that fits. -/
def Summable (e : Expr) : Prop := e.Supported ∧ Integer.Fits e.total

theorem mem_postorder_self (e : Expr) : e ∈ e.postorder := by
  cases e <;> simp [postorder_binary]

/-- Sums that fit have a value just if there is room for it. -/
theorem value_of_summable (h : ∀ e' ∈ e.postorder, e'.Summable) :
    e.value capacity depth = if depth + e.need ≤ capacity then .ok (.ofInt e.total)
      else .error .operandStackFull := by
  induction e generalizing depth with
  | literal s n =>
    rw [value, total_literal, Int64.ofInt_toInt]
    rfl
  | binary s op l r ihl ihr =>
    rw [postorder_binary] at h
    simp only [List.forall_mem_append, List.forall_mem_singleton] at h
    obtain ⟨⟨hl, hr⟩, rfl, hfits⟩ := h
    have hroom : depth + (binary s .plus l r).need ≤ capacity ↔
        depth + l.need ≤ capacity ∧ depth + 1 + r.need ≤ capacity := by
      rw [need]
      omega
    rw [if_congr hroom rfl rfl]
    by_cases hl' : depth + l.need ≤ capacity
    · have hvl := (ihl hl).trans (if_pos hl')
      by_cases hr' : depth + 1 + r.need ≤ capacity
      · have hvr := (ihr hr).trans (if_pos hr')
        rw [if_pos ⟨hl', hr'⟩]
        refine value_binary_eq_ok_iff.mpr ⟨_, _, hvl, hvr, rfl, ?_, ?_⟩
        · rw [Integer.toInt_ofInt_of_fits (hl l l.mem_postorder_self).2,
            Integer.toInt_ofInt_of_fits (hr r r.mem_postorder_self).2, ← total_binary]
          exact hfits
        · rw [total_binary, Int64.ofInt_add]
      · rw [if_neg fun h => hr' h.2]
        exact value_binary_eq_error_iff.mpr (.inr (.inl ⟨_, hvl, (ihr hr).trans (if_neg hr')⟩))
    · rw [if_neg fun h => hl' h.1]
      exact value_binary_eq_error_iff.mpr (.inl ((ihl hl).trans (if_neg hl')))

/-- An expression that adds up literals of a text and finds room above `depth` slots. -/
structure SumAbove (capacity depth : Nat) (e : Expr) : Prop where
  supported : ∀ e' ∈ e.postorder, e'.Supported
  nonneg : ∀ n ∈ e.literals, 0 ≤ n.toInt
  room : depth + e.need ≤ capacity

namespace SumAbove

theorem operands {s : Span} {op : Operator} {l r : Expr}
    (h : (binary s op l r).SumAbove capacity depth) :
    op = .plus ∧ l.SumAbove capacity depth ∧ r.SumAbove capacity (depth + 1) := by
  obtain ⟨hs, hn, hd⟩ := h
  rw [postorder_binary] at hs
  simp only [List.forall_mem_append, List.forall_mem_singleton] at hs
  rw [literals, List.forall_mem_append] at hn
  rw [need] at hd
  exact ⟨hs.2, ⟨hs.1.1, hn.1, by omega⟩, ⟨hs.1.2, hn.2, by omega⟩⟩

theorem fits_of_lt (h : e.SumAbove capacity depth) (ht : e.total < 2 ^ 63) :
    ∀ e' ∈ e.postorder, Integer.Fits e'.total := by
  induction e generalizing depth with
  | literal s n =>
    rw [postorder_literal, List.forall_mem_singleton]
    exact (Integer.fits_iff_lt (total_nonneg h.nonneg)).mpr ht
  | binary s op l r ihl ihr =>
    obtain ⟨-, hl, hr⟩ := h.operands
    have hl0 := total_nonneg hl.nonneg
    have hr0 := total_nonneg hr.nonneg
    have hfits := (Integer.fits_iff_lt (total_nonneg h.nonneg)).mpr ht
    rw [total_binary] at ht
    rw [postorder_binary]
    simp only [List.forall_mem_append, List.forall_mem_singleton]
    exact ⟨⟨ihl hl (by omega), ihr hr (by omega)⟩, hfits⟩

theorem value_of_lt (h : e.SumAbove capacity depth) (ht : e.total < 2 ^ 63) :
    e.value capacity depth = .ok (Int64.ofInt e.total) := by
  rw [value_of_summable fun e' he' => ⟨h.supported e' he', h.fits_of_lt ht e' he'⟩]
  exact if_pos h.room

/-- Some partial sum exceeds the range if the total does. -/
theorem value_of_le (h : e.SumAbove capacity depth) (ht : 2 ^ 63 ≤ e.total) :
    e.value capacity depth = .error .sumRange := by
  induction e generalizing depth with
  | literal s n =>
    rw [total_literal] at ht
    exact absurd ht (Int.not_le.mpr n.toInt_lt)
  | binary s op l r ihl ihr =>
    obtain ⟨hop, hl, hr⟩ := h.operands
    have hl0 := total_nonneg hl.nonneg
    have hr0 := total_nonneg hr.nonneg
    rw [total_binary] at ht
    rw [value_binary_eq_error_iff]
    -- either an operand exceeds the range already, or the two stay below and their sum does
    rcases Int.lt_or_le l.total (2 ^ 63) with hlt | hlt
    · rcases Int.lt_or_le r.total (2 ^ 63) with hrt | hrt
      · refine .inr (.inr ⟨_, _, hl.value_of_lt hlt, hr.value_of_lt hrt, .inr ⟨hop, ?_, rfl⟩⟩)
        rw [Int64.toInt_ofInt_of_le (by omega) hlt, Int64.toInt_ofInt_of_le (by omega) hrt,
          Integer.fits_iff_lt (Int.add_nonneg hl0 hr0)]
        exact Int.not_lt.mpr ht
      · exact .inr (.inl ⟨_, hl.value_of_lt hlt, ihr hr hrt⟩)
    · exact .inl (ihl hl hlt)

end SumAbove

end Expr

namespace Statement

variable {capacity depth : Nat} {s : Statement} {ss : List Statement}

def SumsAbove (capacity depth : Nat) (ss : List Statement) : Prop :=
  ∀ i (s : Statement), ss[i]? = some s → s.expr.SumAbove capacity (depth + i)

namespace SumsAbove

theorem head (h : SumsAbove capacity depth (s :: ss)) : s.expr.SumAbove capacity depth :=
  h 0 s rfl

theorem tail (h : SumsAbove capacity depth (s :: ss)) : SumsAbove capacity (depth + 1) ss := by
  intro i s' hi
  rw [Nat.add_assoc, Nat.add_comm 1]
  exact h (i + 1) s' hi

theorem values_of_lt (h : SumsAbove capacity depth ss) (ht : ∀ s ∈ ss, s.expr.total < 2 ^ 63) :
    values capacity depth ss = .ok (ss.map fun s => Int64.ofInt s.expr.total) := by
  induction ss generalizing depth with
  | nil => rfl
  | cons s ss ih =>
    rw [List.forall_mem_cons] at ht
    exact values_cons_eq_ok_iff.mpr ⟨_, _, h.head.value_of_lt ht.1, ih h.tail ht.2, rfl⟩

theorem values_of_le (h : SumsAbove capacity depth ss) (hs : s ∈ ss)
    (ht : 2 ^ 63 ≤ s.expr.total) : values capacity depth ss = .error .sumRange := by
  induction ss generalizing depth with
  | nil => cases hs
  | cons s' ss ih =>
    rw [values_cons_eq_error_iff]
    rcases Int.lt_or_le s'.expr.total (2 ^ 63) with hlt | hle
    · rcases List.mem_cons.mp hs with rfl | hmem
      · exact absurd ht (Int.not_le.mpr hlt)
      · exact .inr ⟨_, h.head.value_of_lt hlt, ih h.tail hmem⟩
    · exact .inl (h.head.value_of_le hle)

end SumsAbove

end Statement

theorem Numeral.nonneg {cs : List Char} {z : Int} (h : Numeral cs z) (hd : ∀ c ∈ cs, c.isDigit) :
    0 ≤ z := by
  obtain ⟨k, -, rfl⟩ := h.exists_digits hd
  exact Int.natCast_nonneg k

theorem nonneg_of_spelled {ts : List Token} {xs : List Symbol}
    (h : List.Forall₂ Symbol.Spelled ts xs)
    (hts : ∀ cs, .integer cs ∈ ts → ∀ c ∈ cs, c.isDigit) :
    ∀ n, .value n ∈ xs → 0 ≤ n.toInt := by
  induction h with
  | nil => exact nofun
  | cons hx _ ih =>
    intro n hn
    rcases List.mem_cons.mp hn with rfl | hn
    · cases hx with
      | value hnum => exact hnum.nonneg (hts _ List.mem_cons_self)
    · exact ih (fun cs hcs => hts cs (List.mem_cons_of_mem _ hcs)) n hn

theorem Expr.mem_literals_iff {e : Expr} {n : Int64} :
    n ∈ e.literals ↔ Symbol.value n ∈ e.symbols := by
  induction e with
  | literal s m => simp [literals, symbols]
  | binary s op l r ihl ihr => simp [literals, symbols, ihl, ihr]

/-- A text has no signs, so its literals are not negative. -/
theorem nonneg_of_parse {source : String} {p : Program} (h : parse source = some (.ok p)) :
    ∀ s ∈ p.statements, ∀ n ∈ s.expr.literals, 0 ≤ n.toInt := by
  intro s hs n hn
  have hsp := (exists_parseTokens_iff.mp ⟨p, h, rfl⟩).2.spelled
  refine nonneg_of_spelled hsp ?_ n (List.mem_flatMap.mpr ⟨s, hs, Expr.mem_literals_iff.mp hn⟩)
  intro cs hcs
  exact isDigit_of_mem_lex (List.mem_of_mem_filter hcs)

namespace Program

/-- The slots that a program takes, since every statement leaves its value behind. -/
def need (p : Program) : Nat := (p.statements.mapIdx fun i s => i + s.expr.need).foldr max 0

/-- A program that adds up literals and nothing else, within the limits of a machine. -/
structure IsSum (p : Program) : Prop where
  supported : ∀ e ∈ p.nodes, e.Supported
  constants : p.literals.length ≤ maxConstants
  room : p.need ≤ Machine.defaultCapacity

variable {p : Program}

theorem IsSum.length_literals (h : p.IsSum) :
    (Emission.literals p.nodes).length ≤ maxConstants :=
  p.literals_nodes ▸ h.constants

theorem add_need_le {i : Nat} {s : Statement} (h : p.statements[i]? = some s) :
    i + s.expr.need ≤ p.need := by
  obtain ⟨hi, rfl⟩ := List.getElem?_eq_some_iff.mp h
  exact List.le_max_of_le (List.mem_mapIdx.mpr ⟨i, hi, rfl⟩) le_rfl

theorem IsSum.sumsAbove (h : p.IsSum)
    (hn : ∀ s ∈ p.statements, ∀ n ∈ s.expr.literals, 0 ≤ n.toInt) :
    Statement.SumsAbove Machine.defaultCapacity 0 p.statements := by
  intro i s hi
  have hs : s ∈ p.statements := List.mem_of_getElem? hi
  refine ⟨fun e he => h.supported e (List.mem_flatMap.mpr ⟨s, hs, he⟩), hn s hs, ?_⟩
  rw [Nat.zero_add]
  exact Nat.le_trans (add_need_le hi) h.room

def totals (p : Program) : List Int := p.statements.map (·.expr.total)

/-- Only the literals of each statement count, not how they are put together. -/
theorem totals_congr {q : Program}
    (h : p.statements.map (·.expr.literals) = q.statements.map (·.expr.literals)) :
    p.totals = q.totals := by
  have ht (p : Program) : p.totals =
      (p.statements.map (·.expr.literals)).map fun ns => (ns.map Int64.toInt).sum := by
    rw [List.map_map]
    rfl
  rw [ht, ht, h]

end Program

/-- The last of some sums, if all of them are in range. -/
def lastInRange (ts : List Int) : Except Fault (Option Val) :=
  if ∀ t ∈ ts, t < 2 ^ 63 then .ok (ts.getLast?.map fun t => .integer (.ofInt t))
  else .error .sumRange

variable {memory : Memory} {source : String} {p : Program}

theorem loadSource_of_isSum (hmem : memory.grants Machine.defaultCapacity)
    (hp : parse source = some (.ok p)) (h : p.IsSum) :
    loadSource memory source =
      some (.ok (.loaded (Bytecode.empty.extend p.nodes) Machine.defaultCapacity #[])) := by
  have hc := Program.compile_eq_ok_iff.mpr ⟨h.supported, h.length_literals, rfl⟩
  rw [loadSource, hp, Option.map_some]
  simp only [hc, bind, Except.bind]
  exact congrArg some (Machine.loadWith_eq_ok_iff.mpr ⟨hmem, rfl⟩)

/-- What the evaluation of a text of sums comes to. -/
theorem evaluate_eq_lastInRange (hmem : memory.grants Machine.defaultCapacity)
    (hp : parse source = some (.ok p)) (h : p.IsSum) :
    evaluate memory source (.still false) = (some (lastInRange p.totals), .still false) := by
  have hk := h.length_literals
  have hsums := h.sumsAbove (nonneg_of_parse hp)
  rw [evaluate, loadSource_of_isSum hmem hp h]
  simp only [Machine.supervise_still]
  rw [Machine.answer, lastInRange]
  by_cases ht : ∀ t ∈ p.totals, t < 2 ^ 63
  · have hst : ∀ s ∈ p.statements, s.expr.total < 2 ^ 63 :=
      fun s hs => ht _ (List.mem_map_of_mem hs)
    rw [if_pos ht, Machine.run_loaded_of_ok hk (hsums.values_of_lt hst)]
    simp [Except.map, Stack.top?, Program.totals, Function.comp_def]
  · rw [if_neg ht]
    simp only [not_forall, Int.not_lt] at ht
    obtain ⟨t, hmem, hle⟩ := ht
    obtain ⟨s, hs, rfl⟩ := List.mem_map.mp hmem
    rw [(Machine.run_loaded_of_error h.supported hk (hsums.values_of_le hs hle)).1]
    rfl

/-- A text of sums has the value of its last statement, if no statement exceeds the range, and
overflows otherwise. How the additions of a statement are grouped makes no difference. -/
theorem evaluate_sums (hmem : memory.grants Machine.defaultCapacity)
    (hp : parse source = some (.ok p)) (h : p.IsSum) :
    (evaluate memory source (.still false)).2 = .still false ∧
    (p.statements = [] → (evaluate memory source (.still false)).1 = some (.ok none)) ∧
    (∀ s, p.statements.getLast? = some s → (∀ s' ∈ p.statements, s'.expr.total ≤ 2 ^ 63 - 1) →
      ∃ v : Int64, v.toInt = s.expr.total ∧
        (evaluate memory source (.still false)).1 = some (.ok (some (.integer v)))) ∧
    ((∃ s ∈ p.statements, ¬ s.expr.total ≤ 2 ^ 63 - 1) →
      ∃ f, (evaluate memory source (.still false)).1 = some (.error f) ∧
        f.category = .overflow) ∧
    ∀ source' p', parse source' = some (.ok p') → p'.IsSum →
      p'.statements.map (·.expr.literals) = p.statements.map (·.expr.literals) →
      evaluate memory source' (.still false) = evaluate memory source (.still false) := by
  rw [evaluate_eq_lastInRange hmem hp h]
  refine ⟨rfl, ?_, ?_, ?_, ?_⟩
  · intro hnil
    simp [Program.totals, hnil, lastInRange]
  · intro s hs ht
    have hmem : s ∈ p.statements := List.mem_of_getLast? hs
    have h0 : 0 ≤ s.expr.total := Expr.total_nonneg (nonneg_of_parse hp s hmem)
    have hlt : ∀ t ∈ p.totals, t < 2 ^ 63 :=
      List.forall_mem_map.mpr fun s' hs' => Int.lt_of_le_sub_one (ht s' hs')
    refine ⟨.ofInt s.expr.total, Int64.toInt_ofInt_of_le (by omega) ?_, ?_⟩
    · exact Int.lt_of_le_sub_one (ht s hmem)
    · refine (congrArg some (if_pos hlt)).trans ?_
      simp [Program.totals, hs]
  · rintro ⟨s, hs, ht⟩
    refine ⟨.sumRange, congrArg some (if_neg fun hall => ?_), rfl⟩
    have := hall _ (List.mem_map_of_mem hs)
    omega
  · intro source' p' hp' h' hl
    rw [evaluate_eq_lastInRange hmem hp' h', Program.totals_congr hl]

/-- The largest word is reached, and the text with the same literals in other groups reaches it
too. -/
theorem evaluate_sums_at_limit :
    (∃ v : Int64, v.toInt = 2 ^ 63 - 1 ∧
      (evaluate .addressSpace "7;9223372036854775800+(3+4)" (.still false)).1 =
        some (.ok (some (.integer v)))) ∧
    evaluate .addressSpace "7;9223372036854775800+3+4" (.still false) =
      evaluate .addressSpace "7;9223372036854775800+(3+4)" (.still false) := by
  have hlex : lex "7;9223372036854775800+(3+4)" = [.integer ['7'], .semicolon,
      .integer "9223372036854775800".toList, .operator .plus, .openParen, .integer ['3'],
      .operator .plus, .integer ['4'], .closeParen] := by
    decide +kernel
  have hlex' : lex "7;9223372036854775800+3+4" = [.integer ['7'], .semicolon,
      .integer "9223372036854775800".toList, .operator .plus, .integer ['3'],
      .operator .plus, .integer ['4']] := by
    decide +kernel
  have hp : parse "7;9223372036854775800+(3+4)" = some (.ok ⟨[.ofExpr (.literal ⟨0, 1⟩ 7),
      .ofExpr (.join .plus (.literal ⟨2, 21⟩ 9223372036854775800)
        (.join .plus (.literal ⟨23, 24⟩ 3) (.literal ⟨25, 26⟩ 4)))]⟩) := by
    rw [parse, hlex]
    rfl
  have hq : parse "7;9223372036854775800+3+4" = some (.ok ⟨[.ofExpr (.literal ⟨0, 1⟩ 7),
      .ofExpr (.join .plus (.join .plus (.literal ⟨2, 21⟩ 9223372036854775800)
        (.literal ⟨22, 23⟩ 3)) (.literal ⟨24, 25⟩ 4))]⟩) := by
    rw [parse, hlex']
    rfl
  have hmem : Memory.addressSpace.grants Machine.defaultCapacity := rfl
  obtain ⟨-, -, hlast, -, hgroup⟩ := evaluate_sums hmem hp ⟨by decide, by decide, by decide⟩
  refine ⟨?_, hgroup _ _ hq ⟨by decide, by decide, by decide⟩ rfl⟩
  obtain ⟨v, hv, heval⟩ := hlast _ rfl (by decide)
  exact ⟨v, hv, heval⟩

end ByteCalc
