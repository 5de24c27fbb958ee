import ByteCalc.Proofs.Emission
import ByteCalc.Proofs.Recognition
import ByteCalc.Proofs.Segmentation

/-! # Printing and reading back

A program is printed with no more parentheses than its shape needs. The parser
gives it back from that text, with any blanks between the tokens that can be
shown.
-/

namespace ByteCalc

open Grammar

/-- The level of the grammar on which an expression stands without parentheses. -/
def Expr.level : Expr → Nat
  | literal .. => primary
  | binary _ op _ _ => op.precedence

/-- The decimal digits of a number that is not negative. -/
def Integer.digits (n : Int64) : List Char := Nat.toDigits 10 n.toInt.toNat

/-- Put tokens in parentheses on a condition. -/
def Token.enclose (c : Bool) (ts : List Token) : List Token :=
  if c then .openParen :: ts ++ [.closeParen] else ts

/-- The tokens of an expression. A left operand is enclosed when it binds looser than the operator,
a right operand also when it binds just as tightly. -/
def Expr.tokens : Expr → List Token
  | literal _ n => [.integer (Integer.digits n)]
  | binary _ op l r =>
    Token.enclose (l.level < op.precedence) l.tokens ++
      .operator op :: Token.enclose (r.level ≤ op.precedence) r.tokens

/-- The tokens of statements with semicolons between them. -/
def Statement.tokens (ss : List Statement) : List Token :=
  [Token.semicolon].intercalate (ss.map (·.expr.tokens))

namespace Program

def tokens (p : Program) : List Token := Statement.tokens p.statements

/-- The source of a program, without blanks. -/
def text (p : Program) : String := String.ofList (Token.spell p.tokens)

end Program

theorem Integer.digits_spec (n : Int64) : Digits (Integer.digits n) n.toInt.toNat := by
  have hvalue : ofDigits (digits n) = n.toInt.toNat :=
    Nat.ofDigitChars_eq_foldl.symm.trans Nat.ofDigitChars_ten_toDigits
  refine ⟨Nat.toDigits_ne_nil, fun d hd => ?_, ?_⟩
  · exact Nat.isDigit_of_mem_toDigits (by decide) (by decide) hd
  · rw [← ofDigits_eq, hvalue]

theorem Statement.tokens_singleton (s : Statement) : tokens [s] = s.expr.tokens := by
  simp [tokens, List.intercalate]

theorem Statement.tokens_cons_cons (s s' : Statement) (ss : List Statement) :
    tokens (s :: s' :: ss) = s.expr.tokens ++ .semicolon :: tokens (s' :: ss) := by
  simp [tokens, List.intercalate]

/-! ## The tokens derive the program -/

namespace Expr

theorem level_pos (e : Expr) : 0 < e.level := by
  cases e with
  | literal => exact Nat.zero_lt_succ 4
  | binary _ op => exact op.precedence_pos

theorem level_le_primary (e : Expr) : e.level ≤ primary := by
  cases e with
  | literal => exact Nat.le_refl _
  | binary _ op => exact Nat.le_of_lt (precedence_lt_primary op)

/-- An expression stands on every level when it is enclosed on those above its own. -/
theorem derives_enclose {e : Expr} {ts : List Token} {i : Nat} (h : Derives e.level ts e)
    (hi : i ≤ primary) : Derives i (Token.enclose (e.level < i) ts) e := by
  by_cases hlt : e.level < i
  · rw [Token.enclose, if_pos (decide_eq_true hlt)]
    exact (Derives.group (h.mono e.level_pos e.level_le_primary)).mono hi (Nat.le_refl _)
  · rw [Token.enclose, if_neg (by simpa using hlt)]
    exact h.mono (Nat.le_of_not_lt hlt) e.level_le_primary

theorem derives_tokens {e : Expr} (h : ∀ n ∈ e.literals, 0 ≤ n.toInt) :
    Derives e.level e.tokens e := by
  induction e with
  | literal s n =>
    have hn : Numeral (Integer.digits n) n.toInt.toNat := .unsigned (Integer.digits_spec n)
    rw [Int.toNat_of_nonneg (h n List.mem_cons_self)] at hn
    exact .literal hn
  | binary s op l r ihl ihr =>
    obtain ⟨hl, hr⟩ := List.forall_mem_append.mp h
    have hop := precedence_lt_primary op
    -- "at most this precedence" is "below the next level", as the grammar has it
    have hr := derives_enclose (ihr hr) (Nat.succ_le_of_lt hop)
    simp only [Nat.lt_succ_iff] at hr
    exact .binary (mem_operators_iff.mpr rfl) (derives_enclose (ihl hl) (Nat.le_of_lt hop)) hr

end Expr

theorem Statement.derives_tokens {ss : List Statement}
    (h : ∀ s ∈ ss, ∀ n ∈ s.expr.literals, 0 ≤ n.toInt) : Statements (tokens ss) ss := by
  induction ss with
  | nil => exact .nil
  | cons s ss ih =>
    obtain ⟨hs, hss⟩ := List.forall_mem_cons.mp h
    have hd : Derives 1 s.expr.tokens s.expr :=
      (Expr.derives_tokens hs).mono s.expr.level_pos s.expr.level_le_primary
    cases ss with
    | nil =>
      rw [tokens_singleton]
      exact .last hd
    | cons s' ss =>
      rw [tokens_cons_cons]
      exact .cons hd (ih hss)

/-! ## The lexer finds the tokens -/

/-- Numerals and fixed tokens, with no two numerals next to each other. -/
inductive Legible : List Token → Prop where
  | nil : Legible []
  | fixed {t : Token} {ts : List Token} : t ∈ Token.fixed → Legible ts → Legible (t :: ts)
  | integer {ds : List Char} {ts : List Token} : Integer.isNumeral ds →
    (∀ es, ts.head? ≠ some (.integer es)) → Legible ts → Legible (.integer ds :: ts)

/-- Tokens written in order, with any blanks before, between and after them. -/
inductive Spaced : List Token → List Char → Prop where
  | nil : Spaced [] []
  | blank {c : Char} {ts : List Token} {cs : List Char} :
    c.isWhitespace → Spaced ts cs → Spaced ts (c :: cs)
  | token {t : Token} {ts : List Token} {cs : List Char} :
    Spaced ts cs → Spaced (t :: ts) (t.chars ++ cs)

theorem spaced_spell (ts : List Token) : Spaced ts (Token.spell ts) := by
  induction ts with
  | nil => exact .nil
  | cons t ts ih => exact .token ih

namespace Legible

variable {ts us : List Token} {t : Token}

/-- A fixed token keeps what is before it apart from what is after it. -/
theorem append_cons (hts : Legible ts) (ht : t ∈ Token.fixed) (hus : Legible us) :
    Legible (ts ++ t :: us) := by
  induction hts with
  | nil => exact .fixed ht hus
  | fixed ht' _ ih => exact .fixed ht' ih
  | @integer _ ts hds hhead _ ih =>
    refine .integer hds (fun es => ?_) ih
    cases ts with
    | nil =>
      rintro ⟨⟩
      exact Token.integer_not_mem_fixed es ht
    | cons => exact hhead es

theorem not_isWhitespace (h : Legible ts) : ∀ c ∈ Token.spell ts, c.isWhitespace = false := by
  induction h with
  | nil => simp
  | fixed ht _ ih =>
    rw [Token.spell_cons, List.forall_mem_append]
    exact ⟨fun c hc => (Token.plain_of_mem_fixed ht c hc).1, ih⟩
  | integer hds _ _ ih =>
    obtain ⟨-, hds, -⟩ := Integer.isNumeral_iff.mp hds
    rw [Token.spell_cons, List.forall_mem_append]
    refine ⟨fun c hc => Bool.eq_false_iff.mpr fun hw => ?_, ih⟩
    exact absurd (hds c hc) (Bool.eq_false_iff.mp (Token.not_isDigit_of_isWhitespace hw))

theorem enclose (h : Legible ts) (c : Bool) : Legible (Token.enclose c ts) := by
  unfold Token.enclose
  split
  · exact .fixed (by decide) (h.append_cons (by decide) .nil)
  · exact h

end Legible

theorem Expr.legible_tokens (e : Expr) : Legible e.tokens := by
  induction e with
  | literal s n =>
    have hn := Integer.digits_spec n
    rw [← Integer.ofDigits_of_digits hn] at hn
    exact .integer (Integer.isNumeral_iff.mpr hn) (by simp) .nil
  | binary s op l r ihl ihr =>
    exact (ihl.enclose _).append_cons (Token.operator_mem_fixed op) (ihr.enclose _)

theorem Statement.legible_tokens (ss : List Statement) : Legible (tokens ss) := by
  induction ss with
  | nil => exact .nil
  | cons s ss ih =>
    cases ss with
    | nil =>
      rw [tokens_singleton]
      exact s.expr.legible_tokens
    | cons s' ss =>
      rw [tokens_cons_cons]
      exact s.expr.legible_tokens.append_cons (by decide) ih

namespace Spaced

variable {ts : List Token} {cs : List Char}

theorem not_isDigit_head (h : Spaced ts cs) (hts : Legible ts)
    (hhead : ∀ es, ts.head? ≠ some (.integer es)) : ∀ c ∈ cs.head?, c.isDigit = false := by
  rintro c hc
  cases h with
  | nil => cases hc
  | blank hb =>
    cases hc
    exact Token.not_isDigit_of_isWhitespace hb
  | token =>
    cases hts with
    | fixed ht =>
      obtain ⟨d, ds, hchars, hd, -⟩ := Token.read_of_mem_fixed ht
      rw [hchars] at hc
      cases hc
      exact hd
    | integer => exact absurd rfl (hhead _)

theorem filter_run (h : Spaced ts cs) (hts : Legible ts) :
    (Token.splitter.run cs).filter (!·.isBlank) = ts := by
  induction h with
  | nil => simp
  | blank hb _ ih => rw [Token.filter_run_blank_cons hb, ih hts]
  | token h ih =>
    cases hts with
    | fixed ht hts =>
      have hb := Token.not_isBlank_of_mem_fixed _ ht
      rw [Token.run_fixed_append ht, List.filter_cons_of_pos (by simp [hb]), ih hts]
    | integer hds hhead hts =>
      obtain ⟨hne, hds, -⟩ := Integer.isNumeral_iff.mp hds
      rw [Token.chars, Token.run_integer_append hne hds (h.not_isDigit_head hts hhead),
        List.filter_cons_of_pos rfl, ih hts]

end Spaced

section

variable {p : Program} {cs : List Char} (hp : ∀ n ∈ p.literals, 0 ≤ n.toInt)

include hp

theorem readTokens_of_spaced (h : Spaced p.tokens cs) :
    ∃ q, readTokens (lex (String.ofList cs)) = .ok q ∧ q.erase = p.erase := by
  have hlex : (lex (String.ofList cs)).filter (!·.isBlank) = p.tokens := by
    rw [lex, String.toList_ofList, lexChars, filter_trimBlank]
    exact h.filter_run (Statement.legible_tokens _)
  refine exists_readTokens_iff.mpr ?_
  rw [Generates, hlex]
  refine Statement.derives_tokens fun s hs n hn => ?_
  exact hp n (List.mem_flatMap.mpr ⟨s, hs, hn⟩)

theorem parse_of_spaced (h : Spaced p.tokens cs)
    (hcs : Token.Narrow (cs.rdropWhile Char.isWhitespace)) :
    ∃ q, parse (String.ofList cs) = some (.ok q) ∧ q.erase = p.erase := by
  obtain ⟨q, hq, he⟩ := readTokens_of_spaced hp h
  refine ⟨q, parseTokens_eq_ok_iff.mpr ⟨?_, hq⟩, he⟩
  rwa [showable_lex_iff, String.toList_ofList]

theorem exists_parse_text : ∃ q, parse p.text = some (.ok q) ∧ q.erase = p.erase := by
  refine parse_of_spaced hp (spaced_spell _) (Token.narrow_of_not_isWhitespace fun c hc => ?_)
  exact (Statement.legible_tokens p.statements).not_isWhitespace c
    ((List.rdropWhile_prefix _ _).subset hc)

end

end ByteCalc
