import ByteCalc.Program.Parser

/-! # Laws of the parser

Which frames a token closes, and what the parser does with a token in each
phase. Later proofs go by these laws and not by the definitions.

Most of them are about `readTokens`, which takes every token for one that can be
shown. Where all tokens can be, it is the parser.
-/

namespace ByteCalc

namespace Frame

/-- The precedence of the innermost pending operator, zero if a parenthesis stands inside it. -/
def floor : List Frame → Nat
  | pending _ op :: _ => op.precedence
  | _ => 0

@[simp] theorem floor_nil : floor [] = 0 := rfl

@[simp] theorem floor_group (fs : List Frame) : floor (group :: fs) = 0 := rfl

@[simp] theorem floor_pending (lhs : Expr) (op : Operator) (fs : List Frame) :
    floor (pending lhs op :: fs) = op.precedence := rfl

theorem close_pending_of_le {level : Nat} {op : Operator} (h : level ≤ op.precedence)
    (lhs rhs : Expr) (fs : List Frame) :
    close level (pending lhs op :: fs) rhs = close level fs (lhs.join op rhs) :=
  if_pos h

theorem close_of_floor_lt {level : Nat} {fs : List Frame} (h : floor fs < level) (e : Expr) :
    close level fs e = (fs, e) := by
  cases fs with
  | nil => rfl
  | cons f fs =>
    cases f with
    | group => rfl
    | pending lhs op => exact if_neg (Nat.not_le_of_lt h)

theorem floor_close_le (level : Nat) (fs : List Frame) (e : Expr) :
    floor (close level fs e).1 ≤ level - 1 := by
  induction fs generalizing e with
  | nil => exact Nat.zero_le _
  | cons f fs ih =>
    cases f with
    | group => exact Nat.zero_le _
    | pending lhs op =>
      rcases Nat.lt_or_ge op.precedence level with h | h
      · rw [close_of_floor_lt h, floor_pending]
        omega
      · rw [close_pending_of_le h]
        exact ih _

/-- Closing down to a tighter level first makes no difference. -/
theorem close_close {level level' : Nat} (h : level ≤ level') (fs : List Frame) (e : Expr) :
    close level (close level' fs e).1 (close level' fs e).2 = close level fs e := by
  induction fs generalizing e with
  | nil => rfl
  | cons f fs ih =>
    cases f with
    | group => rfl
    | pending lhs op =>
      rcases Nat.lt_or_ge op.precedence level' with h' | h'
      · rw [close_of_floor_lt (show floor (pending lhs op :: fs) < level' from h')]
      · rw [close_pending_of_le h', close_pending_of_le (Nat.le_trans h h'), ih]

theorem floor_eq_zero_iff {fs : List Frame} :
    floor fs = 0 ↔ fs = [] ∨ ∃ gs, fs = group :: gs := by
  cases fs with
  | nil => simp
  | cons f fs =>
    cases f with
    | group => simp
    | pending lhs op => simpa using Nat.ne_of_gt op.precedence_pos

/-- With no level given, every pending operator up to the next parenthesis is closed. -/
theorem close_zero (fs : List Frame) (e : Expr) : close 0 fs e = close 1 fs e := by
  have h : floor (close 1 fs e).1 = 0 := Nat.le_zero.mp (floor_close_le 1 fs e)
  rw [← close_close (Nat.zero_le 1)]
  rcases floor_eq_zero_iff.mp h with h | ⟨gs, h⟩
  · rw [h, close_nil, ← h]
  · rw [h, close_group, ← h]

theorem close_zero_cases (fs : List Frame) (e : Expr) :
    (∃ e', close 0 fs e = ([], e')) ∨ ∃ gs e', close 0 fs e = (group :: gs, e') := by
  have h : floor (close 0 fs e).1 = 0 := Nat.le_zero.mp (floor_close_le 0 fs e)
  rcases floor_eq_zero_iff.mp h with h | ⟨gs, h⟩
  · exact .inl ⟨_, Prod.ext h rfl⟩
  · exact .inr ⟨gs, _, Prod.ext h rfl⟩

end Frame

namespace Parser

/-- The span of the next token. -/
def ahead (p : Parser) (t : Token) : Span := ⟨p.position, p.position + t.width⟩

/-- The parser behind the next token. -/
def past (p : Parser) (t : Token) : Parser := { p with position := p.position + t.width }

variable {p : Parser} {s : Span} {fs gs : List Frame} {e e' : Expr} {t : Token}

theorem feed_of_isBlank (h : t.isBlank) : p.feed t = .ok (p.past t) := if_pos h

theorem feed_between (hp : p.phase = .between) (h : t.isBlank = false) :
    p.feed t = if t = .semicolon then .ok (p.past t)
      else (p.past t).feedOperand (p.ahead t) [] t := by
  simp [feed, feedAt, h, hp, past, ahead]

theorem feed_operand (hp : p.phase = .operand fs) (h : t.isBlank = false) :
    p.feed t = (p.past t).feedOperand (p.ahead t) fs t := by
  simp [feed, feedAt, h, hp, past, ahead]

theorem feed_operator (hp : p.phase = .operator fs e) (h : t.isBlank = false) :
    p.feed t = (p.past t).feedOperator (p.ahead t) fs e t := by
  simp [feed, feedAt, h, hp, past, ahead]

theorem feedOperator_of_nil (h : Frame.close 0 fs e = ([], e')) (ht : ∀ op, t ≠ .operator op) :
    p.feedOperator s fs e t = if t = .semicolon then .ok (p.addStatement e')
      else .error (.expected .endOfStatement s) := by
  cases t with
  | operator op => exact absurd rfl (ht op)
  | _ => simp [feedOperator, h]

theorem feedOperator_of_group (h : Frame.close 0 fs e = (.group :: gs, e'))
    (ht : ∀ op, t ≠ .operator op) :
    p.feedOperator s fs e t = if t = .closeParen then .ok { p with phase := .operator gs e' }
      else .error (.expected .closeParen s) := by
  cases t with
  | operator op => exact absurd rfl (ht op)
  | _ => simp [feedOperator, h]

theorem finish_of_nil (hp : p.phase = .operator fs e) (h : Frame.close 0 fs e = ([], e')) :
    p.finish = .ok ⟨(p.addStatement e').finished.reverse⟩ := by
  simp [finish, finishAt, hp, h]

theorem finish_of_group (hp : p.phase = .operator fs e)
    (h : Frame.close 0 fs e = (.group :: gs, e')) :
    p.finish = .error (.expected .closeParen ⟨p.position, p.position⟩) := by
  simp [finish, finishAt, hp, h]

theorem finish_eq_ok_iff {q : Program} : p.finish = .ok q ↔
    p.phase = .between ∧ q = ⟨p.finished.reverse⟩ ∨
    ∃ fs e e', p.phase = .operator fs e ∧ Frame.close 0 fs e = ([], e') ∧
      q = ⟨(p.addStatement e').finished.reverse⟩ := by
  cases hp : p.phase with
  | between => simp [finish, finishAt, hp, eq_comm]
  | operand fs => simp [finish, finishAt, hp]
  | operator fs e =>
    rcases Frame.close_zero_cases fs e with ⟨e', hc⟩ | ⟨gs, e', hc⟩
    · rw [finish_of_nil hp hc]
      constructor
      · rintro ⟨⟩
        exact .inr ⟨fs, e, e', rfl, hc, rfl⟩
      · rintro (⟨⟨⟩, -⟩ | ⟨_, _, _, ⟨⟩, hc', rfl⟩)
        cases hc.symm.trans hc'
        rfl
    · rw [finish_of_group hp hc]
      constructor
      · rintro ⟨⟩
      · rintro (⟨⟨⟩, -⟩ | ⟨_, _, _, ⟨⟩, hc', -⟩)
        cases hc.symm.trans hc'

variable {q : Parser} {ts : List Token} {f : Fault}

theorem feedAll_cons_of_ok (ht : t.isShowable) (h : p.feed t = .ok q) (ts : List Token) :
    p.feedAll (t :: ts) = q.feedAll ts := by
  simp [feedAll, Token.chars?_of_isShowable ht, h]

theorem feedAll_cons_of_error (ht : t.isShowable) (h : p.feed t = .error f) (ts : List Token) :
    p.feedAll (t :: ts) = some (.error f) := by
  simp [feedAll, Token.chars?_of_isShowable ht, h]

theorem feedAll_cons_of_not_isShowable (ht : t.isShowable = false) (ts : List Token) :
    p.feedAll (t :: ts) = none := by
  simp [feedAll, Token.chars?_eq_none_iff.mpr ht]

theorem feedAll_of_showable (h : Token.Showable ts) (p : Parser) :
    p.feedAll ts = some (ts.foldlM feed p) := by
  induction ts generalizing p with
  | nil => rfl
  | cons t ts ih =>
    obtain ⟨ht, hts⟩ := Token.showable_cons.mp h
    rw [List.foldlM_cons]
    cases hf : p.feed t with
    | error f => exact feedAll_cons_of_error ht hf ts
    | ok q => exact (feedAll_cons_of_ok ht hf ts).trans (ih hts q)

theorem showable_of_feedAll (h : p.feedAll ts = some (.ok q)) : Token.Showable ts := by
  induction ts generalizing p with
  | nil => exact Token.showable_nil
  | cons t ts ih =>
    cases ht : t.isShowable with
    | false =>
      rw [feedAll_cons_of_not_isShowable ht] at h
      cases h
    | true =>
      refine Token.showable_cons.mpr ⟨ht, ?_⟩
      cases hf : p.feed t with
      | error f =>
        rw [feedAll_cons_of_error ht hf] at h
        cases h
      | ok p₁ => exact ih (feedAll_cons_of_ok ht hf ts ▸ h)

theorem feedAll_eq_ok_iff :
    p.feedAll ts = some (.ok q) ↔ Token.Showable ts ∧ ts.foldlM feed p = .ok q := by
  constructor
  · intro h
    have hts := showable_of_feedAll h
    rw [feedAll_of_showable hts, Option.some_inj] at h
    exact ⟨hts, h⟩
  · rintro ⟨hts, h⟩
    rw [feedAll_of_showable hts, h]

theorem feedAll_append_of_ok (h : p.feedAll ts = some (.ok q)) (us : List Token) :
    p.feedAll (ts ++ us) = q.feedAll us := by
  induction ts generalizing p with
  | nil =>
    cases h
    rfl
  | cons t ts ih =>
    obtain ⟨ht, -⟩ := Token.showable_cons.mp (showable_of_feedAll h)
    cases hf : p.feed t with
    | error f =>
      rw [feedAll_cons_of_error ht hf] at h
      cases h
    | ok p₁ =>
      rw [feedAll_cons_of_ok ht hf] at h
      exact (feedAll_cons_of_ok ht hf _).trans (ih h)

/-- A fault is that of the first token that is refused, and the parser comes to that token. -/
theorem exists_of_feedAll_eq_error (h : p.feedAll ts = some (.error f)) :
    ∃ us t vs q, ts = us ++ t :: vs ∧ p.feedAll us = some (.ok q) ∧ t.isShowable ∧
      q.feed t = .error f := by
  induction ts generalizing p with
  | nil => cases h
  | cons t ts ih =>
    cases ht : t.isShowable with
    | false =>
      rw [feedAll_cons_of_not_isShowable ht] at h
      cases h
    | true =>
      cases hf : p.feed t with
      | error f' =>
        rw [feedAll_cons_of_error ht hf] at h
        cases h
        exact ⟨[], t, ts, p, rfl, rfl, ht, hf⟩
      | ok p₁ =>
        rw [feedAll_cons_of_ok ht hf] at h
        obtain ⟨us, u, vs, q, rfl, hus, hu, hq⟩ := ih h
        exact ⟨t :: us, u, vs, q, rfl, (feedAll_cons_of_ok ht hf us).trans hus, hu, hq⟩

end Parser

/-- The answer of a parser that shows no token. -/
def readTokens (ts : List Token) : Except Fault Program :=
  ts.foldlM Parser.feed .start >>= Parser.finish

variable {ts : List Token}

theorem parseTokens_of_showable (h : Token.Showable ts) :
    parseTokens ts = some (readTokens ts) := by
  rw [parseTokens, Parser.feedAll_of_showable h]
  rfl

theorem parseTokens_eq_ok_iff {p : Program} :
    parseTokens ts = some (.ok p) ↔ Token.Showable ts ∧ readTokens ts = .ok p := by
  constructor
  · intro h
    obtain ⟨_ | q, hfeed, hfinish⟩ := Option.map_eq_some_iff.mp h
    · cases hfinish
    · obtain ⟨hts, hq⟩ := Parser.feedAll_eq_ok_iff.mp hfeed
      rw [readTokens, hq]
      exact ⟨hts, hfinish⟩
  · rintro ⟨hts, h⟩
    rw [parseTokens_of_showable hts, h]

/-- A fault comes from the first token that is refused or, if there is none, from the end. -/
theorem parseTokens_eq_error_cases {f : Fault} (h : parseTokens ts = some (.error f)) :
    (∃ us t vs q, ts = us ++ t :: vs ∧ Parser.start.feedAll us = some (.ok q) ∧ t.isShowable ∧
      q.feed t = .error f) ∨
    ∃ q, Parser.start.feedAll ts = some (.ok q) ∧ q.finish = .error f := by
  obtain ⟨_ | q, hfeed, hfinish⟩ := Option.map_eq_some_iff.mp h
  · cases hfinish
    exact .inl (Parser.exists_of_feedAll_eq_error hfeed)
  · exact .inr ⟨q, hfeed, hfinish⟩

end ByteCalc
