import Mathlib.Order.Bounds.Defs
import ByteCalc.Proofs.Recognition

/-! # Where parsing fails

Whatever the parser has taken so far can be completed to a program. So the token
that it refuses is the first one after which no program can follow, and its
fault has the span of that token. Where the tokens end too early, the fault
stands behind the last one.
-/

namespace ByteCalc

/-- Some continuation of the tokens is accepted. -/
def Viable (ts : List Token) : Prop := ∃ us p, parseTokens (ts ++ us) = some (.ok p)

/-- The token at `i` is an integer that does not fit, and another one could stand in its place. -/
def LiteralAtFault (ts : List Token) (i : Nat) : Prop :=
  (∃ cs, ts[i]? = some (.integer cs) ∧ ¬ ∃ n : Int64, Numeral cs n.toInt) ∧
    Viable (ts.take i ++ [.integer ['0']])

/-- The number of characters of some tokens. -/
def Token.extent (ts : List Token) : Nat := (spell ts).length

namespace Token

theorem extent_append (ts us : List Token) : extent (ts ++ us) = extent ts + extent us := by
  simp [extent]

theorem extent_singleton (t : Token) : extent [t] = t.width := by
  simp [extent, width_eq]

end Token

theorem Frame.length_close_le (level : Nat) (fs : List Frame) (e : Expr) :
    (close level fs e).1.length ≤ fs.length := by
  induction fs generalizing e with
  | nil => exact Nat.le_refl _
  | cons f fs ih =>
    cases f with
    | group => exact Nat.le_refl _
    | pending lhs op =>
      rcases Nat.lt_or_ge op.precedence level with h | h
      · rw [close_of_floor_lt h]
      · rw [close_pending_of_le h]
        exact Nat.le_succ_of_le (ih _)

namespace Parser

variable {p p' : Parser} {s : Span} {fs : List Frame} {ts us : List Token} {e : Expr} {t : Token}
  {f : Fault}

/-! ## Completion -/

/-- Some tokens lead from here to a program. -/
def Completable (p : Parser) : Prop :=
  ∃ (us : List Token) (q : Program),
    Token.Showable us ∧ (us.foldlM feed p >>= finish) = .ok q

theorem Completable.of_feed (ht : t.isShowable) (hf : p.feed t = .ok p') (h : p'.Completable) :
    p.Completable := by
  obtain ⟨us, q, hus, hq⟩ := h
  exact ⟨t :: us, q, Token.showable_cons.mpr ⟨ht, hus⟩, by rw [foldlM_cons_of_ok hf, hq]⟩

/-- Closing all parentheses completes an operand to a program. -/
theorem completable_of_operator (h : p.phase = .operator fs e) : p.Completable := by
  -- By induction on the frames: each closing parenthesis leaves fewer of them.
  generalize hn : fs.length = n
  induction n using Nat.strong_induction_on generalizing p fs e with
  | _ n ih =>
    rcases Frame.close_zero_cases fs e with ⟨e', hc⟩ | ⟨gs, e', hc⟩
    · exact ⟨[], _, Token.showable_nil, finish_of_nil h hc⟩
    · obtain ⟨p₁, hf, -, hp₁⟩ := feed_closeParen h hc
      have hlt : gs.length < n := by
        have := Frame.length_close_le 0 fs e
        rw [hc, List.length_cons] at this
        omega
      exact .of_feed rfl hf (ih gs.length hlt hp₁ rfl)

theorem numeral_zero : Numeral ['0'] (0 : Int64).toInt :=
  Integer.read?_eq_some_iff.mp (by decide)

/-- There is no state in which the parser is lost. -/
theorem completable (p : Parser) : p.Completable := by
  cases hp : p.phase with
  | between =>
    refine ⟨[], ⟨p.finished.reverse⟩, Token.showable_nil, ?_⟩
    simp [finish, finishAt, hp, bind, Except.bind, pure, Except.pure]
  | operand fs =>
    obtain ⟨p₁, hf, -, hp₁⟩ := feed_integer (.inl hp) numeral_zero
    exact .of_feed rfl hf (completable_of_operator hp₁)
  | operator fs e => exact completable_of_operator hp

/-! ## Faults -/

theorem position_feed (h : p.feed t = .ok p') : p'.position = p.position + t.width := by
  cases takes_of_feed h <;> rfl

theorem position_foldlM (h : ts.foldlM feed p = .ok p') :
    p'.position = p.position + Token.extent ts := by
  induction ts generalizing p with
  | nil =>
    cases h
    rfl
  | cons t ts ih =>
    obtain ⟨p₁, ht, h⟩ := foldlM_cons_eq_ok_iff.mp h
    rw [ih h, position_feed ht, ← List.singleton_append, Token.extent_append,
      Token.extent_singleton, Nat.add_assoc]

/-- Where an operand must stand, only integers are refused for their value. -/
theorem fault_of_feedOperand (h : p.feedOperand s fs t = .error f) :
    (∃ cs, t = .integer cs ∧ ¬ ∃ n : Int64, Numeral cs n.toInt) ∧ f = .literalRange s ∨
      (∀ cs, t ≠ .integer cs) ∧ f = .expected .expression s := by
  cases t with
  | openParen => cases h
  | integer cs =>
    rw [feedOperand] at h
    split at h
    · cases h
    · next hr =>
      cases h
      refine .inl ⟨⟨cs, rfl, ?_⟩, rfl⟩
      rintro ⟨n, hn⟩
      rw [Integer.read?_eq_some_iff.mpr hn] at hr
      cases hr
  | _ =>
    cases h
    exact .inr ⟨by simp, rfl⟩

theorem fault_of_feedOperator (h : p.feedOperator s fs e t = .error f) :
    ∃ what, f = .expected what s := by
  by_cases ht : ∀ op, t ≠ .operator op
  · rcases Frame.close_zero_cases fs e with ⟨e', hc⟩ | ⟨gs, e', hc⟩
    · rw [feedOperator_of_nil hc ht] at h
      split at h <;> cases h
      exact ⟨_, rfl⟩
    · rw [feedOperator_of_group hc ht] at h
      split at h <;> cases h
      exact ⟨_, rfl⟩
  · obtain ⟨op, rfl⟩ := Classical.not_forall_not.mp ht
    cases h

theorem feed_integer_of_operator (hp : p.phase = .operator fs e) (cs : List Char) :
    p.feed (.integer cs) ≠ .ok p' := by
  intro h
  cases takes_of_feed h with
  | integer hp' => simp [Awaits, hp] at hp'

/-- An integer that does not fit, in a place where another one could stand. -/
def OutOfRange (p : Parser) (t : Token) : Prop :=
  (∃ cs, t = .integer cs ∧ ¬ ∃ n : Int64, Numeral cs n.toInt) ∧
    ∃ p', p.feed (.integer ['0']) = .ok p'

theorem fault_of_awaits (hp : p.Awaits fs)
    (h : (p.past t).feedOperand (p.ahead t) fs t = .error f) :
    p.OutOfRange t ∧ f = .literalRange (p.ahead t) ∨
      ¬ p.OutOfRange t ∧ ∃ what, f = .expected what (p.ahead t) := by
  rcases fault_of_feedOperand h with ⟨ht, hf⟩ | ⟨ht, hf⟩
  · obtain ⟨p', hz, -⟩ := feed_integer hp numeral_zero
    exact .inl ⟨⟨ht, p', hz⟩, hf⟩
  · refine .inr ⟨?_, _, hf⟩
    rintro ⟨⟨cs, hcs, -⟩, -⟩
    exact ht cs hcs

theorem feed_eq_error (h : p.feed t = .error f) :
    p.OutOfRange t ∧ f = .literalRange (p.ahead t) ∨
      ¬ p.OutOfRange t ∧ ∃ what, f = .expected what (p.ahead t) := by
  have hb : t.isBlank = false := by
    by_contra hb
    rw [Bool.not_eq_false] at hb
    rw [feed_of_isBlank hb] at h
    cases h
  cases hp : p.phase with
  | between =>
    rw [feed_between hp hb] at h
    split at h
    · cases h
    · exact fault_of_awaits (.inr ⟨hp, rfl⟩) h
  | operand fs =>
    rw [feed_operand hp hb] at h
    exact fault_of_awaits (.inl hp) h
  | operator fs e =>
    rw [feed_operator hp hb] at h
    refine .inr ⟨?_, fault_of_feedOperator h⟩
    rintro ⟨-, p', hz⟩
    exact feed_integer_of_operator hp _ hz

/-- A token that is refused is itself at fault. -/
theorem fault_of_feed (h : p.feed t = .error f) : f.span = p.ahead t ∧
    (p.OutOfRange t ∧ f.category = .overflow ∨
      ¬ p.OutOfRange t ∧ f.category = .syntaxError) := by
  rcases feed_eq_error h with ⟨hr, rfl⟩ | ⟨hr, what, rfl⟩
  · exact ⟨rfl, .inl ⟨hr, rfl⟩⟩
  · exact ⟨rfl, .inr ⟨hr, rfl⟩⟩

theorem finish_eq_error (h : p.finish = .error f) :
    ∃ what, f = .expected what ⟨p.position, p.position⟩ := by
  cases hp : p.phase with
  | between =>
    rw [finish, finishAt, hp] at h
    cases h
  | operand fs =>
    rw [finish, finishAt, hp] at h
    cases h
    exact ⟨_, rfl⟩
  | operator fs e =>
    rcases Frame.close_zero_cases fs e with ⟨e', hc⟩ | ⟨gs, e', hc⟩
    · rw [finish_of_nil hp hc] at h
      cases h
    · rw [finish_of_group hp hc] at h
      cases h
      exact ⟨_, rfl⟩

theorem fault_of_finish (h : p.finish = .error f) :
    f.category = .syntaxError ∧ f.span = ⟨p.position, p.position⟩ := by
  obtain ⟨what, rfl⟩ := finish_eq_error h
  exact ⟨rfl, rfl⟩

end Parser

/-! ## Viable tokens -/

variable {ts us : List Token} {t : Token} {q : Parser}

theorem readTokens_of_foldlM (h : ts.foldlM Parser.feed .start = .ok q) (us : List Token) :
    readTokens (ts ++ us) = (us.foldlM Parser.feed q >>= Parser.finish) := by
  rw [readTokens, Parser.foldlM_append_of_ok h]

/-- What can be wrong with tokens. -/
theorem fault_of_parseTokens {f : Fault} (h : parseTokens ts = some (.error f)) :
    ∃ s, f = .literalRange s ∨ ∃ what, f = .expected what s := by
  rcases parseTokens_eq_error_cases h with ⟨us, t, vs, q, -, -, -, ht⟩ | ⟨q, -, hq⟩
  · rcases Parser.feed_eq_error ht with ⟨-, hf⟩ | ⟨-, hf⟩
    · exact ⟨_, .inl hf⟩
    · exact ⟨_, .inr hf⟩
  · exact ⟨_, .inr (Parser.finish_eq_error hq)⟩

/-- Tokens can be continued to a program as long as the parser takes them. -/
theorem viable_iff : Viable ts ↔ ∃ q, Parser.start.feedAll ts = some (.ok q) := by
  simp only [Viable, parseTokens_eq_ok_iff, Parser.feedAll_eq_ok_iff, Token.showable_append]
  constructor
  · rintro ⟨us, p, ⟨hts, -⟩, h⟩
    obtain ⟨q', h, -⟩ := Fault.bind_eq_ok_iff.mp h
    rw [List.foldlM_append] at h
    obtain ⟨q, h, -⟩ := Fault.bind_eq_ok_iff.mp h
    exact ⟨q, hts, h⟩
  · rintro ⟨q, hts, h⟩
    obtain ⟨us, p, hus, hp⟩ := q.completable
    exact ⟨us, p, ⟨hts, hus⟩, by rw [readTokens_of_foldlM h, hp]⟩

instance : DecidablePred Viable := fun ts =>
  decidable_of_iff ((Parser.start.feedAll ts).any Except.isOk) <| by
    rw [viable_iff]
    rcases Parser.start.feedAll ts with _ | _ | q <;> simp [Except.isOk, Except.toBool]

theorem Viable.take (h : Viable ts) (n : Nat) : Viable (ts.take n) := by
  obtain ⟨us, p, h⟩ := h
  refine ⟨ts.drop n ++ us, p, ?_⟩
  rwa [← List.append_assoc, List.take_append_drop]

theorem viable_concat_iff (h : Parser.start.feedAll us = some (.ok q)) (ht : t.isShowable) :
    Viable (us ++ [t]) ↔ ∃ q', q.feed t = .ok q' := by
  obtain ⟨hus, hq⟩ := Parser.feedAll_eq_ok_iff.mp h
  simp only [viable_iff, Parser.feedAll_eq_ok_iff, Parser.foldlM_append_of_ok hq]
  cases hf : q.feed t <;> simp [hus, ht, hf, bind, Except.bind, pure, Except.pure]

theorem take_length_succ (us : List Token) (t : Token) (vs : List Token) :
    (us ++ t :: vs).take (us.length + 1) = us ++ [t] := by
  rw [List.take_length_add_append]
  rfl

theorem isLeast_not_viable (h : Parser.start.feedAll us = some (.ok q)) (ht : t.isShowable)
    {f : Fault} (hf : q.feed t = .error f) (vs : List Token) :
    IsLeast {i | ¬ Viable ((us ++ t :: vs).take (i + 1))} us.length := by
  constructor
  · show ¬ Viable ((us ++ t :: vs).take (us.length + 1))
    rw [take_length_succ, viable_concat_iff h ht, hf]
    rintro ⟨q', ⟨⟩⟩
  · intro i hi
    by_contra hlt
    have htake : (us ++ t :: vs).take (i + 1) = us.take (i + 1) :=
      List.take_append_of_le_length (Nat.lt_of_not_le hlt)
    exact hi (htake ▸ Viable.take (viable_iff.mpr ⟨q, h⟩) (i + 1))

theorem literalAtFault_iff (h : Parser.start.feedAll us = some (.ok q)) (t : Token)
    (vs : List Token) : LiteralAtFault (us ++ t :: vs) us.length ↔ q.OutOfRange t := by
  rw [LiteralAtFault, Parser.OutOfRange, List.take_left, viable_concat_iff h rfl]
  simp

/-- The fault of tokens that are refused. If they can be continued, then something was expected
behind them. Otherwise the first token after which they cannot be continued is at fault. It is an
integer out of range if another integer could stand in its place, and else against the syntax. -/
theorem parseTokens_fault_at_first_offence {f : Fault} (h : parseTokens ts = some (.error f)) :
    (Viable ts → f.category = .syntaxError ∧ f.span = ⟨Token.extent ts, Token.extent ts⟩) ∧
    (¬ Viable ts → ∃ i < ts.length, IsLeast {i | ¬ Viable (ts.take (i + 1))} i ∧
      f.span = ⟨Token.extent (ts.take i), Token.extent (ts.take (i + 1))⟩ ∧
      (LiteralAtFault ts i → f.category = .overflow) ∧
      (¬ LiteralAtFault ts i → f.category = .syntaxError)) := by
  rcases parseTokens_eq_error_cases h with ⟨us, t, vs, q, rfl, hus, ht, hf⟩ | ⟨q, hq, hf⟩
  · have hleast := isLeast_not_viable hus ht hf vs
    have hposition := Parser.position_foldlM (Parser.feedAll_eq_ok_iff.mp hus).2
    rw [Parser.start, Nat.zero_add] at hposition
    refine ⟨fun hv => absurd (hv.take _) hleast.1, fun _ => ?_⟩
    obtain ⟨hspan, hcat⟩ := Parser.fault_of_feed hf
    refine ⟨us.length, by simp, hleast, ?_, ?_⟩
    · rw [hspan, Parser.ahead, hposition, List.take_left, take_length_succ, Token.extent_append,
        Token.extent_singleton]
    · rw [literalAtFault_iff hus]
      rcases hcat with ⟨hr, hf⟩ | ⟨hr, hf⟩
      · exact ⟨fun _ => hf, fun hn => absurd hr hn⟩
      · exact ⟨fun hr' => absurd hr' hr, fun _ => hf⟩
  · have hposition := Parser.position_foldlM (Parser.feedAll_eq_ok_iff.mp hq).2
    rw [Parser.start, Nat.zero_add] at hposition
    refine ⟨fun _ => ?_, fun hn => absurd (viable_iff.mpr ⟨q, hq⟩) hn⟩
    rw [← hposition]
    exact Parser.fault_of_finish hf

/-- In `1 +(9223372036854775808))` the integer comes before the parenthesis that is too many, and
`1 +(` ends too early. -/
theorem parseTokens_fault_at_first_offence_in_parentheses :
    ∃ ts i, parseTokens ts = some (.error (.literalRange ⟨4, 23⟩)) ∧
      IsLeast {i | ¬ Viable (ts.take (i + 1))} i ∧
      (⟨4, 23⟩ : Span) = ⟨Token.extent (ts.take i), Token.extent (ts.take (i + 1))⟩ ∧
      parseTokens (ts.take 4) = some (.error (.expected .expression ⟨4, 4⟩)) ∧
      (⟨4, 4⟩ : Span) = ⟨Token.extent (ts.take 4), Token.extent (ts.take 4)⟩ := by
  have hrange : parseTokens [.integer ['1'], .blank 1, .operator .plus, .openParen,
      .integer "9223372036854775808".toList, .closeParen, .closeParen] =
        some (.error (.literalRange ⟨4, 23⟩)) := rfl
  have hshort : parseTokens [.integer ['1'], .blank 1, .operator .plus, .openParen] =
      some (.error (.expected .expression ⟨4, 4⟩)) := rfl
  obtain ⟨i, -, hleast, hspan, -⟩ := (parseTokens_fault_at_first_offence hrange).2 (by decide)
  obtain ⟨-, hspan'⟩ := (parseTokens_fault_at_first_offence hshort).1 (by decide)
  exact ⟨_, i, hrange, hleast, hspan, hshort, hspan'⟩

end ByteCalc
