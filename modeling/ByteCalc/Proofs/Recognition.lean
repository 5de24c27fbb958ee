import ByteCalc.Proofs.Grammar
import ByteCalc.Proofs.SpanErasure

/-! # What the parser recognises

The tokens behind a parser are what its finished statements and its frames
stand for, so whatever it accepts has a derivation. Conversely it goes along
every derivation. The programs that it gives are those of the grammar.
-/

namespace ByteCalc

namespace Grammar

/-- The tokens that have led to some frames. -/
inductive Opens : List Frame → List Token → Prop where
  | nil : Opens [] []
  | group {fs : List Frame} {ts : List Token} :
    Opens fs ts → Opens (.group :: fs) (ts ++ [.openParen])
  | pending {fs : List Frame} {ts ls : List Token} {lhs : Expr} {op : Operator} :
    Opens fs ts → Frame.floor fs < op.precedence → Derives op.precedence ls lhs →
      Opens (.pending lhs op :: fs) (ts ++ (ls ++ [.operator op]))

/-- The tokens of finished statements, the latest of which comes first. -/
inductive Finished : List Token → List Statement → Prop where
  | nil : Finished [] []
  | skip {ts : List Token} {ss : List Statement} :
    Finished ts ss → Finished (ts ++ [.semicolon]) ss
  | statement {ts us : List Token} {ss : List Statement} {s : Span} {e : Expr} :
    Finished ts ss → Derives 1 us e → Finished (ts ++ (us ++ [.semicolon])) (⟨s, e⟩ :: ss)

variable {fs gs : List Frame} {ts us : List Token} {e e' : Expr}

theorem opens_nil_iff : Opens [] ts ↔ ts = [] :=
  ⟨fun h => by cases h; rfl, fun h => h ▸ .nil⟩

theorem opens_group_iff : Opens (.group :: fs) ts ↔ ∃ us, ts = us ++ [.openParen] ∧ Opens fs us :=
  ⟨fun h => by cases h with | group h => exact ⟨_, rfl, h⟩, fun ⟨_, h, h'⟩ => h ▸ .group h'⟩

theorem precedence_lt_primary (op : Operator) : op.precedence < primary := by
  cases op <;> decide

theorem floor_lt_primary (fs : List Frame) : Frame.floor fs < primary := by
  unfold Frame.floor
  split
  · exact precedence_lt_primary _
  · decide

theorem Derives.join {op : Operator} {ls rs : List Token} {l r : Expr}
    (hl : Derives op.precedence ls l) (hr : Derives (op.precedence + 1) rs r) :
    Derives op.precedence (ls ++ .operator op :: rs) (l.join op r) :=
  .binary (mem_operators_iff.mpr rfl) hl hr

/-- Closing frames turns their tokens into a part of the operand. -/
theorem Opens.close {i j : Nat} (hi : 0 < i) (h : Opens fs ts) (he : Derives j us e)
    (hfs : Frame.floor fs < j) (hij : i ≤ j) (hj : j ≤ primary) :
    ∃ ts' us', ts ++ us = ts' ++ us' ∧ Opens (Frame.close i fs e).1 ts' ∧
      Derives i us' (Frame.close i fs e).2 ∧ Frame.floor (Frame.close i fs e).1 < i := by
  induction h generalizing j us e with
  | nil => exact ⟨[], us, rfl, .nil, he.mono hij hj, hi⟩
  | @group fs ts h ih => exact ⟨_, us, rfl, .group h, he.mono hij hj, hi⟩
  | @pending fs ts ls lhs op h hlt hl ih =>
    rcases Nat.lt_or_ge op.precedence i with hop | hop
    · rw [Frame.close_of_floor_lt hop]
      exact ⟨_, us, rfl, .pending h hlt hl, he.mono hij hj, hop⟩
    · -- the operator binds at least as tightly as `i`, so the operand completes it
      rw [Frame.close_pending_of_le hop]
      have hjoin := hl.join (he.mono (Nat.succ_le_of_lt hfs) hj)
      obtain ⟨ts', us', hts, h'⟩ :=
        ih hjoin hlt hop (Nat.le_of_lt (precedence_lt_primary op))
      refine ⟨ts', us', ?_, h'⟩
      rw [← hts]
      simp

/-- Closing all frames up to the next parenthesis leaves a whole expression. -/
theorem Opens.close_zero (h : Opens fs ts) (he : Derives primary us e) :
    ∃ ts' us', ts ++ us = ts' ++ us' ∧ Opens (Frame.close 0 fs e).1 ts' ∧
      Derives 1 us' (Frame.close 0 fs e).2 := by
  rw [Frame.close_zero]
  obtain ⟨ts', us', hts, hopens, hderives, -⟩ :=
    h.close Nat.one_pos he (floor_lt_primary fs) (by decide) le_rfl
  exact ⟨ts', us', hts, hopens, hderives⟩

theorem Finished.append {ss ss' : List Statement} (h : Finished ts ss)
    (h' : Statements us ss') : Statements (ts ++ us) (ss.reverse ++ ss') := by
  induction h generalizing us ss' with
  | nil => exact h'
  | skip _ ih => simpa using ih (.skip h')
  | statement _ he ih => simpa using ih (.cons he h')

end Grammar

namespace Parser

open Grammar

variable {p p' : Parser} {s : Span} {fs gs : List Frame} {ts us : List Token} {e : Expr} {t : Token}

/-- What lies open since the latest finished statement. -/
def PhaseReads : Phase → List Token → Prop
  | .between, ts => ts = []
  | .operand fs, ts => Opens fs ts
  | .operator fs e, ts => ∃ us vs, ts = us ++ vs ∧ Opens fs us ∧ Derives primary vs e

/-- The parser has come to where it is by some tokens. -/
def Reads (p : Parser) (ts : List Token) : Prop :=
  ∃ us vs, ts = us ++ vs ∧ Finished us p.finished ∧ PhaseReads p.phase vs

theorem reads_start : start.Reads [] := ⟨[], [], rfl, .nil, rfl⟩

theorem feedOperand_eq_ok_iff : p.feedOperand s fs t = .ok p' ↔
    t = .openParen ∧ p' = { p with phase := .operand (.group :: fs) } ∨
    ∃ cs n, t = .integer cs ∧ Numeral cs n.toInt ∧
      p' = { p with phase := .operator fs (.literal s n) } := by
  cases t with
  | openParen => simp [feedOperand, eq_comm]
  | integer cs =>
    simp only [feedOperand, reduceCtorEq, false_and, false_or, Token.integer.injEq,
      ← Integer.read?_eq_some_iff]
    cases hr : Integer.read? cs <;> simp [hr, eq_comm]
  | _ => simp [feedOperand]

theorem feedOperator_eq_ok_iff : p.feedOperator s fs e t = .ok p' ↔
    (∃ op, t = .operator op ∧ p' =
      { p with phase := .operand (.pending (Frame.close op.precedence fs e).2 op ::
        (Frame.close op.precedence fs e).1) }) ∨
    (∃ gs e', t = .closeParen ∧ Frame.close 0 fs e = (.group :: gs, e') ∧
      p' = { p with phase := .operator gs e' }) ∨
    ∃ e', t = .semicolon ∧ Frame.close 0 fs e = ([], e') ∧ p' = p.addStatement e' := by
  by_cases ht : ∀ op, t ≠ .operator op
  · rcases Frame.close_zero_cases fs e with ⟨e', h⟩ | ⟨gs, e', h⟩
    · rw [feedOperator_of_nil h ht]
      by_cases hs : t = .semicolon <;> simp [h, ht, hs, eq_comm]
    · rw [feedOperator_of_group h ht]
      by_cases hs : t = .closeParen <;> simp [h, ht, hs, eq_comm]
  · obtain ⟨op, rfl⟩ := Classical.not_forall_not.mp ht
    simp [feedOperator, eq_comm]

/-- The parser stands where an operand may begin, inside some frames. -/
def Awaits (p : Parser) (fs : List Frame) : Prop :=
  p.phase = .operand fs ∨ p.phase = .between ∧ fs = []

theorem feed_of_awaits (h : p.Awaits fs) (ht : t.isBlank = false) (hs : t ≠ .semicolon) :
    p.feed t = (p.past t).feedOperand (p.ahead t) fs t := by
  rcases h with hp | ⟨hp, rfl⟩
  · exact feed_operand hp ht
  · rw [feed_between hp ht, if_neg hs]

/-- The tokens that a parser can take, and where it is behind them. -/
inductive Takes (p : Parser) : Token → Parser → Prop where
  | blank {n : Nat} : Takes p (.blank n) (p.past (.blank n))
  | skip : p.phase = .between → Takes p .semicolon (p.past .semicolon)
  | openParen {fs : List Frame} : p.Awaits fs →
    Takes p .openParen { p.past .openParen with phase := .operand (.group :: fs) }
  | integer {fs : List Frame} {cs : List Char} {n : Int64} : p.Awaits fs → Numeral cs n.toInt →
    Takes p (.integer cs)
      { p.past (.integer cs) with phase := .operator fs (.literal (p.ahead (.integer cs)) n) }
  | operator {fs gs : List Frame} {e e' : Expr} {op : Operator} : p.phase = .operator fs e →
    Frame.close op.precedence fs e = (gs, e') →
    Takes p (.operator op) { p.past (.operator op) with phase := .operand (.pending e' op :: gs) }
  | closeParen {fs gs : List Frame} {e e' : Expr} : p.phase = .operator fs e →
    Frame.close 0 fs e = (.group :: gs, e') →
    Takes p .closeParen { p.past .closeParen with phase := .operator gs e' }
  | semicolon {fs : List Frame} {e e' : Expr} : p.phase = .operator fs e →
    Frame.close 0 fs e = ([], e') → Takes p .semicolon ((p.past .semicolon).addStatement e')

theorem takes_of_feedOperand (h : p.Awaits fs)
    (hf : (p.past t).feedOperand (p.ahead t) fs t = .ok p') : p.Takes t p' := by
  rcases feedOperand_eq_ok_iff.mp hf with ⟨rfl, rfl⟩ | ⟨cs, n, rfl, hn, rfl⟩
  · exact .openParen h
  · exact .integer h hn

theorem takes_of_feed (hf : p.feed t = .ok p') : p.Takes t p' := by
  cases ht : t.isBlank with
  | true =>
    rw [feed_of_isBlank ht] at hf
    cases hf
    cases t with
    | blank => exact .blank
    | _ => cases ht
  | false =>
    cases hp : p.phase with
    | between =>
      rw [feed_between hp ht] at hf
      split at hf
      · next hs =>
        subst hs
        cases hf
        exact .skip hp
      · exact takes_of_feedOperand (.inr ⟨hp, rfl⟩) hf
    | operand fs =>
      rw [feed_operand hp ht] at hf
      exact takes_of_feedOperand (.inl hp) hf
    | operator fs e =>
      rw [feed_operator hp ht] at hf
      rcases feedOperator_eq_ok_iff.mp hf with ⟨op, rfl, rfl⟩ | ⟨gs, e', rfl, hc, rfl⟩ |
        ⟨e', rfl, hc, rfl⟩
      · exact .operator hp rfl
      · exact .closeParen hp hc
      · exact .semicolon hp hc

theorem opens_of_awaits (h : p.Awaits fs) (hr : PhaseReads p.phase ts) : Opens fs ts := by
  rcases h with hp | ⟨hp, rfl⟩ <;> rw [hp] at hr
  · exact hr
  · exact opens_nil_iff.mpr hr

/-- One more token read. -/
theorem reads_feed (h : p.Reads ts) (ht : t.isBlank = false) (hf : p.feed t = .ok p') :
    p'.Reads (ts ++ [t]) := by
  obtain ⟨us, vs, rfl, hus, hvs⟩ := h
  cases takes_of_feed hf with
  | blank => cases ht
  | skip hp =>
    rw [hp] at hvs
    obtain rfl : vs = [] := hvs
    exact ⟨us ++ [.semicolon], [], by simp, .skip hus, by rw [past, hp]; rfl⟩
  | openParen hp => exact ⟨us, _, by simp, hus, Opens.group (opens_of_awaits hp hvs)⟩
  | integer hp hn => exact ⟨us, _, by simp, hus, vs, _, rfl, opens_of_awaits hp hvs, .literal hn⟩
  | @operator fs gs e e' op hp hc =>
    rw [hp] at hvs
    obtain ⟨xs, ys, rfl, hx, hy⟩ := hvs
    obtain ⟨xs', ys', hxy, hx', hy', hlt⟩ := hx.close op.precedence_pos hy
      (floor_lt_primary fs) (Nat.le_of_lt (precedence_lt_primary op)) le_rfl
    rw [hc] at hx' hy' hlt
    refine ⟨us, xs' ++ (ys' ++ [Token.operator op]), by simp [hxy], hus, ?_⟩
    exact Opens.pending hx' hlt hy'
  | closeParen hp hc =>
    rw [hp] at hvs
    obtain ⟨xs, ys, rfl, hx, hy⟩ := hvs
    obtain ⟨xs', ys', hxy, hx', hy'⟩ := hx.close_zero hy
    rw [hc] at hx' hy'
    obtain ⟨zs, rfl, hz⟩ := opens_group_iff.mp hx'
    refine ⟨us, zs ++ (.openParen :: ys' ++ [.closeParen]), by simp [hxy], hus, ?_⟩
    exact ⟨zs, _, rfl, hz, .group hy'⟩
  | semicolon hp hc =>
    rw [hp] at hvs
    obtain ⟨xs, ys, rfl, hx, hy⟩ := hvs
    obtain ⟨xs', ys', hxy, hx', hy'⟩ := hx.close_zero hy
    rw [hc] at hx' hy'
    obtain rfl := opens_nil_iff.mp hx'
    exact ⟨us ++ (ys' ++ [.semicolon]), [], by simp [hxy], .statement hus hy', rfl⟩

theorem foldlM_cons_eq_ok_iff : (t :: ts).foldlM feed p = .ok p' ↔
    ∃ p₁, p.feed t = .ok p₁ ∧ ts.foldlM feed p₁ = .ok p' := by
  rw [List.foldlM_cons]
  exact Fault.bind_eq_ok_iff

theorem reads_foldlM (h : p.Reads us) (hts : ∀ t ∈ ts, t.isBlank = false)
    (hf : ts.foldlM feed p = .ok p') : p'.Reads (us ++ ts) := by
  induction ts generalizing p us with
  | nil =>
    cases hf
    simpa using h
  | cons t ts ih =>
    rw [List.forall_mem_cons] at hts
    obtain ⟨q, ht, hf⟩ := foldlM_cons_eq_ok_iff.mp hf
    simpa using ih (reads_feed h hts.1 ht) hts.2 hf

theorem statements_of_finish {q : Program} (h : p.Reads ts) (hf : p.finish = .ok q) :
    Statements ts q.statements := by
  obtain ⟨us, vs, rfl, hus, hvs⟩ := h
  rcases finish_eq_ok_iff.mp hf with ⟨hp, rfl⟩ | ⟨fs, e, e', hp, hc, rfl⟩
  · rw [hp] at hvs
    obtain rfl : vs = [] := hvs
    simpa using hus.append .nil
  · rw [hp] at hvs
    obtain ⟨xs, ys, rfl, hx, hy⟩ := hvs
    obtain ⟨xs', ys', hxy, hx', hy'⟩ := hx.close_zero hy
    rw [hc] at hx' hy'
    obtain rfl := opens_nil_iff.mp hx'
    simpa [addStatement, Statement.ofExpr, hxy] using hus.append (.last hy')

theorem statements_of_readTokens {q : Program} (hts : ∀ t ∈ ts, t.isBlank = false)
    (h : readTokens ts = .ok q) : Statements ts q.statements := by
  obtain ⟨p, hf, hfinish⟩ := Fault.bind_eq_ok_iff.mp h
  exact statements_of_finish (reads_foldlM reads_start hts hf) hfinish

theorem feed_integer {cs : List Char} {n : Int64} (h : p.Awaits fs) (hn : Numeral cs n.toInt) :
    ∃ p', p.feed (.integer cs) = .ok p' ∧ p'.finished = p.finished ∧
      p'.phase = .operator fs (.literal (p.ahead (.integer cs)) n) := by
  rw [feed_of_awaits (t := .integer cs) h rfl nofun]
  exact ⟨_, feedOperand_eq_ok_iff.mpr (.inr ⟨cs, n, rfl, hn, rfl⟩), rfl, rfl⟩

theorem feed_openParen (h : p.Awaits fs) : ∃ p', p.feed .openParen = .ok p' ∧
    p'.finished = p.finished ∧ p'.Awaits (.group :: fs) := by
  rw [feed_of_awaits (t := .openParen) h rfl nofun]
  exact ⟨_, feedOperand_eq_ok_iff.mpr (.inl ⟨rfl, rfl⟩), rfl, .inl rfl⟩

theorem feed_binary {op : Operator} {e' : Expr} (h : p.phase = .operator gs e)
    (hc : Frame.close op.precedence gs e = (fs, e')) : ∃ p', p.feed (.operator op) = .ok p' ∧
      p'.finished = p.finished ∧ p'.Awaits (.pending e' op :: fs) := by
  rw [feed_operator h rfl]
  refine ⟨_, feedOperator_eq_ok_iff.mpr (.inl ⟨op, rfl, rfl⟩), rfl, .inl ?_⟩
  rw [hc]

theorem feed_closeParen {e' : Expr} (h : p.phase = .operator gs e)
    (hc : Frame.close 0 gs e = (.group :: fs, e')) : ∃ p', p.feed .closeParen = .ok p' ∧
      p'.finished = p.finished ∧ p'.phase = .operator fs e' := by
  rw [feed_operator h rfl]
  exact ⟨_, feedOperator_eq_ok_iff.mpr (.inr (.inl ⟨fs, e', rfl, hc, rfl⟩)), rfl, rfl⟩

theorem feed_semicolon {e' : Expr} (h : p.phase = .operator gs e)
    (hc : Frame.close 0 gs e = ([], e')) : ∃ p', p.feed .semicolon = .ok p' ∧
      p'.finished = .ofExpr e' :: p.finished ∧ p'.phase = .between := by
  rw [feed_operator h rfl]
  exact ⟨_, feedOperator_eq_ok_iff.mpr (.inr (.inr ⟨e', rfl, hc, rfl⟩)), rfl, rfl⟩

theorem foldlM_cons_of_ok (h : p.feed t = .ok p') (ts : List Token) :
    (t :: ts).foldlM feed p = ts.foldlM feed p' := by
  rw [List.foldlM_cons, h]
  rfl

theorem foldlM_append_of_ok (h : ts.foldlM feed p = .ok p') (us : List Token) :
    (ts ++ us).foldlM feed p = us.foldlM feed p' := by
  rw [List.foldlM_append, h]
  rfl

/-- Some tokens take the parser over an operand that differs from `e` in spans only. The operators
that are still pending bind at least as tightly as `level`. -/
def Passes (p : Parser) (level : Nat) (fs : List Frame) (ts : List Token) (e : Expr) : Prop :=
  ∃ p' gs e' e₁, ts.foldlM feed p = .ok p' ∧ p'.finished = p.finished ∧
    p'.phase = .operator gs e' ∧ Frame.close level gs e' = (fs, e₁) ∧ e₁.erase = e.erase

/-- The parser goes along a derivation, whatever surrounds it. -/
theorem passes_of_derives {level : Nat} (h : Derives level ts e) (hp : p.Awaits fs)
    (hfs : Frame.floor fs < level) : p.Passes level fs ts e := by
  induction h generalizing p fs with
  | literal hn =>
    obtain ⟨p', hf, hfin, hph⟩ := feed_integer hp hn
    exact ⟨p', fs, _, _, foldlM_cons_of_ok hf [], hfin, hph, Frame.close_of_floor_lt hfs _, rfl⟩
  | @group ts e _ ih =>
    obtain ⟨p₁, hf₁, hfin₁, hp₁⟩ := feed_openParen hp
    obtain ⟨p₂, gs, e', e₁, hf₂, hfin₂, hph₂, hc, he⟩ := ih hp₁ Nat.one_pos
    rw [← Frame.close_zero] at hc
    obtain ⟨p₃, hf₃, hfin₃, hph₃⟩ := feed_closeParen hph₂ hc
    refine ⟨p₃, fs, e₁, e₁, ?_, ?_, hph₃, Frame.close_of_floor_lt hfs _, he⟩
    · rw [List.cons_append, foldlM_cons_of_ok hf₁, foldlM_append_of_ok hf₂,
        foldlM_cons_of_ok hf₃]
      rfl
    · rw [hfin₃, hfin₂, hfin₁]
  | @tighter level ts e _ _ ih =>
    obtain ⟨p', gs, e', e₁, hf, hfin, hph, hc, he⟩ := ih hp (Nat.lt_succ_of_lt hfs)
    refine ⟨p', gs, e', e₁, hf, hfin, hph, ?_, he⟩
    rw [← Frame.close_close (Nat.le_succ level), hc]
    exact Frame.close_of_floor_lt hfs e₁
  | @binary level op s ls rs l r hop _ _ ihl ihr =>
    obtain rfl := mem_operators_iff.mp hop
    obtain ⟨p₁, gs, e', l', hf₁, hfin₁, hph₁, hc₁, hl⟩ := ihl hp hfs
    obtain ⟨p₂, hf₂, hfin₂, hp₂⟩ := feed_binary hph₁ hc₁
    obtain ⟨p₃, gs', e'', r', hf₃, hfin₃, hph₃, hc₃, hr⟩ := ihr hp₂ (Nat.lt_succ_self _)
    refine ⟨p₃, gs', e'', l'.join op r', ?_, ?_, hph₃, ?_, ?_⟩
    · rw [foldlM_append_of_ok hf₁, foldlM_cons_of_ok hf₂, hf₃]
    · rw [hfin₃, hfin₂, hfin₁]
    · -- the right operand is closed first, and then the operator that it completes
      rw [← Frame.close_close (Nat.le_succ _), hc₃, Frame.close_pending_of_le le_rfl]
      exact Frame.close_of_floor_lt hfs _
    · rw [Expr.join, Expr.erase_binary, Expr.erase_binary, hl, hr]

/-- The parser goes along some statements and adds them to those that it has. -/
theorem finish_of_statements {ss : List Statement} (h : Statements ts ss)
    (hp : p.phase = .between) : ∃ ss',
      (ts.foldlM feed p >>= finish) = .ok ⟨p.finished.reverse ++ ss'⟩ ∧
        ss'.map Statement.erase = ss.map Statement.erase := by
  induction h generalizing p with
  | nil =>
    refine ⟨[], ?_, rfl⟩
    simp [finish, finishAt, hp, bind, Except.bind, pure, Except.pure]
  | skip _ ih =>
    have hf : p.feed .semicolon = .ok (p.past .semicolon) := feed_between hp rfl
    rw [foldlM_cons_of_ok hf]
    exact ih (p := p.past .semicolon) hp
  | @last ts s e hd =>
    obtain ⟨p', gs, e', e₁, hf, hfin, hph, hc, he⟩ :=
      passes_of_derives hd (.inr ⟨hp, rfl⟩) Nat.one_pos
    rw [← Frame.close_zero] at hc
    have hs : (Statement.ofExpr e₁).erase = Statement.erase ⟨s, e⟩ := Statement.erase_eq_iff.mpr he
    refine ⟨[.ofExpr e₁], ?_, congrArg ([·]) hs⟩
    rw [hf]
    refine (finish_of_nil hph hc).trans ?_
    rw [addStatement, List.reverse_cons, hfin]
  | @cons ts us s e ss hd _ ih =>
    obtain ⟨p₁, gs, e', e₁, hf₁, hfin₁, hph₁, hc, he⟩ :=
      passes_of_derives hd (.inr ⟨hp, rfl⟩) Nat.one_pos
    rw [← Frame.close_zero] at hc
    obtain ⟨p₂, hf₂, hfin₂, hp₂⟩ := feed_semicolon hph₁ hc
    obtain ⟨ss', hf₃, hss⟩ := ih hp₂
    have hs : (Statement.ofExpr e₁).erase = Statement.erase ⟨s, e⟩ := Statement.erase_eq_iff.mpr he
    refine ⟨.ofExpr e₁ :: ss', ?_, ?_⟩
    · rw [foldlM_append_of_ok hf₁, foldlM_cons_of_ok hf₂, hf₃, hfin₂, hfin₁]
      simp
    · rw [List.map_cons, List.map_cons, hss, hs]

theorem readTokens_of_statements {q : Program} (h : Statements ts q.statements) :
    ∃ q', readTokens ts = .ok q' ∧ q'.erase = q.erase := by
  obtain ⟨ss, hf, hss⟩ := finish_of_statements (p := start) h rfl
  exact ⟨⟨ss⟩, hf, Program.erase_eq_iff.mpr hss⟩

end Parser

namespace Grammar

variable {ts : List Token}

/-- Spans have no part in derivations. -/
theorem Derives.congr {level : Nat} {e e' : Expr} (h : Derives level ts e)
    (he : e.erase = e'.erase) : Derives level ts e' := by
  induction h generalizing e' with
  | literal hn =>
    cases e' with
    | literal s n =>
      obtain ⟨-, rfl⟩ := Expr.literal.inj he
      exact .literal hn
    | binary s op l r => cases he
  | group _ ih => exact .group (ih he)
  | tighter hlt _ ih => exact .tighter hlt (ih he)
  | binary hop _ _ ihl ihr =>
    cases e' with
    | literal s n => cases he
    | binary s op l r =>
      obtain ⟨-, rfl, hl, hr⟩ := Expr.binary.inj he
      exact .binary hop (ihl hl) (ihr hr)

theorem Statements.congr {ss ss' : List Statement} (h : Statements ts ss)
    (hss : ss.map Statement.erase = ss'.map Statement.erase) : Statements ts ss' := by
  induction h generalizing ss' with
  | nil =>
    obtain rfl := List.map_eq_nil_iff.mp hss.symm
    exact .nil
  | skip _ ih => exact .skip (ih hss)
  | last he =>
    obtain ⟨⟨s', e'⟩, rfl, hs⟩ := List.map_eq_singleton_iff.mp hss.symm
    exact .last (he.congr (Statement.erase_eq_iff.mp hs.symm))
  | cons he _ ih =>
    obtain ⟨⟨s', e'⟩, ss', rfl, hs, hss⟩ := List.map_eq_cons_iff.mp hss.symm
    exact .cons (he.congr (Statement.erase_eq_iff.mp hs.symm)) (ih hss.symm)

end Grammar

open Grammar

theorem exists_readTokens_iff_filter (ts : List Token) (p : Program) :
    (∃ q, readTokens ts = .ok q ∧ q.erase = p.erase) ↔
      ∃ q, readTokens (ts.filter (!·.isBlank)) = .ok q ∧ q.erase = p.erase := by
  have h := readTokens_filter ts
  cases hx : readTokens ts <;> cases hy : readTokens (ts.filter (!·.isBlank)) <;>
    simp only [hx, hy, Parser.eraseResult_ok, Parser.eraseResult_error, reduceCtorEq,
      Except.ok.injEq] at h
  · simp
  · simp [h]

theorem exists_readTokens_iff {ts : List Token} {p : Program} :
    (∃ q, readTokens ts = .ok q ∧ q.erase = p.erase) ↔ Generates ts p := by
  rw [exists_readTokens_iff_filter]
  constructor
  · rintro ⟨q, hq, he⟩
    have hts : ∀ t ∈ ts.filter (!·.isBlank), t.isBlank = false := by simp
    exact (Parser.statements_of_readTokens hts hq).congr (Program.erase_eq_iff.mp he)
  · exact Parser.readTokens_of_statements

/-- Tokens are those of at most one program. -/
theorem Grammar.Generates.unique {ts : List Token} {p q : Program} (hp : Generates ts p)
    (hq : Generates ts q) : p.erase = q.erase := by
  obtain ⟨p', hp', hpe⟩ := exists_readTokens_iff.mpr hp
  obtain ⟨q', hq', hqe⟩ := exists_readTokens_iff.mpr hq
  obtain rfl := Except.ok.inj (hp'.symm.trans hq')
  exact hpe.symm.trans hqe

theorem exists_parseTokens_iff {ts : List Token} {p : Program} :
    (∃ q, parseTokens ts = some (.ok q) ∧ q.erase = p.erase) ↔
      Token.Showable ts ∧ Generates ts p := by
  simp only [parseTokens_eq_ok_iff, and_assoc, exists_and_left, exists_readTokens_iff]

/-- The parser gives the program that some tokens come from. There is at most one, and it holds
their integers and operators in order. All other tokens are refused, except that the parser crashes
at a blank that cannot be shown. -/
theorem parseTokens_recognises (ts : List Token) :
    (∀ p, (∃ q, parseTokens ts = some (.ok q) ∧ q.erase = p.erase) ↔
      Token.Showable ts ∧ Generates ts p) ∧
    (Token.Showable ts → ∃ answer, parseTokens ts = some answer) ∧
    (∀ p q, Generates ts p → Generates ts q → p.erase = q.erase) ∧
    ∀ p, Generates ts p → List.Forall₂ Symbol.Spelled (ts.filter Token.isSymbol) p.symbols :=
  ⟨fun _ => exists_parseTokens_iff, fun hts => ⟨_, parseTokens_of_showable hts⟩,
    fun _ _ => Generates.unique, fun _ => Generates.spelled⟩

/-- The tokens of `;1-2 - +3*4` come from no other program than `(1 - 2) - (3 * 4)`. -/
theorem parseTokens_recognises_left_to_right :
    Generates [.semicolon, .integer ['1'], .operator .minus, .integer ['2'], .blank 1,
        .operator .minus, .blank 1, .integer ['+', '3'], .operator .times, .integer ['4']]
      ⟨[⟨.nowhere, .binary .nowhere .minus
        (.binary .nowhere .minus (.literal .nowhere 1) (.literal .nowhere 2))
        (.binary .nowhere .times (.literal .nowhere 3) (.literal .nowhere 4))⟩]⟩ ∧
    ¬ Generates [.semicolon, .integer ['1'], .operator .minus, .integer ['2'], .blank 1,
        .operator .minus, .blank 1, .integer ['+', '3'], .operator .times, .integer ['4']]
      ⟨[⟨.nowhere, .binary .nowhere .minus (.literal .nowhere 1)
        (.binary .nowhere .minus (.literal .nowhere 2)
          (.binary .nowhere .times (.literal .nowhere 3) (.literal .nowhere 4)))⟩]⟩ := by
  obtain ⟨hiff, -, hunique, -⟩ := parseTokens_recognises [.semicolon, .integer ['1'],
    .operator .minus, .integer ['2'], .blank 1, .operator .minus, .blank 1,
    .integer ['+', '3'], .operator .times, .integer ['4']]
  obtain ⟨-, h⟩ := (hiff ⟨[⟨.nowhere, .binary .nowhere .minus
    (.binary .nowhere .minus (.literal .nowhere 1) (.literal .nowhere 2))
    (.binary .nowhere .times (.literal .nowhere 3) (.literal .nowhere 4))⟩]⟩).mp
      ⟨_, rfl, by decide⟩
  exact ⟨h, fun h' => absurd (hunique _ _ h h') (by decide)⟩

/-- A numeral alone is a program, but the parser does not get over a wide blank before it. -/
theorem parseTokens_crashes_at_wide_blank :
    Generates [.blank 65536, .integer ['1']] ⟨[⟨.nowhere, .literal .nowhere 1⟩]⟩ ∧
    parseTokens [.blank 65536, .integer ['1']] = none := by
  constructor
  · exact exists_readTokens_iff.mp ⟨_, rfl, by decide⟩
  · rw [parseTokens, Parser.feedAll_cons_of_not_isShowable (by decide)]
    rfl

end ByteCalc
