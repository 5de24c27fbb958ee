import ByteCalc.Proofs.Segmentation
import ByteCalc.Proofs.Separation

/-! # Where the parts of a program stand in its source

The spans of the literals are the runs of digits of the source, from left to
right. An operator stands between its operands, with nothing but blanks and
parentheses around it. The parser gets this right although it keeps no token
that it has read, and although parentheses take up no place in the spans.
-/

namespace ByteCalc

variable {text : List Char}

/-! ## Pieces of a text -/

namespace Span

variable {q : Char → Bool} {s s' : Span} {i : Nat} {c : Char}

theorem getElem?_slice (s : Span) (text : List Char) (j : Nat) :
    (s.slice text)[j]? = if j < s.stop - s.start then text[s.start + j]? else none := by
  rw [slice, List.extract_eq_take_drop, List.getElem?_take]
  split
  · rw [List.getElem?_drop]
  · rfl

theorem mem_slice (hc : text[i]? = some c) (hi : s.start ≤ i) (hi' : i < s.stop) :
    c ∈ s.slice text := by
  rw [List.mem_iff_getElem?]
  refine ⟨i - s.start, ?_⟩
  rw [getElem?_slice, if_pos (Nat.sub_lt_sub_right hi hi'), Nat.add_sub_cancel' hi, hc]

theorem lt_of_slice_ne_nil (h : s.slice text ≠ []) : s.start < s.stop := by
  by_contra hle
  apply h
  rw [slice, List.extract_eq_take_drop, Nat.sub_eq_zero_of_le (Nat.le_of_not_lt hle),
    List.take_zero]

theorem isWhitespace_or_eq (h : s.slice text = [c]) :
    ∀ d ∈ s.slice text, d.isWhitespace ∨ d = c := by
  rw [h, List.forall_mem_singleton]
  exact .inr rfl

theorem slice_append_slice {a b c : Nat} (hab : a ≤ b) (hbc : b ≤ c) (text : List Char) :
    (⟨a, b⟩ : Span).slice text ++ (⟨b, c⟩ : Span).slice text = (⟨a, c⟩ : Span).slice text := by
  have hsum : c - a = b - a + (c - b) := by omega
  simp only [slice, List.extract_eq_take_drop]
  rw [hsum, List.take_add, List.drop_drop, Nat.add_sub_cancel' hab]

namespace IsRun

theorem getElem? (h : s.IsRun q text) (hi : s.start ≤ i) (hi' : i < s.stop) :
    ∃ c, text[i]? = some c ∧ q c := by
  have hlt : i < text.length := Nat.lt_of_lt_of_le hi' h.le
  exact ⟨text[i], List.getElem?_eq_getElem hlt,
    h.inside _ (mem_slice (List.getElem?_eq_getElem hlt) hi hi')⟩

theorem start_le (h : s.IsRun q text) (h' : s'.IsRun q text) (hi : i < s.stop)
    (hi' : s'.start ≤ i) : s'.start ≤ s.start := by
  by_contra hlt
  obtain ⟨c, hc, hq⟩ := h.getElem? (i := s'.start - 1) (by omega) (by omega)
  rw [h'.before _ c (by omega) hc] at hq
  cases hq

theorem le_stop (h : s.IsRun q text) (h' : s'.IsRun q text) (hi : i < s.stop)
    (hi' : s'.start ≤ i) : s'.stop ≤ s.stop := by
  by_contra hlt
  obtain ⟨c, hc, hq⟩ := h'.getElem? (i := s.stop) (by omega) (by omega)
  rw [h.behind c hc] at hq
  cases hq

/-- Runs that have a place in common are the same. -/
theorem unique (h : s.IsRun q text) (h' : s'.IsRun q text) (hi : s.start ≤ i ∧ i < s.stop)
    (hi' : s'.start ≤ i ∧ i < s'.stop) : s = s' := by
  have hstart := Nat.le_antisymm (h'.start_le h hi'.2 hi.1) (h.start_le h' hi.2 hi'.1)
  have hstop := Nat.le_antisymm (h'.le_stop h hi'.2 hi.1) (h.le_stop h' hi.2 hi'.1)
  cases s
  cases s'
  cases hstart
  cases hstop
  rfl

end IsRun

/-- An operator with blanks and closing parentheses before it, and with opening parentheses and
blanks after it. -/
def HoldsOperator (text : List Char) (op : Operator) (s : Span) : Prop :=
  ∃ us vs, s.slice text = us ++ op.chars ++ vs ∧ (∀ c ∈ us, c.isWhitespace ∨ c = ')') ∧
    ∀ c ∈ vs, c.isWhitespace ∨ c = '('

end Span

namespace Token

variable {t : Token} {ts : List Token} {s : Span} {a i : Nat} {c : Char}

theorem le_start_of_mem_locate (h : (s, t) ∈ locate a ts) : a ≤ s.start := by
  induction ts generalizing a with
  | nil => cases h
  | cons u us ih =>
    rcases List.mem_cons.mp h with h | h
    · cases h
      exact Nat.le_refl a
    · exact Nat.le_of_add_right_le (ih h)

theorem pairwise_locate (a : Nat) (ts : List Token) :
    (locate a ts).Pairwise fun x y => x.1.stop ≤ y.1.start := by
  induction ts generalizing a with
  | nil => exact .nil
  | cons t ts ih => exact .cons (fun _ hmem => le_start_of_mem_locate hmem) (ih _)

/-- No place of a text lies between its tokens. -/
theorem exists_mem_locate (hi : a ≤ i) (hlt : i < a + extent ts) :
    ∃ s t, (s, t) ∈ locate a ts ∧ s.start ≤ i ∧ i < s.stop := by
  induction ts generalizing a with
  | nil => exact absurd hlt (Nat.not_lt_of_le hi)
  | cons t ts ih =>
    rcases Nat.lt_or_ge i (a + t.width) with h | h
    · exact ⟨_, t, List.mem_cons_self, hi, h⟩
    · rw [← List.singleton_append, extent_append, extent_singleton, ← Nat.add_assoc] at hlt
      obtain ⟨s, u, hmem, hs⟩ := ih h hlt
      exact ⟨s, u, List.mem_cons_of_mem _ hmem, hs⟩

theorem isRun_of_isInteger (h : t.Covers text s) (ht : t.isInteger) :
    s.IsRun Char.isDigit text := by
  cases t with
  | integer ds => exact h.1
  | _ => cases ht

/-- Only numerals have digits in them. -/
theorem not_isDigit_of_covers (h : t.Covers text s) (ht : t.isInteger = false) :
    ∀ c ∈ s.slice text, c.isDigit = false := by
  intro c hc
  cases t with
  | integer ds => cases ht
  | blank n => exact not_isDigit_of_isWhitespace (h.1.inside c hc)
  | unknown us => exact (h.2.1.plain c (h.1 ▸ hc)).2
  | operator op => exact (plain_of_mem_fixed (operator_mem_fixed op) c (h ▸ hc)).2
  | openParen | closeParen | semicolon => exact (plain_of_mem_fixed (by decide) c (h ▸ hc)).2

/-- The spans of the numerals among some tokens. -/
def integerSpans (a : Nat) (ts : List Token) : List Span :=
  ((locate a ts).filter (·.2.isInteger)).map (·.1)

theorem integerSpans_cons (a : Nat) (t : Token) (ts : List Token) : integerSpans a (t :: ts) =
    integerSpans a [t] ++ integerSpans (a + t.width) ts := by
  cases h : t.isInteger <;> simp [integerSpans, locate, h]

theorem pairwise_integerSpans (a : Nat) (ts : List Token) :
    (integerSpans a ts).Pairwise (·.stop ≤ ·.start) := by
  rw [integerSpans, List.pairwise_map]
  exact (pairwise_locate a ts).filter _

/-- The numerals of a text are its runs of digits. -/
theorem mem_integerSpans_iff (hcovers : ∀ s t, (s, t) ∈ locate 0 ts → t.Covers text s)
    (hextent : extent ts = text.length) (s : Span) :
    s ∈ integerSpans 0 ts ↔ s.IsRun Char.isDigit text := by
  constructor
  · intro h
    obtain ⟨⟨s, t⟩, hmem, rfl⟩ := List.mem_map.mp h
    obtain ⟨hmem, ht⟩ := List.mem_filter.mp hmem
    exact isRun_of_isInteger (hcovers s t hmem) ht
  · intro h
    have hlt : s.start < 0 + extent ts := by
      rw [Nat.zero_add, hextent]
      exact Nat.lt_of_lt_of_le h.lt h.le
    obtain ⟨s', t, hmem, hs'⟩ := exists_mem_locate (Nat.zero_le s.start) hlt
    obtain ⟨c, hc, hd⟩ := h.getElem? le_rfl h.lt
    -- the token at the first digit of the run is a numeral, and so is a run itself
    have ht : t.isInteger := by
      by_contra hn
      have := not_isDigit_of_covers (hcovers s' t hmem) (Bool.eq_false_iff.mpr hn) c
        (Span.mem_slice hc hs'.1 hs'.2)
      simp [hd] at this
    obtain rfl := h.unique (isRun_of_isInteger (hcovers s' t hmem) ht) ⟨le_rfl, h.lt⟩ hs'
    exact List.mem_map.mpr ⟨(s, t), List.mem_filter.mpr ⟨hmem, ht⟩, rfl⟩

end Token

/-! ## Nodes -/

namespace Expr

variable {e l r : Expr} {op : Operator}

/-- What a node says about the text that it was read from. -/
def Placed (text : List Char) : Expr → Prop
  | literal s n => s.IsRun Char.isDigit text ∧ ∃ k : Nat, Digits (s.slice text) k ∧ n.toInt = k
  | binary s op l r => s = ⟨l.span.start, r.span.stop⟩ ∧
    Span.HoldsOperator text op ⟨l.span.stop, r.span.start⟩

/-- All nodes of an expression stand where their spans say. -/
def AllPlaced (text : List Char) (e : Expr) : Prop := ∀ e' ∈ e.postorder, e'.Placed text

/-- The span of a literal. -/
def literalSpan? : Expr → Option Span
  | literal s _ => some s
  | binary _ _ _ _ => none

/-- The spans of the literals from left to right. -/
def literalSpans (e : Expr) : List Span := e.postorder.filterMap literalSpan?

theorem literalSpans_join (op : Operator) (l r : Expr) :
    (l.join op r).literalSpans = l.literalSpans ++ r.literalSpans := by
  simp [literalSpans, join, postorder_binary, literalSpan?]

theorem allPlaced_join (hl : l.AllPlaced text) (hr : r.AllPlaced text)
    (hop : Span.HoldsOperator text op ⟨l.span.stop, r.span.start⟩) :
    (l.join op r).AllPlaced text := by
  rw [AllPlaced, join, postorder_binary]
  simp only [List.forall_mem_append, List.forall_mem_singleton]
  exact ⟨⟨hl, hr⟩, rfl, hop⟩

end Expr

/-- The spans of the literals from left to right. -/
def Program.literalSpans (p : Program) : List Span := p.nodes.filterMap Expr.literalSpan?

theorem Program.literalSpans_eq (p : Program) :
    p.literalSpans = p.statements.flatMap (·.expr.literalSpans) := by
  rw [literalSpans, nodes, List.filterMap_flatMap]
  rfl

/-! ## Unfinished parts -/

namespace Span

variable {a b c : Nat} {op : Operator}

theorem HoldsOperator.lt (h : HoldsOperator text op ⟨a, b⟩) : a < b := by
  obtain ⟨us, vs, hslice, -⟩ := h
  have hne : (⟨a, b⟩ : Span).slice text ≠ [] := by
    rw [hslice]
    cases op <;> simp [Operator.chars]
  exact lt_of_slice_ne_nil hne

/-- Blanks and opening parentheses may follow an operator. -/
theorem HoldsOperator.extend (h : HoldsOperator text op ⟨a, b⟩) (hbc : b ≤ c)
    (hopen : ∀ d ∈ (⟨b, c⟩ : Span).slice text, d.isWhitespace ∨ d = '(') :
    HoldsOperator text op ⟨a, c⟩ := by
  have hab := h.lt
  obtain ⟨us, vs, hslice, hus, hvs⟩ := h
  refine ⟨us, vs ++ (⟨b, c⟩ : Span).slice text, ?_, hus, ?_⟩
  · rw [← slice_append_slice hab.le hbc, hslice, List.append_assoc]
  · exact List.forall_mem_append.mpr ⟨hvs, hopen⟩

/-- From the end of an operand on, a text holds nothing but blanks and closing parentheses. -/
def Trails (text : List Char) (s : Span) : Prop :=
  s.start ≤ s.stop ∧ ∀ c ∈ s.slice text, c.isWhitespace ∨ c = ')'

theorem trails_refl (text : List Char) (a : Nat) : Trails text ⟨a, a⟩ := by
  refine ⟨le_rfl, ?_⟩
  simp [slice, List.extract_eq_take_drop]

theorem Trails.extend (h : Trails text ⟨a, b⟩) (hbc : b ≤ c)
    (hclose : ∀ d ∈ (⟨b, c⟩ : Span).slice text, d.isWhitespace ∨ d = ')') :
    Trails text ⟨a, c⟩ := by
  refine ⟨h.1.trans hbc, ?_⟩
  rw [← slice_append_slice h.1 hbc]
  exact List.forall_mem_append.mpr ⟨h.2, hclose⟩

theorem Trails.holdsOperator (h : Trails text ⟨a, b⟩) (hbc : b ≤ c)
    (hop : (⟨b, c⟩ : Span).slice text = op.chars) : HoldsOperator text op ⟨a, c⟩ := by
  refine ⟨(⟨a, b⟩ : Span).slice text, [], ?_, h.2, by simp⟩
  rw [← slice_append_slice h.1 hbc, hop, List.append_nil]

end Span

namespace Frame

variable {fs : List Frame} {e : Expr} {a b : Nat}

/-- What is unfinished leads up to the place `a`. -/
def Placed (text : List Char) : List Frame → Nat → Prop
  | [], _ => True
  -- an open parenthesis is one of the characters behind the pending operator
  | group :: fs, a => Placed text fs a
  | pending lhs op :: fs, a => lhs.AllPlaced text ∧
    Span.HoldsOperator text op ⟨lhs.span.stop, a⟩ ∧ Placed text fs lhs.span.start

/-- The spans of the literals from left to right. -/
def literalSpans : List Frame → List Span
  | [] => []
  | group :: fs => literalSpans fs
  | pending lhs _ :: fs => literalSpans fs ++ lhs.literalSpans

theorem Placed.extend (h : Placed text fs a) (hab : a ≤ b)
    (hopen : ∀ c ∈ (⟨a, b⟩ : Span).slice text, c.isWhitespace ∨ c = '(') : Placed text fs b := by
  induction fs with
  | nil => trivial
  | cons f fs ih =>
    cases f with
    | group => exact ih h
    | pending lhs op => exact ⟨h.1, h.2.1.extend hab hopen, h.2.2⟩

/-- Closing frames leaves the end of the operand where it is. -/
theorem placed_close (level : Nat) (hfs : Placed text fs e.span.start)
    (he : e.AllPlaced text) :
    Placed text (close level fs e).1 (close level fs e).2.span.start ∧
      (close level fs e).2.AllPlaced text ∧
      (close level fs e).2.span.stop = e.span.stop := by
  induction fs generalizing e with
  | nil => exact ⟨hfs, he, rfl⟩
  | cons f fs ih =>
    cases f with
    | group => exact ⟨hfs, he, rfl⟩
    | pending lhs op =>
      rcases Nat.lt_or_ge op.precedence level with h | h
      · rw [close_of_floor_lt h]
        exact ⟨hfs, he, rfl⟩
      · -- the operator found between its operands is what the new node needs
        rw [close_pending_of_le h]
        exact ih (e := lhs.join op e) hfs.2.2 (Expr.allPlaced_join hfs.1 he hfs.2.1)

theorem literalSpans_close (level : Nat) (fs : List Frame) (e : Expr) :
    literalSpans (close level fs e).1 ++ (close level fs e).2.literalSpans =
      literalSpans fs ++ e.literalSpans := by
  induction fs generalizing e with
  | nil => rfl
  | cons f fs ih =>
    cases f with
    | group => rfl
    | pending lhs op =>
      rcases Nat.lt_or_ge op.precedence level with h | h
      · rw [close_of_floor_lt h]
      · rw [close_pending_of_le h, ih, Expr.literalSpans_join, literalSpans, List.append_assoc]

end Frame

namespace Phase

variable {a b : Nat} {x : Phase}

/-- What lies open leads up to the place `a`. -/
def Placed (text : List Char) (a : Nat) : Phase → Prop
  | between => True
  | operand fs => Frame.Placed text fs a
  | operator fs e => Frame.Placed text fs e.span.start ∧ e.AllPlaced text ∧
    Span.Trails text ⟨e.span.stop, a⟩

/-- The spans of the literals from left to right. -/
def literalSpans : Phase → List Span
  | between => []
  | operand fs => Frame.literalSpans fs
  | operator fs e => Frame.literalSpans fs ++ e.literalSpans

theorem Placed.extend (h : x.Placed text a) (hab : a ≤ b)
    (hblank : ∀ c ∈ (⟨a, b⟩ : Span).slice text, c.isWhitespace) : x.Placed text b := by
  cases x with
  | between => trivial
  | operand fs => exact Frame.Placed.extend h hab fun c hc => .inl (hblank c hc)
  | operator fs e => exact ⟨h.1, h.2.1, h.2.2.extend hab fun c hc => .inl (hblank c hc)⟩

end Phase

/-- A statement has the span of its expression. -/
def Statement.Placed (text : List Char) (s : Statement) : Prop :=
  s.span = s.expr.span ∧ s.expr.AllPlaced text

namespace Parser

variable {p p' : Parser} {t : Token} {ts : List Token} {fs gs : List Frame} {e e' : Expr}
  {level : Nat} {q : Program}

/-- All that the parser has read stands where its spans say. -/
def Placed (text : List Char) (p : Parser) : Prop :=
  (∀ s ∈ p.finished, s.Placed text) ∧ p.phase.Placed text p.position

/-- The spans of the literals from left to right. -/
def literalSpans (p : Parser) : List Span :=
  p.finished.reverse.flatMap (·.expr.literalSpans) ++ p.phase.literalSpans

theorem placed_start (text : List Char) : start.Placed text :=
  ⟨List.forall_mem_nil _, trivial⟩

namespace Placed

theorem of_awaits (hp : p.Placed text) (h : p.Awaits fs) : Frame.Placed text fs p.position := by
  obtain ⟨-, hphase⟩ := hp
  rcases h with h | ⟨-, rfl⟩
  · rwa [h] at hphase
  · trivial

theorem of_close (hp : p.Placed text) (h : p.phase = .operator fs e)
    (hc : Frame.close level fs e = (gs, e')) : Frame.Placed text gs e'.span.start ∧
      e'.AllPlaced text ∧ Span.Trails text ⟨e'.span.stop, p.position⟩ := by
  obtain ⟨-, hphase⟩ := hp
  rw [h] at hphase
  obtain ⟨hfs, he, htrails⟩ := hphase
  obtain ⟨hgs, he', hstop⟩ := Frame.placed_close level hfs he
  rw [hc] at hgs he' hstop
  rw [← hstop] at htrails
  exact ⟨hgs, he', htrails⟩

theorem addStatement (hp : p.Placed text) (he : e.AllPlaced text) :
    (p.addStatement e).Placed text :=
  ⟨List.forall_mem_cons.mpr ⟨⟨rfl, he⟩, hp.1⟩, trivial⟩

/-- One more token read. -/
theorem feed (hp : p.Placed text) (ht : t.Covers text (p.ahead t)) (hf : p.feed t = .ok p') :
    p'.Placed text := by
  have hle : p.position ≤ p.position + t.width := Nat.le_add_right _ _
  cases takes_of_feed hf with
  | blank => exact ⟨hp.1, hp.2.extend hle ht.1.inside⟩
  | skip h =>
    refine ⟨hp.1, ?_⟩
    rw [past, h]
    trivial
  | openParen h => exact ⟨hp.1, (hp.of_awaits h).extend hle (Span.isWhitespace_or_eq ht)⟩
  | integer h hn =>
    obtain ⟨hrun, hslice⟩ := ht
    obtain ⟨k, hk, hnk⟩ := hn.exists_digits (hslice ▸ hrun.inside)
    refine ⟨hp.1, hp.of_awaits h, ?_, Span.trails_refl text _⟩
    rw [Expr.AllPlaced, Expr.postorder_literal, List.forall_mem_singleton]
    exact ⟨hrun, k, hslice.symm ▸ hk, hnk⟩
  | operator h hc =>
    obtain ⟨hgs, he, htrails⟩ := hp.of_close h hc
    exact ⟨hp.1, he, htrails.holdsOperator hle ht, hgs⟩
  | closeParen h hc =>
    obtain ⟨hgs, he, htrails⟩ := hp.of_close h hc
    exact ⟨hp.1, hgs, he, htrails.extend hle (Span.isWhitespace_or_eq ht)⟩
  | semicolon h hc => exact ⟨(hp.addStatement (hp.of_close h hc).2.1).1, trivial⟩

theorem foldlM (hp : p.Placed text)
    (hts : ∀ s t, (s, t) ∈ Token.locate p.position ts → t.Covers text s)
    (hf : ts.foldlM Parser.feed p = .ok p') : p'.Placed text := by
  induction ts generalizing p with
  | nil =>
    cases hf
    exact hp
  | cons t ts ih =>
    obtain ⟨p₁, ht, hf⟩ := foldlM_cons_eq_ok_iff.mp hf
    apply ih (hp.feed (hts _ t List.mem_cons_self) ht) ?_ hf
    intro s u hu
    rw [position_feed ht] at hu
    exact hts s u (List.mem_cons_of_mem _ hu)

theorem finish (hp : p.Placed text) (hf : p.finish = .ok q) :
    ∀ s ∈ q.statements, s.Placed text := by
  rcases finish_eq_ok_iff.mp hf with ⟨-, rfl⟩ | ⟨fs, e, e', h, hc, rfl⟩
  · simpa using hp.1
  · simpa using (hp.addStatement (hp.of_close h hc).2.1).1

end Placed

theorem literalSpans_of_awaits (h : p.Awaits fs) :
    p.phase.literalSpans = Frame.literalSpans fs := by
  rcases h with h | ⟨h, rfl⟩ <;> rw [h] <;> rfl

theorem literalSpans_of_close (h : p.phase = .operator fs e)
    (hc : Frame.close level fs e = (gs, e')) :
    p.phase.literalSpans = Frame.literalSpans gs ++ e'.literalSpans := by
  have hclose := Frame.literalSpans_close level fs e
  rw [hc] at hclose
  rw [h, hclose]
  rfl

theorem literalSpans_addStatement (p : Parser) (e : Expr) : (p.addStatement e).literalSpans =
    p.finished.reverse.flatMap (·.expr.literalSpans) ++ e.literalSpans := by
  simp [literalSpans, addStatement, Phase.literalSpans, Statement.ofExpr]

theorem literalSpans_feed (hf : p.feed t = .ok p') :
    p'.literalSpans = p.literalSpans ++ Token.integerSpans p.position [t] := by
  cases takes_of_feed hf with
  | blank => exact (List.append_nil _).symm
  | skip h => exact (List.append_nil _).symm
  | openParen h =>
    rw [literalSpans, literalSpans, literalSpans_of_awaits h]
    exact (List.append_nil _).symm
  | integer h hn =>
    rw [literalSpans, literalSpans, literalSpans_of_awaits h, List.append_assoc]
    rfl
  | operator h hc =>
    rw [literalSpans, literalSpans, literalSpans_of_close h hc]
    exact (List.append_nil _).symm
  | closeParen h hc =>
    rw [literalSpans, literalSpans, literalSpans_of_close h hc]
    exact (List.append_nil _).symm
  | semicolon h hc =>
    rw [literalSpans_addStatement, literalSpans, literalSpans_of_close h hc]
    exact (List.append_nil _).symm

theorem literalSpans_foldlM (hf : ts.foldlM feed p = .ok p') :
    p'.literalSpans = p.literalSpans ++ Token.integerSpans p.position ts := by
  induction ts generalizing p with
  | nil =>
    cases hf
    exact (List.append_nil _).symm
  | cons t ts ih =>
    obtain ⟨p₁, ht, hf⟩ := foldlM_cons_eq_ok_iff.mp hf
    rw [ih hf, literalSpans_feed ht, position_feed ht, Token.integerSpans_cons p.position t ts,
      List.append_assoc]

theorem literalSpans_finish (hf : p.finish = .ok q) : q.literalSpans = p.literalSpans := by
  rw [Program.literalSpans_eq]
  rcases finish_eq_ok_iff.mp hf with ⟨h, rfl⟩ | ⟨fs, e, e', h, hc, rfl⟩
  · rw [literalSpans, h]
    exact (List.append_nil _).symm
  · rw [literalSpans, literalSpans_of_close h hc]
    simp [addStatement, Statement.ofExpr, Frame.literalSpans]

end Parser

/-- The spans of the literals of a program are the runs of digits of its source, in order, and each
literal is the number written there. Between the operands of an operator stands the operator. -/
theorem parse_spans {source : String} {p : Program} (h : parse source = some (.ok p)) :
    (∀ s ∈ p.statements, s.span = s.expr.span) ∧
    (∀ e ∈ p.nodes, e.Placed source.toList) ∧
    p.literalSpans.Pairwise (·.stop ≤ ·.start) ∧
    ∀ s, s ∈ p.literalSpans ↔ s.IsRun Char.isDigit source.toList := by
  obtain ⟨p₁, hfold, hfinish⟩ := Fault.bind_eq_ok_iff.mp (readTokens_of_parse h)
  have hcovers := Token.covers_run source.toList
  have hplaced := ((Parser.placed_start source.toList).foldlM hcovers hfold).finish hfinish
  have hspans : p.literalSpans = Token.integerSpans 0 (Token.splitter.run source.toList) :=
    (Parser.literalSpans_finish hfinish).trans (Parser.literalSpans_foldlM hfold)
  refine ⟨fun s hs => (hplaced s hs).1, ?_, ?_, ?_⟩
  · intro e he
    obtain ⟨s, hs, he⟩ := List.mem_flatMap.mp he
    exact (hplaced s hs).2 e he
  · rw [hspans]
    exact Token.pairwise_integerSpans _ _
  · rw [hspans]
    exact Token.mem_integerSpans_iff hcovers (Token.extent_run _)

/-- Parentheses, blanks and leading zeros in `((07) +\t(1+2));30 `. -/
theorem parse_spans_in_parentheses :
    ∃ p, parse "((07) +\t(1+2));30 " = some (.ok p) ∧
      p.literalSpans = [⟨2, 4⟩, ⟨9, 10⟩, ⟨11, 12⟩, ⟨15, 17⟩] ∧
      (Expr.literal ⟨2, 4⟩ 7).Placed "((07) +\t(1+2));30 ".toList ∧
      Span.HoldsOperator "((07) +\t(1+2));30 ".toList .plus ⟨4, 9⟩ ∧
      (⟨15, 17⟩ : Span).IsRun Char.isDigit "((07) +\t(1+2));30 ".toList := by
  have hlex : lex "((07) +\t(1+2));30 " = [.openParen, .openParen, .integer ['0', '7'], .closeParen,
      .blank 1, .operator .plus, .blank 1, .openParen, .integer ['1'], .operator .plus,
      .integer ['2'], .closeParen, .closeParen, .semicolon, .integer ['3', '0']] := by
    decide +kernel
  have hp : parse "((07) +\t(1+2));30 " = some (.ok ⟨[.ofExpr (.binary ⟨2, 12⟩ .plus
      (.literal ⟨2, 4⟩ 7) (.binary ⟨9, 12⟩ .plus (.literal ⟨9, 10⟩ 1) (.literal ⟨11, 12⟩ 2))),
      .ofExpr (.literal ⟨15, 17⟩ 30)]⟩) := by
    rw [parse, hlex]
    rfl
  obtain ⟨-, hplaced, -, hruns⟩ := parse_spans hp
  refine ⟨_, hp, rfl, hplaced _ (by decide), (hplaced (.binary ⟨2, 12⟩ .plus (.literal ⟨2, 4⟩ 7)
      (.binary ⟨9, 12⟩ .plus (.literal ⟨9, 10⟩ 1) (.literal ⟨11, 12⟩ 2))) (by decide)).2, ?_⟩
  exact (hruns _).mp (by decide)

end ByteCalc
