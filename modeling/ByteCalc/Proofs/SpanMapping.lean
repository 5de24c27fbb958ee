import ByteCalc.Proofs.Parsing

/-! # Parsing under a change of spans

Spans are carried along by the parser and never looked at. So a parser whose
spans are changed beforehand ends where the parser with the old spans does, up
to the same change. The statements that are already finished are carried along
in the same way, and others may stand before them.
-/

namespace ByteCalc

variable {f : Span → Span}

theorem Expr.span_mapSpan (e : Expr) : (e.mapSpan f).span = f e.span := by
  cases e <;> rfl

theorem Expr.mapSpan_join (hf : ∀ a b : Span, f (a.cover b) = (f a).cover (f b)) (op : Operator)
    (l r : Expr) : (l.join op r).mapSpan f = (l.mapSpan f).join op (r.mapSpan f) := by
  simp only [join, mapSpan, span_mapSpan, hf]

theorem Statement.mapSpan_ofExpr (e : Expr) : (ofExpr e).mapSpan f = ofExpr (e.mapSpan f) := by
  simp only [ofExpr, mapSpan, Expr.span_mapSpan]

namespace Fault

/-- Apply a function to the span of a fault that has a place in the source. -/
def mapSpan (f : Span → Span) : Fault → Fault
  | expected what s => expected what (f s)
  | literalRange s => literalRange (f s)
  | unsupported op s => unsupported op (f s)
  | fault => fault

/-- Apply functions to the value and to the spans of a result. -/
def mapResult {α β : Type} (f : Span → Span) (g : α → β) : Except Fault α → Except Fault β
  | .ok a => .ok (g a)
  | .error fault => .error (fault.mapSpan f)

@[simp] theorem mapResult_ok {α β : Type} (g : α → β) (a : α) :
    mapResult f g (.ok a) = .ok (g a) := rfl

theorem mapResult_bind {α β α' β' : Type} {g : α → α'} {g' : β → β'} {k : α → Except Fault β}
    {k' : α' → Except Fault β'} (h : ∀ a, k' (g a) = mapResult f g' (k a)) (x : Except Fault α) :
    (mapResult f g x >>= k') = mapResult f g' (x >>= k) := by
  cases x with
  | error fault => rfl
  | ok a => exact h a

end Fault

def Frame.mapSpan (f : Span → Span) : Frame → Frame
  | group => group
  | pending lhs op => pending (lhs.mapSpan f) op

theorem Frame.close_mapSpan (hf : ∀ a b : Span, f (a.cover b) = (f a).cover (f b)) (level : Nat)
    (fs : List Frame) (e : Expr) : close level (fs.map (mapSpan f)) (e.mapSpan f) =
      ((close level fs e).1.map (mapSpan f), (close level fs e).2.mapSpan f) := by
  induction fs generalizing e with
  | nil => rfl
  | cons fr fs ih =>
    cases fr with
    | group => rfl
    | pending lhs op =>
      simp only [List.map_cons, mapSpan, close]
      split
      · rw [← Expr.mapSpan_join hf, ih]
      · rfl

def Phase.mapSpan (f : Span → Span) : Phase → Phase
  | between => between
  | operand fs => operand (fs.map (.mapSpan f))
  | operator fs e => operator (fs.map (.mapSpan f)) (e.mapSpan f)

namespace Parser

theorem feed_eq_feedAt (p : Parser) (t : Token) :
    p.feed t = (p.past t).feedAt (p.ahead t) t := rfl

/-- Change the position and all spans of a parser, and put the statements `ss`, the latest first,
before its own. -/
def relocate (g : Nat → Nat) (f : Span → Span) (ss : List Statement) (p : Parser) : Parser :=
  ⟨g p.position, p.finished.map (.mapSpan f) ++ ss, p.phase.mapSpan f⟩

variable (hf : ∀ a b : Span, f (a.cover b) = (f a).cover (f b)) (g : Nat → Nat)
  (ss : List Statement) (p : Parser) (s : Span) (fs : List Frame) (e : Expr) (t : Token)

theorem phase_relocate : (p.relocate g f ss).phase = p.phase.mapSpan f := rfl

theorem addStatement_relocate : (p.relocate g f ss).addStatement (e.mapSpan f) =
    (p.addStatement e).relocate g f ss := by
  simp only [addStatement, relocate, List.map_cons, Statement.mapSpan_ofExpr, List.cons_append,
    Phase.mapSpan]

theorem feedOperand_relocate :
    (p.relocate g f ss).feedOperand (f s) (fs.map (.mapSpan f)) t =
      Fault.mapResult f (relocate g f ss) (p.feedOperand s fs t) := by
  cases t with
  | integer cs =>
    simp only [feedOperand]
    cases Integer.read? cs <;> rfl
  | _ => rfl

include hf

theorem feedOperator_relocate :
    (p.relocate g f ss).feedOperator (f s) (fs.map (.mapSpan f)) (e.mapSpan f) t =
      Fault.mapResult f (relocate g f ss) (p.feedOperator s fs e t) := by
  by_cases ht : ∀ op, t ≠ .operator op
  · have hclose := Frame.close_mapSpan hf 0 fs e
    rcases Frame.close_zero_cases fs e with ⟨e', h⟩ | ⟨gs, e', h⟩ <;> rw [h] at hclose
    · rw [feedOperator_of_nil hclose ht, feedOperator_of_nil h ht, addStatement_relocate]
      split <;> rfl
    · rw [feedOperator_of_group hclose ht, feedOperator_of_group h ht]
      split <;> rfl
  · obtain ⟨op, rfl⟩ := Classical.not_forall_not.mp ht
    simp only [feedOperator, Frame.close_mapSpan hf]
    rfl

/-- Changing the spans before or after a token makes no difference. -/
theorem feedAt_relocate : (p.relocate g f ss).feedAt (f s) t =
    Fault.mapResult f (relocate g f ss) (p.feedAt s t) := by
  cases hb : t.isBlank with
  | true => simp only [feedAt, hb, if_true, Fault.mapResult_ok]
  | false =>
    simp only [feedAt, hb, Bool.false_eq_true, if_false, phase_relocate]
    cases p.phase with
    | between =>
      by_cases ht : t = .semicolon
      · simp only [Phase.mapSpan, ht, if_true, Fault.mapResult_ok]
      · simp only [Phase.mapSpan, ht, if_false]
        exact feedOperand_relocate g ss p s [] t
    | operand fs => exact feedOperand_relocate g ss p s fs t
    | operator fs e => exact feedOperator_relocate hf g ss p s fs e t

theorem finishAt_relocate : (p.relocate g f ss).finishAt (f s) =
    Fault.mapResult f (fun q => ⟨ss.reverse ++ (q.mapSpan f).statements⟩) (p.finishAt s) := by
  simp only [finishAt, relocate]
  cases p.phase with
  | between => simp [Phase.mapSpan, Program.mapSpan]
  | operand fs => rfl
  | operator fs e =>
    simp only [Phase.mapSpan, Frame.close_mapSpan hf]
    rcases Frame.close_zero_cases fs e with ⟨e', h⟩ | ⟨gs, e', h⟩ <;> rw [h]
    · simp [addStatement, Program.mapSpan, Statement.mapSpan_ofExpr]
    · rfl

end Parser

end ByteCalc
