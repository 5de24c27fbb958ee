import ByteCalc.Proofs.SpanMapping

/-! # Parsing without positions

Parsers that differ in spans only go on alike, so blanks change nothing but the
spans of a program.
-/

namespace ByteCalc

namespace Expr

/-- Forget all spans. -/
def erase : Expr → Expr := mapSpan fun _ => .nowhere

@[simp] theorem erase_literal (s : Span) (n : Int64) :
    (literal s n).erase = literal .nowhere n := rfl

@[simp] theorem erase_binary (s : Span) (op : Operator) (l r : Expr) :
    (binary s op l r).erase = binary .nowhere op l.erase r.erase := rfl

end Expr

namespace Statement

def erase : Statement → Statement := mapSpan fun _ => .nowhere

theorem erase_eq_iff {s s' : Statement} : s.erase = s'.erase ↔ s.expr.erase = s'.expr.erase := by
  simp [erase, mapSpan, Expr.erase]

theorem erase_ofExpr (e : Expr) : (ofExpr e).erase = ofExpr e.erase := mapSpan_ofExpr e

end Statement

theorem Program.erase_eq_iff {p q : Program} :
    p.erase = q.erase ↔
      p.statements.map Statement.erase = q.statements.map Statement.erase := by
  rw [erase, mapSpan, mapSpan, mk.injEq]
  rfl

/-- Forget the place of a fault. -/
def Fault.erase : Fault → Fault := mapSpan fun _ => .nowhere

namespace Parser

/-- Forget the position and all spans. -/
def erase : Parser → Parser := relocate (fun _ => 0) (fun _ => .nowhere) []

/-- Forget all spans in a result. -/
def eraseResult {α : Type} (g : α → α) : Except Fault α → Except Fault α :=
  Fault.mapResult (fun _ => .nowhere) g

@[simp] theorem eraseResult_ok {α : Type} (g : α → α) (a : α) :
    eraseResult g (.ok a) = .ok (g a) := rfl

@[simp] theorem eraseResult_error {α : Type} (g : α → α) (f : Fault) :
    eraseResult g (.error f) = .error f.erase := rfl

theorem eraseResult_bind {α β : Type} {g : α → α} {g' : β → β} {x y : Except Fault α}
    {k k' : α → Except Fault β} (h : eraseResult g x = eraseResult g y)
    (hk : ∀ a b, g a = g b → eraseResult g' (k a) = eraseResult g' (k' b)) :
    eraseResult g' (x >>= k) = eraseResult g' (y >>= k') := by
  cases x <;> cases y <;> simp only [eraseResult_ok, eraseResult_error, reduceCtorEq,
    Except.ok.injEq, Except.error.injEq] at h
  · simp [bind, Except.bind, h]
  · exact hk _ _ h

variable {p q : Parser}

theorem eraseResult_feed (p : Parser) (t : Token) :
    eraseResult erase (p.feed t) = p.erase.feedAt .nowhere t := by
  rw [feed_eq_feedAt, eraseResult, erase, ← feedAt_relocate fun _ _ => rfl]
  rfl

theorem eraseResult_finish (p : Parser) :
    eraseResult Program.erase p.finish = p.erase.finishAt .nowhere :=
  (finishAt_relocate (fun _ _ => rfl) _ [] p _).symm

/-- Parsers that differ in spans only take a token alike. -/
theorem feed_congr (h : p.erase = q.erase) (t : Token) :
    eraseResult erase (p.feed t) = eraseResult erase (q.feed t) := by
  rw [eraseResult_feed, eraseResult_feed, h]

theorem finish_congr (h : p.erase = q.erase) :
    eraseResult Program.erase p.finish = eraseResult Program.erase q.finish := by
  rw [eraseResult_finish, eraseResult_finish, h]

theorem foldlM_feed_filter (h : p.erase = q.erase) (ts : List Token) :
    eraseResult erase (ts.foldlM feed p) =
      eraseResult erase ((ts.filter (!·.isBlank)).foldlM feed q) := by
  induction ts generalizing p q with
  | nil => simpa [pure, Except.pure] using h
  | cons t ts ih =>
    by_cases hb : t.isBlank
    · rw [List.filter_cons_of_neg (by simp [hb]), List.foldlM_cons, feed_of_isBlank hb]
      exact ih h
    · rw [List.filter_cons_of_pos (by simpa using hb), List.foldlM_cons, List.foldlM_cons]
      exact eraseResult_bind (feed_congr h t) fun _ _ h' => ih h'

end Parser

/-- Blanks change nothing but the spans of a program or of a fault. -/
theorem readTokens_filter (ts : List Token) :
    Parser.eraseResult Program.erase (readTokens ts) =
      Parser.eraseResult Program.erase (readTokens (ts.filter (!·.isBlank))) :=
  Parser.eraseResult_bind (Parser.foldlM_feed_filter rfl ts) fun _ _ => Parser.finish_congr

end ByteCalc
