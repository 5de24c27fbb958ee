import ByteCalc.Operator
import ByteCalc.Span

/-! # Programs

A program is a sequence of statements, each of which is an expression. Every
node carries the span of source text that it was read from.
-/

namespace ByteCalc

/-- Integer literals joined by binary operators. -/
inductive Expr where
  | literal (span : Span) (value : Int64)
  | binary (span : Span) (op : Operator) (lhs rhs : Expr)
deriving DecidableEq

/-- An expression that is evaluated for its value. -/
structure Statement where
  span : Span
  expr : Expr
deriving DecidableEq

/-- Statements in the order of the source. -/
structure Program where
  statements : List Statement
deriving DecidableEq

namespace Expr

def span : Expr → Span
  | literal s _ | binary s _ _ _ => s

/-- Join two operands. Parentheses around them are not part of the span. -/
def join (op : Operator) (lhs rhs : Expr) : Expr :=
  binary (lhs.span.cover rhs.span) op lhs rhs

/-- Apply a function to every span. -/
def mapSpan (f : Span → Span) : Expr → Expr
  | literal s n => literal (f s) n
  | binary s op l r => binary (f s) op (l.mapSpan f) (r.mapSpan f)

/-- The nodes in post-order, left operand, right operand, parent, in front of `rest`. -/
def postorderOnto : Expr → List Expr → List Expr
  | literal s n, rest => literal s n :: rest
  | binary s op l r, rest => l.postorderOnto (r.postorderOnto (binary s op l r :: rest))

/-- The nodes in post-order: left operand, right operand, parent. -/
def postorder (e : Expr) : List Expr := e.postorderOnto []

theorem postorderOnto_eq (e : Expr) (rest : List Expr) :
    e.postorderOnto rest = e.postorder ++ rest := by
  induction e generalizing rest with
  | literal s n => rfl
  | binary s op l r ihl ihr =>
    simp only [postorder, postorderOnto]
    rw [ihr, ihl, ihr [_], ihl (_ ++ _)]
    simp

@[simp] theorem postorder_literal (s : Span) (n : Int64) :
    (literal s n).postorder = [literal s n] := rfl

theorem postorder_binary (s : Span) (op : Operator) (l r : Expr) :
    (binary s op l r).postorder = l.postorder ++ r.postorder ++ [binary s op l r] := by
  simp only [postorder, postorderOnto]
  rw [postorderOnto_eq r, postorderOnto_eq l]
  simp [postorder]

end Expr

namespace Statement

/-- The statement made of an expression has the same span. -/
def ofExpr (e : Expr) : Statement := ⟨e.span, e⟩

def mapSpan (f : Span → Span) (s : Statement) : Statement := ⟨f s.span, s.expr.mapSpan f⟩

end Statement

namespace Program

def mapSpan (f : Span → Span) (p : Program) : Program := ⟨p.statements.map (·.mapSpan f)⟩

/-- Move every span `k` characters to the right. -/
def shift (k : Nat) : Program → Program := mapSpan (·.shift k)

/-- Forget all spans. Programs that agree after this differ in layout only. -/
def erase : Program → Program := mapSpan fun _ => .nowhere

/-- The nodes of all statements, each in post-order. -/
def nodes (p : Program) : List Expr := p.statements.flatMap (·.expr.postorder)

end Program

end ByteCalc
