import ByteCalc.Program

/-! # Walking a program

A visitor is called once for every node. Operands come before the operator that
joins them, an expression before its statement, and the program comes last.
-/

namespace ByteCalc

/-- The calls made during a walk. A visitor that leaves one out does nothing there. -/
structure Visitor (m : Type → Type) [Monad m] where
  expr : Expr → m Unit := fun _ => pure ()
  statement : Statement → m Unit := fun _ => pure ()
  program : Program → m Unit := fun _ => pure ()

/-- Calls that change a state and may fail. -/
abbrev Walk (ε σ : Type) := ExceptT ε (StateM σ)

/-- The result of a walk, and the state in which it leaves a visitor that was in state `s`. -/
def Walk.runFrom {ε σ : Type} (w : Walk ε σ Unit) (s : σ) : Except ε Unit × σ := w.run.run s

variable {m : Type → Type} [Monad m]

def Expr.accept (v : Visitor m) : Expr → m Unit
  | literal s n => v.expr (literal s n)
  | binary s op l r => do
    l.accept v
    r.accept v
    v.expr (binary s op l r)

def Statement.accept (v : Visitor m) (s : Statement) : m Unit := do
  s.expr.accept v
  v.statement s

def Program.accept (v : Visitor m) (p : Program) : m Unit := do
  p.statements.forM (·.accept v)
  v.program p

end ByteCalc
