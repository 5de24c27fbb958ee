import Mathlib.Data.List.FinRange
import Mathlib.Data.List.Nodup
import ByteCalc.Program.Visitor

/-! # Walks

A walk over a program makes one call for each of its nodes, in an order that is
the same for every visitor. Calls that may fail and that pass on a state are
made one after the other, up to the first that fails.
-/

namespace ByteCalc

/-- A call of a visitor. -/
inductive Visit where
  | expr (e : Expr)
  | statement (s : Statement)
  | program (p : Program)

/-- What a visitor does in a call. -/
def Visitor.on {m : Type → Type} [Monad m] (v : Visitor m) : Visit → m Unit
  | .expr e => v.expr e
  | .statement s => v.statement s
  | .program p => v.program p

/-- The nodes of the expression in post-order, and then the statement. -/
def Statement.visits (s : Statement) : List Visit := s.expr.postorder.map .expr ++ [.statement s]

/-- The visits of all statements in order, and then the program. -/
def Program.visits (p : Program) : List Visit :=
  p.statements.flatMap Statement.visits ++ [.program p]

section Monadic

variable {m : Type → Type} [Monad m] [LawfulMonad m] (v : Visitor m)

theorem Expr.accept_eq_forM (e : Expr) : e.accept v = e.postorder.forM v.expr := by
  induction e with
  | literal s n => simp [accept]
  | binary s op l r ihl ihr => simp [accept, postorder_binary, ihl, ihr]

theorem Statement.accept_eq_forM (s : Statement) : s.accept v = s.visits.forM v.on := by
  simp [accept, visits, Expr.accept_eq_forM, Visitor.on]

theorem Statement.forM_accept (ss : List Statement) :
    forM ss (·.accept v) = forM (ss.flatMap visits) v.on := by
  induction ss with
  | nil => rfl
  | cons s ss ih =>
    rw [List.forM_cons, List.flatMap_cons, List.forM_append, accept_eq_forM, ih]
    rfl

theorem Program.accept_eq_forM (p : Program) : p.accept v = p.visits.forM v.on := by
  simp [accept, visits, Statement.forM_accept, Visitor.on]

end Monadic

/-! ## Calls with a state -/

section Bind

variable {ε σ : Type} {w w' : Walk ε σ Unit} {s t : σ}

theorem Walk.runFrom_bind_of_ok (h : w.runFrom s = (.ok (), t)) :
    Walk.runFrom (do w; w') s = w'.runFrom t := by
  simp only [runFrom, ExceptT.run_bind, StateT.run_bind] at h ⊢
  rw [h]
  rfl

theorem Walk.runFrom_bind_of_error {e : ε} (h : w.runFrom s = (.error e, t)) :
    Walk.runFrom (do w; w') s = (.error e, t) := by
  simp only [runFrom, ExceptT.run_bind, StateT.run_bind] at h ⊢
  rw [h]
  rfl

end Bind

namespace Visitor

variable {ε σ : Type} (v : Visitor (Walk ε σ))

/-- Make calls one after the other, up to the first that fails. -/
def perform : List Visit → σ → Except ε Unit × σ
  | [], s => (.ok (), s)
  | x :: xs, s =>
    match (v.on x).runFrom s with
    | (.ok (), s) => perform xs s
    | (.error e, s) => (.error e, s)

/-- Make a call and write it down. -/
def record (x : Visit) : Walk ε (σ × List Visit) Unit := fun (s, calls) =>
  let (r, s) := (v.on x).runFrom s
  (r, s, calls ++ [x])

/-- The visitor that makes the same calls and keeps a record of them. -/
def recording : Visitor (Walk ε (σ × List Visit)) where
  expr e := v.record (.expr e)
  statement s := v.record (.statement s)
  program p := v.record (.program p)

variable {v} {s t : σ} {x : Visit} {xs : List Visit} {e : ε}

theorem runFrom_record (calls : List Visit) :
    (v.record x).runFrom (s, calls) =
      (((v.on x).runFrom s).1, ((v.on x).runFrom s).2, calls ++ [x]) := rfl

theorem runFrom_recording {r : Except ε Unit} (h : (v.on x).runFrom s = (r, t))
    (calls : List Visit) :
    (v.recording.on x).runFrom (s, calls) = (r, t, calls ++ [x]) := by
  have hrecord : v.recording.on x = v.record x := by cases x <;> rfl
  rw [hrecord, runFrom_record, h]

theorem perform_cons_of_ok (h : (v.on x).runFrom s = (.ok (), t)) :
    v.perform (x :: xs) s = v.perform xs t := by
  rw [perform, h]

theorem perform_cons_of_error (h : (v.on x).runFrom s = (.error e, t)) :
    v.perform (x :: xs) s = (.error e, t) := by
  rw [perform, h]

theorem runFrom_forM (xs : List Visit) (s : σ) :
    Walk.runFrom (forM xs v.on) s = v.perform xs s := by
  induction xs generalizing s with
  | nil => rfl
  | cons x xs ih =>
    rw [List.forM_cons]
    rcases h : (v.on x).runFrom s with ⟨r, t⟩
    cases r with
    | ok => rw [Walk.runFrom_bind_of_ok h, perform_cons_of_ok h, ih]
    | error e => rw [Walk.runFrom_bind_of_error h, perform_cons_of_error h]

theorem runFrom_accept (p : Program) (s : σ) :
    (p.accept v).runFrom s = v.perform p.visits s := by
  rw [Program.accept_eq_forM]
  exact runFrom_forM p.visits s

/-- Either all calls succeed, or those that are made end with one that fails. -/
theorem perform_cases (v : Visitor (Walk ε σ)) (xs : List Visit) (s : σ) :
    (∃ t, v.perform xs s = (.ok (), t) ∧
      ∀ calls, v.recording.perform xs (s, calls) = (.ok (), t, calls ++ xs)) ∨
    ∃ before x after t e u, xs = before ++ x :: after ∧ v.perform before s = (.ok (), t) ∧
      (v.on x).runFrom t = (.error e, u) ∧ v.perform xs s = (.error e, u) ∧
      ∀ calls, v.recording.perform xs (s, calls) = (.error e, u, calls ++ before ++ [x]) := by
  induction xs generalizing s with
  | nil => exact .inl ⟨s, rfl, by simp [perform]⟩
  | cons x xs ih =>
    rcases h : (v.on x).runFrom s with ⟨r, t⟩
    have hrec := runFrom_recording h
    cases r with
    | error e =>
      refine .inr ⟨[], x, xs, s, e, t, rfl, rfl, h, perform_cons_of_error h, ?_⟩
      intro calls
      rw [perform_cons_of_error (hrec calls), List.append_nil]
    | ok =>
      rcases ih t with ⟨u, hu, hcalls⟩ | ⟨before, y, after, u, e, w, rfl, hu, hy, hw, hcalls⟩
      · refine .inl ⟨u, ?_, ?_⟩
        · rw [perform_cons_of_ok h, hu]
        · intro calls
          rw [perform_cons_of_ok (hrec calls), hcalls, List.append_assoc]
          rfl
      · refine .inr ⟨x :: before, y, after, u, e, w, rfl, ?_, hy, ?_, ?_⟩
        · rw [perform_cons_of_ok h, hu]
        · rw [perform_cons_of_ok h, hw]
        · intro calls
          rw [perform_cons_of_ok (hrec calls), hcalls]
          simp

end Visitor

/-! ## The nodes of a program -/

/-- The two operands of an operator. -/
inductive Side where
  | left
  | right

namespace Expr

/-- The node that is found along a path from the root. -/
def at? : Expr → List Side → Option Expr
  | e, [] => some e
  | binary _ _ l _, .left :: path => l.at? path
  | binary _ _ _ r, .right :: path => r.at? path
  | literal .., _ :: _ => none

/-- The paths to all nodes, in post-order. -/
def paths : Expr → List (List Side)
  | literal .. => [[]]
  | binary _ _ l r => l.paths.map (.left :: ·) ++ r.paths.map (.right :: ·) ++ [[]]

theorem map_at?_paths (e : Expr) : e.paths.map e.at? = e.postorder.map some := by
  induction e with
  | literal s n => rfl
  | binary s op l r ihl ihr =>
    have hl : l.paths.map (fun path => (binary s op l r).at? (.left :: path)) =
        l.postorder.map some := ihl
    have hr : r.paths.map (fun path => (binary s op l r).at? (.right :: path)) =
        r.postorder.map some := ihr
    simp [paths, postorder_binary, Function.comp_def, hl, hr]
    rfl

theorem mem_paths_iff {e : Expr} {path : List Side} : path ∈ e.paths ↔ (e.at? path).isSome := by
  induction e generalizing path with
  | literal s n => cases path <;> simp [paths, at?]
  | binary s op l r ihl ihr =>
    rcases path with _ | ⟨_ | _, path⟩
    · simp [paths, at?]
    · simp [paths, at?, ihl]
    · simp [paths, at?, ihr]

theorem nodup_paths (e : Expr) : e.paths.Nodup := by
  induction e with
  | literal s n => simp [paths]
  | binary s op l r ihl ihr =>
    have hcons (side : Side) {paths : List (List Side)} (h : paths.Nodup) :
        (paths.map (side :: ·)).Nodup := h.map List.cons_injective
    apply List.Nodup.append
    · apply List.Nodup.append (hcons .left ihl) (hcons .right ihr)
      simp [List.disjoint_left]
    · exact List.nodup_singleton _
    · simp

end Expr

/-- Where a node of a program is. The statements count from zero. -/
inductive Place where
  | expr (i : Nat) (path : List Side)
  | statement (i : Nat)
  | program

/-- The places of a statement, in the order of its visits. -/
def Statement.places (i : Nat) (s : Statement) : List Place :=
  s.expr.paths.map (.expr i) ++ [.statement i]

theorem Statement.nodup_places (i : Nat) (s : Statement) : (s.places i).Nodup := by
  apply List.Nodup.append
  · apply s.expr.nodup_paths.map
    intro path path' h
    exact (Place.expr.inj h).2
  · exact List.nodup_singleton _
  · simp

theorem Statement.disjoint_places {i j : Nat} (h : i ≠ j) (s s' : Statement) :
    (s.places i).Disjoint (s'.places j) := by
  intro x hx hx'
  simp only [places, List.mem_append, List.mem_map, List.mem_singleton] at hx hx'
  rcases hx with ⟨path, -, rfl⟩ | rfl
  · simp [h.symm] at hx'
  · simp [h] at hx'

namespace Program

/-- The visit of the node at a place, if there is one. -/
def at? (p : Program) : Place → Option Visit
  | .expr i path => p.statements[i]?.bind fun s => (s.expr.at? path).map .expr
  | .statement i => p.statements[i]?.map .statement
  | .program => some (.program p)

/-- All places that hold a node, in the order of the visits. -/
def places (p : Program) : List Place :=
  (List.finRange p.statements.length).flatMap (fun i => (p.statements.get i).places i) ++ [.program]

theorem map_at?_statement {p : Program} {i : Nat} {s : Statement} (h : p.statements[i]? = some s) :
    (s.places i).map p.at? = s.visits.map some := by
  have hpaths := congrArg (List.map (Option.map Visit.expr)) s.expr.map_at?_paths
  simp only [List.map_map, Function.comp_def, Option.map_some] at hpaths
  simp only [Statement.places, Statement.visits, List.map_append, List.map_map, Function.comp_def,
    at?, h, Option.bind_some, hpaths, List.map_singleton, Option.map_some]

theorem map_at?_places (p : Program) : p.places.map p.at? = p.visits.map some := by
  have hstatements : p.statements.flatMap (fun s => s.visits.map some) =
      (List.finRange p.statements.length).flatMap
        fun i => (p.statements.get i).visits.map some := by
    conv_lhs => rw [← List.map_get_finRange p.statements]
    rw [List.flatMap_map]
  have hget (i : Fin p.statements.length) : p.statements[i.val]? = some (p.statements.get i) := by
    simp
  simp only [places, visits, List.map_append, List.map_flatMap, map_at?_statement (hget _),
    hstatements]
  rfl

theorem mem_places {p : Program} {x : Place} :
    x ∈ p.places ↔
      (∃ (i : Nat) (s : Statement), p.statements[i]? = some s ∧ x ∈ s.places i) ∨
        x = .program := by
  simp [places, Fin.exists_iff, List.getElem?_eq_some_iff]

theorem mem_places_iff {p : Program} {x : Place} : x ∈ p.places ↔ (p.at? x).isSome := by
  rw [mem_places]
  cases x with
  | expr i path => simp [Statement.places, at?, Option.isSome_bind, Option.any_eq_true,
      Expr.mem_paths_iff]
  | statement i => simp [Statement.places, at?, List.getElem?_eq_some_iff]
  | program => simp [at?]

theorem nodup_places (p : Program) : p.places.Nodup := by
  apply List.Nodup.append
  · rw [List.nodup_flatMap]
    constructor
    · intro i _
      exact Statement.nodup_places i _
    · apply (List.nodup_finRange _).imp
      intro i j hij
      exact Statement.disjoint_places (Fin.val_ne_of_ne hij) _ _
  · exact List.nodup_singleton _
  · simp [Statement.places]

/-- A walk makes its visits one after the other, up to the first that fails. If none does, all calls
have been made. If one does, it is the last that was made, and error and state are those that it
left. The visits are those of all nodes, each of which has one place among them. -/
theorem accept_makes_visits {ε σ : Type} (v : Visitor (Walk ε σ)) (p : Program) (s : σ) :
    (p.accept v).runFrom s = v.perform p.visits s ∧
    (∀ t, (p.accept v).runFrom s = (.ok (), t) →
      (p.accept v.recording).runFrom (s, []) = (.ok (), t, p.visits)) ∧
    (∀ e u, (p.accept v).runFrom s = (.error e, u) →
      ∃ before x after t, p.visits = before ++ x :: after ∧ v.perform before s = (.ok (), t) ∧
        (v.on x).runFrom t = (.error e, u) ∧
        (p.accept v.recording).runFrom (s, []) = (.error e, u, before ++ [x])) ∧
    ∃ places : List Place, places.Nodup ∧ (∀ x, x ∈ places ↔ (p.at? x).isSome) ∧
      places.map p.at? = p.visits.map some := by
  simp only [Visitor.runFrom_accept]
  refine ⟨trivial, ?_, ?_, p.places, p.nodup_places, fun x => mem_places_iff, p.map_at?_places⟩
  · intro t ht
    rcases v.perform_cases p.visits s with ⟨t', ht', hcalls⟩ | ⟨_, _, _, _, e, u, -, -, -, hu, -⟩
    · cases ht.symm.trans ht'
      exact hcalls []
    · cases ht.symm.trans hu
  · intro e u hu
    rcases v.perform_cases p.visits s with
      ⟨t, ht, -⟩ | ⟨before, x, after, t, e', u', hvisits, ht, hx, hu', hcalls⟩
    · cases hu.symm.trans ht
    · cases hu.symm.trans hu'
      exact ⟨before, x, after, t, hvisits, ht, hx, hcalls []⟩

/-- A call that costs one unit, and fails where none is left. -/
def spend : Walk Unit Nat Unit
  | 0 => (.error (), 0)
  | n + 1 => (.ok (), n)

def spending : Visitor (Walk Unit Nat) := ⟨fun _ => spend, fun _ => spend, fun _ => spend⟩

/-- A walk over one difference makes five calls. With two units it ends at the operator. -/
theorem accept_makes_visits_of_difference :
    ∃ p : Program, p.visits.length = 5 ∧
      (p.accept spending).runFrom 5 = (.ok (), 0) ∧
      (p.accept spending.recording).runFrom (5, []) = (.ok (), 0, p.visits) ∧
      (p.accept spending).runFrom 2 = (.error (), 0) ∧
      ∃ before x after t, p.visits = before ++ x :: after ∧
        spending.perform before 2 = (.ok (), t) ∧ (spending.on x).runFrom t = (.error (), 0) ∧
        (p.accept spending.recording).runFrom (2, []) = (.error (), 0, before ++ [x]) := by
  let p : Program :=
    ⟨[.ofExpr (.binary ⟨0, 3⟩ .minus (.literal ⟨0, 1⟩ 1) (.literal ⟨2, 3⟩ 2))]⟩
  obtain ⟨-, hok, -⟩ := accept_makes_visits spending p 5
  obtain ⟨-, -, herror, -⟩ := accept_makes_visits spending p 2
  exact ⟨p, rfl, rfl, hok 0 rfl, rfl, herror () 0 rfl⟩

end Program

end ByteCalc
