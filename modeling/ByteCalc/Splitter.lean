/-! # Cutting a list into pieces

A splitter says how the first piece of a nonempty list is cut off. Repeating
the cut until nothing is left divides the whole list.
-/

namespace ByteCalc

/-- A rule for the first piece of a nonempty list: what it is, and the list after it. -/
structure Splitter (α β : Type) where
  cut : α → List α → β × List α
  length_cut_le : ∀ a as, (cut a as).2.length ≤ as.length

namespace Splitter

variable {α β : Type} (s : Splitter α β)

/-- Append the pieces of a list to those found before. -/
def runInto (pieces : Array β) : List α → Array β
  | [] => pieces
  | a :: as =>
    let cut := s.cut a as
    runInto (pieces.push cut.1) cut.2
termination_by as => as.length
decreasing_by exact Nat.lt_succ_of_le (s.length_cut_le a as)

/-- All pieces of a list, in order. -/
def run (as : List α) : List β := (s.runInto #[] as).toList

theorem runInto_eq (pieces : Array β) (as : List α) :
    s.runInto pieces as = pieces ++ s.runInto #[] as := by
  match as with
  | [] => simp [runInto]
  | a :: as =>
    rw [runInto, runInto, runInto_eq (pieces.push _), runInto_eq (#[].push _)]
    simp
termination_by as.length
decreasing_by all_goals exact Nat.lt_succ_of_le (s.length_cut_le a _)

@[simp] theorem run_nil : s.run [] = [] := by simp [run, runInto]

theorem run_cons (a : α) (as : List α) :
    s.run (a :: as) = (s.cut a as).1 :: s.run (s.cut a as).2 := by
  rw [run, runInto, runInto_eq]
  simp [run]

/-- A property that holds of a list when it holds of what a cut leaves holds of all lists. -/
theorem cut_induction {motive : List α → Prop} (nil : motive [])
    (cons : ∀ a as, motive (s.cut a as).2 → motive (a :: as)) (as : List α) : motive as := by
  match as with
  | [] => exact nil
  | a :: as => exact cons a as (cut_induction nil cons _)
termination_by as.length
decreasing_by exact Nat.lt_succ_of_le (s.length_cut_le a _)

end Splitter

end ByteCalc
