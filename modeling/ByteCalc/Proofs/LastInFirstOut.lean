import Mathlib.Data.List.Basic
import ByteCalc.Stack

/-! # Last in, first out

A stack is a list of bounded length, of which only the front can be reached.
Calls that fail leave it as it was. Where every push has its pop behind it, the
stack ends as it began and each pop gives what its push has put there.
-/

namespace ByteCalc.Stack

variable {α : Type}

/-- What can be asked of a stack. -/
inductive Call (α : Type) where
  | push (a : α)
  | pop
  | popTwo
  | get (slot : Nat)

/-- What a call gives if it does not fail. -/
inductive Reply (α : Type) where
  | done
  | item (a : α)
  | pair (lhs rhs : α)
  | slot (a : Option α)

/-- How a call fails. -/
def Call.failure : Call α → Category
  | push _ => .stackOverflow
  | _ => .stackUnderflow

def call (s : Stack α) : Call α → Except Fault (Reply α) × Stack α
  | .push a => ((s.push a).1.map fun _ => .done, (s.push a).2)
  | .pop => (s.pop.1.map .item, s.pop.2)
  | .popTwo => (s.popTwo.1.map fun p => .pair p.1 p.2, s.popTwo.2)
  | .get slot => (.ok (.slot (s.get? slot)), s)

/-- The stack after some calls. -/
def after (s : Stack α) (cs : List (Call α)) : Stack α := cs.foldl (fun s c => (s.call c).2) s

/-- The items from the top down. -/
def contents (s : Stack α) : List α := s.items.toList.reverse

/-- The stack that holds some items, the topmost first. -/
def ofList (capacity : Nat) (note : String) (xs : List α) : Stack α :=
  ⟨capacity, note, xs.reverse.toArray⟩

/-! ## Lists of bounded length -/

namespace Lifo

/-- A call made to a list of at most `capacity` items, the topmost first. -/
def call (capacity : Nat) : Call α → List α → Except Category (Reply α) × List α
  | .push a, xs =>
    if xs.length < capacity then (.ok .done, a :: xs) else (.error .stackOverflow, xs)
  | .pop, a :: xs => (.ok (.item a), xs)
  | .pop, [] => (.error .stackUnderflow, [])
  | .popTwo, b :: a :: xs => (.ok (.pair a b), xs)
  | .popTwo, xs => (.error .stackUnderflow, xs)
  | .get slot, xs => (.ok (.slot xs.reverse[slot]?), xs)

/-- The list after some calls. -/
def after (capacity : Nat) (cs : List (Call α)) (xs : List α) : List α :=
  cs.foldl (fun xs c => (call capacity c xs).2) xs

variable {capacity : Nat} {xs : List α}

theorem length_call_le (h : xs.length ≤ capacity) (c : Call α) :
    (call capacity c xs).2.length ≤ capacity := by
  cases c with
  | push a =>
    simp only [call]
    split_ifs with hlt
    · exact hlt
    · exact h
  | pop =>
    cases xs with
    | nil => exact h
    | cons a xs => exact Nat.le_of_succ_le h
  | popTwo =>
    rcases xs with _ | ⟨b, _ | ⟨a, xs⟩⟩
    · exact h
    · exact h
    · exact Nat.le_of_succ_le (Nat.le_of_succ_le h)
  | get slot => exact h

theorem length_after_le (h : xs.length ≤ capacity) (cs : List (Call α)) :
    (after capacity cs xs).length ≤ capacity := by
  induction cs generalizing xs with
  | nil => exact h
  | cons c cs ih => exact ih (length_call_le h c)

end Lifo

/-! ## One equation for each call -/

section Equations

variable (capacity : Nat) (note : String) (xs : List α)

theorem exists_eq_ofList (s : Stack α) : ∃ capacity note xs, s = ofList capacity note xs :=
  ⟨s.capacity, s.overflowNote, s.contents, by simp [ofList, contents]⟩

@[simp] theorem contents_ofList : (ofList capacity note xs).contents = xs := by
  simp [ofList, contents]

@[simp] theorem size_ofList : (ofList capacity note xs).size = xs.length := by
  simp [ofList, size]

theorem ofList_cons (a : α) :
    ofList capacity note (a :: xs) =
      { ofList capacity note xs with items := (ofList capacity note xs).items.push a } := by
  simp [ofList]

theorem push_ofList (a : α) :
    (ofList capacity note xs).push a = if xs.length < capacity then
      (.ok (), ofList capacity note (a :: xs))
    else (.error (.stackFull note), ofList capacity note xs) := by
  have hsize := size_ofList capacity note xs
  split_ifs with h
  · rw [ofList_cons]
    exact push_of_lt (hsize ▸ h) a
  · exact push_of_le (hsize ▸ Nat.le_of_not_lt h) a

@[simp] theorem pop_ofList_nil :
    (ofList capacity note ([] : List α)).pop = (.error .stackEmpty, ofList capacity note []) := rfl

@[simp] theorem pop_ofList_cons (a : α) :
    (ofList capacity note (a :: xs)).pop = (.ok a, ofList capacity note xs) := by
  rw [ofList_cons, pop_push]

theorem popTwo_ofList_of_lt (h : xs.length < 2) :
    (ofList capacity note xs).popTwo = (.error .stackEmpty, ofList capacity note xs) :=
  dif_neg (by simpa [ofList] using h)

@[simp] theorem popTwo_ofList_cons_cons (a b : α) :
    (ofList capacity note (b :: a :: xs)).popTwo = (.ok (a, b), ofList capacity note xs) := by
  rw [ofList_cons, ofList_cons]
  exact popTwo_push_push _ a b

theorem isFull_ofList : (ofList capacity note xs).isFull ↔ capacity ≤ xs.length := by
  rw [isFull_iff, size_ofList]
  rfl

theorem isEmpty_ofList : (ofList capacity note xs).isEmpty ↔ xs = [] := by
  simp [ofList, isEmpty]

/-- A stack answers as the list that it holds, and then holds what becomes of the list. -/
theorem call_ofList (c : Call α) :
    ((ofList capacity note xs).call c).1.mapError Fault.category = (Lifo.call capacity c xs).1 ∧
      ((ofList capacity note xs).call c).2 =
        ofList capacity note (Lifo.call capacity c xs).2 := by
  cases c with
  | push a =>
    simp only [call, push_ofList, Lifo.call]
    split_ifs
    · exact ⟨rfl, rfl⟩
    · exact ⟨rfl, rfl⟩
  | pop =>
    cases xs with
    | nil => exact ⟨rfl, rfl⟩
    | cons a xs =>
      simp only [call, pop_ofList_cons]
      exact ⟨rfl, rfl⟩
  | popTwo =>
    rcases xs with _ | ⟨b, _ | ⟨a, xs⟩⟩
    · exact ⟨rfl, rfl⟩
    · exact ⟨rfl, rfl⟩
    · simp only [call, popTwo_ofList_cons_cons]
      exact ⟨rfl, rfl⟩
  | get slot =>
    simp [call, get?, ofList, Lifo.call, Except.mapError]

theorem after_ofList (cs : List (Call α)) :
    (ofList capacity note xs).after cs = ofList capacity note (Lifo.after capacity cs xs) := by
  induction cs generalizing xs with
  | nil => rfl
  | cons c cs ih =>
    change (((ofList capacity note xs).call c).2).after cs = _
    rw [(call_ofList capacity note xs c).2, ih]
    rfl

end Equations

section Failures

variable (s : Stack α)

theorem push_fails_iff (a : α) : (∃ f, (s.push a).1 = .error f) ↔ s.isFull := by
  obtain ⟨capacity, note, xs, rfl⟩ := s.exists_eq_ofList
  rw [isFull_ofList, push_ofList]
  split_ifs with h
  · simp [h]
  · simpa using h

theorem pop_fails_iff : (∃ f, s.pop.1 = .error f) ↔ s.isEmpty := by
  obtain ⟨capacity, note, xs, rfl⟩ := s.exists_eq_ofList
  rw [isEmpty_ofList]
  cases xs <;> simp

theorem popTwo_fails_iff : (∃ f, s.popTwo.1 = .error f) ↔ s.size < 2 := by
  obtain ⟨capacity, note, xs, rfl⟩ := s.exists_eq_ofList
  rw [size_ofList]
  rcases xs with _ | ⟨b, _ | ⟨a, xs⟩⟩
  · simp [popTwo_ofList_of_lt]
  · simp [popTwo_ofList_of_lt]
  · simp

theorem unchanged_of_error {c : Call α} {f : Fault} (h : (s.call c).1 = .error f) :
    f.category = c.failure ∧ (s.call c).2 = s := by
  obtain ⟨capacity, note, xs, rfl⟩ := s.exists_eq_ofList
  cases c with
  | push a =>
    simp only [call, push_ofList] at h ⊢
    split_ifs at h ⊢
    · cases h
    · cases h
      exact ⟨rfl, rfl⟩
  | pop =>
    cases xs with
    | nil =>
      cases h
      exact ⟨rfl, rfl⟩
    | cons a xs => simp [call, Except.map] at h
  | popTwo =>
    rcases xs with _ | ⟨b, _ | ⟨a, xs⟩⟩
    · cases h
      exact ⟨rfl, rfl⟩
    · cases h
      exact ⟨rfl, rfl⟩
    · simp [call, Except.map] at h
  | get slot => cases h

theorem popTwo_eq_ok_iff {a b : α} {t : Stack α} :
    s.popTwo = (.ok (a, b), t) ↔ ∃ u, s.pop = (.ok b, u) ∧ u.pop = (.ok a, t) := by
  obtain ⟨capacity, note, xs, rfl⟩ := s.exists_eq_ofList
  rcases xs with _ | ⟨y, _ | ⟨x, xs⟩⟩
  · simp [popTwo_ofList_of_lt]
  · simp [popTwo_ofList_of_lt]
  · simp [and_assoc, and_left_comm]

end Failures

/-! ## Balanced calls -/

/-- Every push has its pop behind it, with balanced calls between the two. -/
inductive Balanced : List (Call α) → Prop where
  | nil : Balanced []
  | pair {inner rest : List (Call α)} (a : α) :
    Balanced inner → Balanced rest → Balanced (.push a :: inner ++ .pop :: rest)

/-- The push of an item is the last one that has no pop behind it. -/
def Opened (cs : List (Call α)) (a : α) : Prop :=
  ∃ before inner, cs = before ++ .push a :: inner ∧ Balanced inner

/-- Among some calls, every push finds a free slot. -/
def PushesSucceed (s : Stack α) (cs : List (Call α)) : Prop :=
  ∀ before a rest, cs = before ++ .push a :: rest → ((s.after before).push a).1 = .ok ()

theorem after_append (s : Stack α) (cs ds : List (Call α)) :
    s.after (cs ++ ds) = (s.after cs).after ds := List.foldl_append

theorem after_cons (s : Stack α) (c : Call α) (cs : List (Call α)) :
    s.after (c :: cs) = (s.call c).2.after cs := rfl

variable {s : Stack α} {cs ds : List (Call α)}

theorem PushesSucceed.left (h : s.PushesSucceed (cs ++ ds)) : s.PushesSucceed cs := by
  rintro before a rest rfl
  exact h before a (rest ++ ds) (by simp)

theorem PushesSucceed.right (h : s.PushesSucceed (cs ++ ds)) : (s.after cs).PushesSucceed ds := by
  rintro before a rest rfl
  rw [← after_append]
  exact h (cs ++ before) a rest (by simp)

theorem PushesSucceed.tail {c : Call α} (h : s.PushesSucceed (c :: cs)) :
    (s.call c).2.PushesSucceed cs := by
  rintro before a rest rfl
  exact h (c :: before) a rest rfl

/-- A push that succeeds is undone by a pop. -/
theorem pop_push_of_ok {a : α} (h : (s.push a).1 = .ok ()) : (s.push a).2.pop = (.ok a, s) := by
  obtain ⟨capacity, note, xs, rfl⟩ := s.exists_eq_ofList
  rw [push_ofList] at h ⊢
  split_ifs at h ⊢
  exact pop_ofList_cons capacity note xs a

theorem Balanced.after_eq (hcs : Balanced cs) (h : s.PushesSucceed cs) : s.after cs = s := by
  induction hcs generalizing s with
  | nil => rfl
  | @pair inner rest a _ _ ihinner ihrest =>
    have hpop := pop_push_of_ok (h [] a _ rfl)
    have htail : (s.push a).2.PushesSucceed (inner ++ .pop :: rest) := h.tail
    have hinner : (s.push a).2.after inner = (s.push a).2 := ihinner htail.left
    have hback : ((s.push a).2.call .pop).2 = s := congrArg Prod.snd hpop
    have hrest : s.PushesSucceed rest := by
      have hright := htail.right
      rw [hinner] at hright
      exact hback ▸ hright.tail
    calc s.after (.push a :: inner ++ .pop :: rest)
      _ = ((s.push a).2.after inner).after (.pop :: rest) := after_append _ _ _
      _ = s.after rest := by rw [hinner, after_cons, hback]
      _ = s := ihrest hrest

/-- The item that is popped is that of the last push without a pop. -/
theorem Opened.pop_eq {a : α} (hcs : Opened cs a) (h : s.PushesSucceed cs) :
    (s.after cs).pop.1 = .ok a := by
  obtain ⟨before, inner, rfl, hinner⟩ := hcs
  have hpush := h before a inner rfl
  have htail : ((s.after before).push a).2.PushesSucceed inner := h.right.tail
  rw [after_append, after_cons]
  change (((s.after before).push a).2.after inner).pop.1 = _
  rw [hinner.after_eq htail, pop_push_of_ok hpush]

theorem Opened.append {a : α} (h : Opened ds a) (cs : List (Call α)) : Opened (cs ++ ds) a := by
  obtain ⟨before, inner, rfl, hinner⟩ := h
  exact ⟨cs ++ before, inner, by simp, hinner⟩

/-- In front of every pop there is a push that has none yet. -/
theorem Balanced.exists_opened (hcs : Balanced cs) {before rest : List (Call α)}
    (h : cs = before ++ .pop :: rest) : ∃ a, Opened before a := by
  induction hcs generalizing before rest with
  | nil => simp at h
  | @pair inner rest' a hinner _ ihinner ihrest =>
    cases before with
    | nil => cases h
    | cons c before =>
      rw [List.cons_append, List.cons_append, List.cons.injEq] at h
      obtain ⟨rfl, h⟩ := h
      -- The pop stands behind the inner calls, or it is one of them.
      rcases List.append_eq_append_iff.mp h with ⟨ds, rfl, hrest⟩ | ⟨ds, hds, hrest⟩
      · cases ds with
        | nil => exact ⟨a, [], inner, by simp, hinner⟩
        | cons d ds =>
          obtain ⟨rfl, hcut⟩ := List.cons.inj hrest
          obtain ⟨b, hb⟩ := ihrest hcut
          exact ⟨b, (hb.append [.pop]).append (.push a :: inner)⟩
      · cases ds with
        | nil => exact ⟨a, [], inner, by simp [hds], hinner⟩
        | cons d ds =>
          obtain ⟨rfl, -⟩ := List.cons.inj hrest
          obtain ⟨b, hb⟩ := ihinner hds
          exact ⟨b, hb.append [.push a]⟩

/-- A new stack and all that becomes of it by calls is a list of at most as many items as it has
slots. A push fails just if the stack is full, and a pop of one or two items just if there are
fewer, and the stack is then as before. To pop two items is to pop twice. Balanced calls of which no
push fails change nothing, and each pop gives the item of the push that it belongs to. -/
theorem calls_follow_lifo (capacity : Nat) (note : String) :
    (∀ (memory : Memory) (s : Stack α), create memory capacity note = .ok s ↔
      memory.grants capacity ∧ s = ofList capacity note []) ∧
    (∀ (cs : List (Call α)) (c : Call α),
      ((ofList capacity note []).after cs).size ≤ capacity ∧
      ((ofList capacity note []).after cs).contents = Lifo.after capacity cs [] ∧
      (((ofList capacity note []).after cs).call c).1.mapError Fault.category =
        (Lifo.call capacity c (Lifo.after capacity cs [])).1) ∧
    ∀ s : Stack α,
      (∀ a, (∃ f, (s.push a).1 = .error f) ↔ s.isFull) ∧
      ((∃ f, s.pop.1 = .error f) ↔ s.isEmpty) ∧
      ((∃ f, s.popTwo.1 = .error f) ↔ s.size < 2) ∧
      (∀ c f, (s.call c).1 = .error f → f.category = c.failure ∧ (s.call c).2 = s) ∧
      (∀ a b t, s.popTwo = (.ok (a, b), t) ↔ ∃ u, s.pop = (.ok b, u) ∧ u.pop = (.ok a, t)) ∧
      ∀ cs, Balanced cs → s.PushesSucceed cs → s.after cs = s ∧
        ∀ before rest, cs = before ++ .pop :: rest →
          (∃ a, Opened before a) ∧ ∀ a, Opened before a → (s.after before).pop.1 = .ok a := by
  refine ⟨?_, ?_, ?_⟩
  · intro memory s
    unfold create
    split_ifs with h
    · simp [h, ofList, eq_comm]
    · simp [h]
  · intro cs c
    rw [after_ofList]
    refine ⟨?_, contents_ofList _ _ _, (call_ofList _ _ _ c).1⟩
    rw [size_ofList]
    exact Lifo.length_after_le (Nat.zero_le _) cs
  · intro s
    refine ⟨s.push_fails_iff, s.pop_fails_iff, s.popTwo_fails_iff,
      fun c f => s.unchanged_of_error, fun a b t => s.popTwo_eq_ok_iff, ?_⟩
    intro cs hcs hpush
    refine ⟨hcs.after_eq hpush, ?_⟩
    rintro before rest rfl
    exact ⟨hcs.exists_opened rfl, fun a ha => ha.pop_eq hpush.left⟩

/-- Two pushes above an item and their pops, in three slots. Between them the stack is full. -/
theorem calls_follow_lifo_nested :
    (ofList 3 "" [7]).PushesSucceed [.push 1, .push 2, .pop, .pop] ∧
    (ofList 3 "" [7]).after [.push 1, .push 2, .pop, .pop] = ofList 3 "" [7] ∧
    ((ofList 3 "" [7]).after [.push 1, .push 2]).pop.1 = .ok 2 ∧
    ((ofList 3 "" [7]).after [.push 1, .push 2, .pop]).pop.1 = .ok 1 ∧
    ((ofList 3 "" [2, 1, 7]).call (.push 3)).1 = .error (.stackFull "") ∧
    ((ofList 3 "" [2, 1, 7]).call (.push 3)).2 = ofList 3 "" [2, 1, 7] ∧
    create .addressSpace 3 "" = .ok (ofList 3 "" [] : Stack Nat) := by
  obtain ⟨hnew, -, hlaws⟩ := @calls_follow_lifo Nat 3 ""
  have hinner : Balanced [Call.push 2, .pop] := .pair 2 .nil .nil
  have hpush : (ofList 3 "" [7]).PushesSucceed [.push 1, .push 2, .pop, .pop] := by
    intro before a rest h
    rcases before with _ | ⟨_, _ | ⟨_, _ | ⟨_, _ | ⟨_, before⟩⟩⟩⟩
    · cases h
      rfl
    · cases h
      rfl
    · cases h
    · cases h
    · simp at h
  obtain ⟨-, -, -, -, -, hbalanced⟩ := hlaws (ofList 3 "" [7])
  obtain ⟨hsame, hpop⟩ := hbalanced _ (.pair 1 hinner .nil) hpush
  obtain ⟨-, -, -, hfault, -⟩ := hlaws (ofList 3 "" [2, 1, 7])
  refine ⟨hpush, hsame, ?_, ?_, rfl, (hfault (.push 3) _ rfl).2, (hnew _ _).mpr ⟨rfl, rfl⟩⟩
  · exact (hpop [.push 1, .push 2] [.pop] rfl).2 2 ⟨[.push 1], [], rfl, .nil⟩
  · exact (hpop [.push 1, .push 2, .pop] [] rfl).2 1 ⟨[], [.push 2, .pop], rfl, hinner⟩

end ByteCalc.Stack
