import ByteCalc.Fault
import ByteCalc.Val

/-! # Bounded stacks

A stack has a fixed number of slots, which are reserved when it is created. A
call that fails leaves it unchanged.
-/

namespace ByteCalc

/-- Whether the system grants a request for so many slots. -/
structure Memory where
  grants : Nat → Bool

/-- Slots of 16 bytes in an address space of 47 bits. -/
def Memory.addressSpace : Memory := ⟨fun slots => slots < 1 <<< 43⟩

/-- A stack with the bottom item first. -/
structure Stack (α : Type) where
  capacity : Nat
  /-- What to say when there is no free slot. -/
  overflowNote : String
  items : Array α

namespace Stack

variable {α : Type}

/-- An empty stack, if the slots can be reserved. -/
def create (memory : Memory) (capacity : Nat) (overflowNote : String) : Except Fault (Stack α) :=
  if memory.grants capacity then .ok ⟨capacity, overflowNote, #[]⟩
  else .error (.cannotReserve capacity)

def size (s : Stack α) : Nat := s.items.size

def isEmpty (s : Stack α) : Bool := s.items.isEmpty

def isFull (s : Stack α) : Bool := s.capacity ≤ s.items.size

def top? (s : Stack α) : Option α := s.items.back?

/-- The item in a slot, counted from the bottom. -/
def get? (s : Stack α) (slot : Nat) : Option α := s.items[slot]?

def push (s : Stack α) (a : α) : Except Fault Unit × Stack α :=
  if s.isFull then (.error (.stackFull s.overflowNote), s)
  else (.ok (), { s with items := s.items.push a })

def pop (s : Stack α) : Except Fault α × Stack α :=
  match s.items.back? with
  | some a => (.ok a, { s with items := s.items.pop })
  | none => (.error .stackEmpty, s)

/-- Remove the two topmost items. The upper one comes second. -/
def popTwo (s : Stack α) : Except Fault (α × α) × Stack α :=
  if h : 2 ≤ s.items.size then
    let lhs := s.items[s.items.size - 2]
    let rhs := s.items[s.items.size - 1]
    (.ok (lhs, rhs), { s with items := s.items.pop.pop })
  else (.error .stackEmpty, s)

theorem isFull_iff (s : Stack α) : s.isFull ↔ s.capacity ≤ s.size := by
  simp [isFull, size]

theorem push_of_lt {s : Stack α} (h : s.size < s.capacity) (a : α) :
    s.push a = (.ok (), { s with items := s.items.push a }) :=
  if_neg fun hf => Nat.not_le_of_lt h (s.isFull_iff.1 hf)

theorem push_of_le {s : Stack α} (h : s.capacity ≤ s.size) (a : α) :
    s.push a = (.error (.stackFull s.overflowNote), s) :=
  if_pos (s.isFull_iff.2 h)

@[simp] theorem pop_push (s : Stack α) (a : α) :
    pop { s with items := s.items.push a } = (.ok a, s) := by
  simp [pop]

@[simp] theorem popTwo_push_push (s : Stack α) (a b : α) :
    popTwo { s with items := (s.items.push a).push b } = (.ok (a, b), s) := by
  simp [popTwo, Array.getElem_push]

/-- A dump of a stack of values. -/
def text (s : Stack Val) : String :=
  "[" ++ ", ".intercalate (s.items.toList.map Val.tagged) ++ "]"

end Stack

end ByteCalc
