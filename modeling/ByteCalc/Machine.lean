import ByteCalc.Bytecode
import ByteCalc.Opcode.Encoding
import ByteCalc.Stack
import ByteCalc.Val.Sum

/-! # The machine

A machine performs the instructions of one bytecode on a bounded stack of
values. An instruction that fails stops the machine where it stands.
-/

namespace ByteCalc

/-- How far a machine has come. -/
inductive Status where
  | ready
  | running
  | halted
  | failed
deriving DecidableEq

structure Machine where
  bytecode : Bytecode
  stack : Stack Val
  /-- The offset of the next instruction. -/
  ip : Nat
  status : Status
  /-- Why the machine has failed. -/
  fault : Option Fault

namespace Machine

/-- The number of slots unless another one is asked for. -/
def defaultCapacity : Nat := 2048

/-- A machine at the start of a program, with a given number of slots. -/
def loadWith (memory : Memory) (capacity : Nat) (b : Bytecode) : Except Fault Machine := do
  let stack ← Stack.create memory capacity "OPERAND STACK FULL"
  return ⟨b, stack, 0, .ready, none⟩

/-- A machine at the start of a program. -/
def load (memory : Memory) : Bytecode → Except Fault Machine := loadWith memory defaultCapacity

def isRunning (m : Machine) : Bool := m.status = .running

/-- Whether instructions may still be performed. -/
def isActive (m : Machine) : Bool := m.status = .ready || m.isRunning

/-- Stop with a fault. -/
def fail (m : Machine) (f : Fault) : Machine := { m with status := .failed, fault := some f }

/-- Call an operation of the stack. -/
@[inline] def onStack {α : Type} (m : Machine) (call : Stack Val → Except Fault α × Stack Val) :
    Except Fault α × Machine :=
  match m with
  | ⟨bytecode, stack, ip, status, fault⟩ =>
    let result := call stack
    (result.1, ⟨bytecode, result.2, ip, status, fault⟩)

def push (m : Machine) (v : Val) : Except Fault Unit × Machine := m.onStack (·.push v)

def pop (m : Machine) : Except Fault Val × Machine := m.onStack (·.pop)

@[simp] theorem onStack_fst {α : Type} (m : Machine)
    (call : Stack Val → Except Fault α × Stack Val) :
    (m.onStack call).1 = (call m.stack).1 := rfl

@[simp] theorem onStack_snd {α : Type} (m : Machine)
    (call : Stack Val → Except Fault α × Stack Val) :
    (m.onStack call).2 = { m with stack := (call m.stack).2 } := rfl

theorem eq_of_onStack {α : Type} {m m' : Machine} {r : Except Fault α}
    {call : Stack Val → Except Fault α × Stack Val} (h : m.onStack call = (r, m')) :
    m' = { m with stack := (call m.stack).2 } :=
  (congrArg Prod.snd h).symm

/-- Push the constant whose index follows the opcode. -/
def stepConstant (m : Machine) : Machine :=
  match readU16 m.bytecode.code (m.ip + 1) with
  | .error f => m.fail f
  | .ok index =>
    match m.bytecode.constants[index]? with
    | none => m.fail (.constantIndex index m.bytecode.constants.size)
    | some v =>
      match m.push v with
      | (.ok (), m) => { m with ip := m.ip + 3 }
      | (.error f, m) => m.fail f

/-- Replace the two topmost values by their sum. -/
def stepAdd (m : Machine) : Machine :=
  match m.onStack (·.popTwo) with
  | (.error f, m) => m.fail f
  | (.ok (lhs, rhs), m) =>
    match lhs.sum rhs with
    | .error f => m.fail f
    | .ok v =>
      match m.push v with
      | (.ok (), m) => { m with ip := m.ip + 1 }
      | (.error f, m) => m.fail f

/-- Perform the next instruction, or halt at the end of the code. -/
def step (m : Machine) : Machine :=
  match m.bytecode.code[m.ip]? with
  | none => { m with status := .halted }
  | some byte =>
    match Opcode.ofByte byte with
    | .error f => m.fail f
    | .ok .constant => m.stepConstant
    | .ok .add => m.stepAdd

theorem stepConstant_of_isActive {m : Machine} (h : m.stepConstant.isActive) :
    m.stepConstant.bytecode = m.bytecode ∧ m.stepConstant.ip = m.ip + 3 := by
  unfold stepConstant at h ⊢
  split at h
  · cases h
  · split at h
    · cases h
    · split at h
      · next hpush =>
        cases eq_of_onStack hpush
        exact ⟨rfl, rfl⟩
      · cases h

theorem stepAdd_of_isActive {m : Machine} (h : m.stepAdd.isActive) :
    m.stepAdd.bytecode = m.bytecode ∧ m.stepAdd.ip = m.ip + 1 := by
  unfold stepAdd at h ⊢
  split at h
  · cases h
  · next hpop =>
    cases eq_of_onStack hpop
    split at h
    · cases h
    · split at h
      · next hpush =>
        cases eq_of_onStack hpush
        exact ⟨rfl, rfl⟩
      · cases h

/-- A machine that has not stopped in a step has moved on in the same code. -/
theorem step_of_isActive {m : Machine} (h : m.step.isActive) :
    m.step.bytecode = m.bytecode ∧ m.ip < m.bytecode.code.size ∧ m.ip < m.step.ip := by
  unfold step at h ⊢
  split at h
  · cases h
  · next byte hb =>
    have hlt : m.ip < m.bytecode.code.size := (Array.getElem?_eq_some_iff.1 hb).1
    split at h
    · cases h
    · have hc := stepConstant_of_isActive h
      exact ⟨hc.1, hlt, by rw [hc.2]; omega⟩
    · have ha := stepAdd_of_isActive h
      exact ⟨ha.1, hlt, by rw [ha.2]; omega⟩

end Machine

end ByteCalc
