/-! # Opcodes

An instruction is an opcode byte followed by its operands. The layout of an
opcode says how many operands there are and how many bytes each one takes.
-/

namespace ByteCalc

/-- The instructions of the machine. -/
inductive Opcode where
  /-- Push the constant whose pool index is the operand. -/
  | constant
  /-- Replace the two topmost values by their sum. -/
  | add
deriving DecidableEq, Repr

/-- The name of an instruction and the widths of its operands in bytes. -/
structure Layout where
  name : String
  widths : List Nat
deriving DecidableEq, Repr

/-- The number of bytes that all operands take up. -/
def Layout.size (l : Layout) : Nat := l.widths.foldr (· + ·) 0

namespace Opcode

def all : List Opcode := [constant, add]

/-- The byte that stands for an opcode. -/
def byte : Opcode → UInt8
  | constant => 0
  | add => 1

def ofByte? (b : UInt8) : Option Opcode := all.find? (·.byte == b)

def layout : Opcode → Layout
  | constant => ⟨"CONSTANT", [2]⟩
  | add => ⟨"ADD", []⟩

def name (op : Opcode) : String := op.layout.name

theorem ofByte?_eq_some_iff {b : UInt8} {op : Opcode} : ofByte? b = some op ↔ op.byte = b := by
  constructor
  · intro h
    simpa using List.find?_some h
  · rintro rfl
    cases op <;> decide

@[simp] theorem ofByte?_byte (op : Opcode) : ofByte? op.byte = some op :=
  ofByte?_eq_some_iff.2 rfl

end Opcode

end ByteCalc
