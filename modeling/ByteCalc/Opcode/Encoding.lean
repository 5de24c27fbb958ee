import ByteCalc.BigEndian
import ByteCalc.Fault

/-! # Instructions as bytes

Operands follow the opcode in big-endian order, each in as many bytes as the
layout says.
-/

namespace ByteCalc

namespace Layout

/-- Write each operand in its width. A width is at least one byte and at most a word. -/
def encodeFields (l : Layout) : List (Nat × Nat) → Except Fault (List UInt8)
  | [] => .ok []
  | (operand, width) :: fields =>
    if 0 < width ∧ width ≤ 8 ∧ operand < BigEndian.limit width then
      (BigEndian.encode width operand ++ ·) <$> l.encodeFields fields
    else .error (.operandRange l operand width)

/-- The bytes of the operands. -/
def encode (l : Layout) (operands : List Nat) : Except Fault (List UInt8) :=
  if operands.length = l.widths.length then l.encodeFields (operands.zip l.widths)
  else .error (.operandCount l operands.length)

/-- Cut bytes into consecutive windows and read each as a word. -/
def readWindows? : List Nat → List UInt8 → Option (List Nat)
  | [], _ => some []
  | width :: widths, bytes =>
    let window := bytes.take width
    if window.length = width then
      ((BigEndian.word window).toNat :: ·) <$> readWindows? widths (bytes.drop width)
    else none

/-- The operands at the front of some bytes, and the number of bytes that they take up. -/
def decode (l : Layout) (bytes : List UInt8) : Except Fault (List Nat × Nat) :=
  match readWindows? l.widths bytes with
  | some operands => .ok (operands, l.size)
  | none => .error (.operandTruncated l.name)

end Layout

namespace Opcode

/-- The opcode that a byte stands for. -/
def ofByte (b : UInt8) : Except Fault Opcode :=
  match ofByte? b with
  | some op => .ok op
  | none => .error (.undefinedOpcode b)

/-- The bytes of an instruction. -/
def encode (op : Opcode) (operands : List Nat) : Except Fault (List UInt8) :=
  (op.byte :: ·) <$> op.layout.encode operands

end Opcode

/-- The two bytes at an offset, as a number. -/
def readU16 (code : Array UInt8) (offset : Nat) : Except Fault Nat :=
  match code[offset]?, code[offset + 1]? with
  | some hi, some lo => .ok (BigEndian.decode [hi, lo])
  | _, _ => .error .wordTruncated

end ByteCalc
