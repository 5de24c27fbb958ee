import ByteCalc.Opcode.Encoding
import ByteCalc.Splitter

/-! # Listings

A listing shows code one instruction a line. Bytes that are no instruction are
listed as well, so every byte of the code belongs to exactly one line.
-/

namespace ByteCalc

/-- What is found at an offset. -/
inductive Entry where
  | instruction (op : Opcode) (operands : List Nat)
  /-- A byte that stands for no opcode. -/
  | undefined (byte : UInt8)
  /-- An opcode with `rest` bytes after it, too few for its operands. -/
  | truncated (op : Opcode) (rest : Nat)
deriving DecidableEq

/-- An entry and the offset at which it begins. -/
structure Line where
  offset : Nat
  entry : Entry
deriving DecidableEq

namespace Entry

/-- The entry at the front of the code, and the code after it. -/
def read (byte : UInt8) (bytes : List UInt8) : Entry × List UInt8 :=
  match Opcode.ofByte? byte with
  | none => (undefined byte, bytes)
  | some op =>
    match op.layout.decode bytes with
    | .ok (operands, n) => (instruction op operands, bytes.drop n)
    | .error _ => (truncated op bytes.length, [])

theorem length_read_le (byte : UInt8) (bytes : List UInt8) :
    (read byte bytes).2.length ≤ bytes.length := by
  unfold read
  split
  · exact Nat.le_refl _
  · split <;> simp

/-- The rule by which code is cut into entries. -/
def splitter : Splitter UInt8 Entry := ⟨read, length_read_le⟩

/-- The number of bytes that an entry takes up. -/
def width : Entry → Nat
  | instruction op _ => 1 + op.layout.size
  | undefined _ => 1
  | truncated _ rest => 1 + rest

/-- The fault that keeps an entry from being an instruction. -/
def fault? : Entry → Option Fault
  | instruction .. => none
  | undefined byte => some (.undefinedOpcode byte)
  | truncated op _ => some (.operandTruncated op.name)

def text : Entry → String
  | instruction op operands =>
    operands.foldl (fun s n => s ++ " " ++ toString n) op.name
  | undefined byte => "ERROR: " ++ (Fault.undefinedOpcode byte).diagnostic.text
  | truncated op _ => "ERROR: " ++ (Fault.operandTruncated op.name).diagnostic.text

end Entry

namespace Line

/-- An offset in decimal, with at least four digits. -/
def offsetText (n : Nat) : String :=
  let digits := toString n
  String.ofList (List.replicate (4 - digits.length) '0') ++ digits

def text (l : Line) : String := offsetText l.offset ++ " " ++ l.entry.text ++ "\n"

end Line

namespace Listing

/-- The entries that some code consists of. -/
def entries (code : List UInt8) : List Entry := Entry.splitter.run code

/-- Add a line for an entry that follows the lines so far. -/
def addEntry (acc : Nat × Array Line) (e : Entry) : Nat × Array Line :=
  (acc.1 + e.width, acc.2.push ⟨acc.1, e⟩)

/-- The lines of a listing. -/
def lines (code : List UInt8) : List Line :=
  ((entries code).foldl addEntry (0, #[])).2.toList

/-- The lines for entries of which the first begins at `offset`. -/
def linesFrom (offset : Nat) : List Entry → List Line
  | [] => []
  | e :: es => ⟨offset, e⟩ :: linesFrom (offset + e.width) es

theorem toList_foldl_addEntry (es : List Entry) (offset : Nat) (ls : Array Line) :
    (es.foldl addEntry (offset, ls)).2.toList = ls.toList ++ linesFrom offset es := by
  induction es generalizing offset ls with
  | nil => simp [linesFrom]
  | cons e es ih => simp [addEntry, linesFrom, ih]

theorem lines_eq (code : List UInt8) : lines code = linesFrom 0 (entries code) := by
  simp [lines, toList_foldl_addEntry]

/-- The text of a listing. -/
def text (code : List UInt8) : String :=
  (lines code).foldl (fun s l => s ++ l.text) ""

end Listing

end ByteCalc
