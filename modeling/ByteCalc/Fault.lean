import ByteCalc.Diagnostic
import ByteCalc.Opcode
import ByteCalc.Operator
import ByteCalc.Val

/-! # Faults

Everything that can go wrong, by cause. `Fault.diagnostic` is the only place
that decides how a cause is worded.
-/

namespace ByteCalc

/-- What the grammar allows at a place where something else was found. -/
inductive Expected where
  | expression
  | closeParen
  | endOfStatement
deriving DecidableEq, Repr

def Expected.text : Expected → String
  | expression => "EXPRESSION"
  | closeParen => ")"
  | endOfStatement => "END OF STATEMENT"

/-- The causes of failure, in the order in which source text meets them. -/
inductive Fault where
  /-- The source goes on with something that the grammar does not allow. -/
  | expected (what : Expected) (span : Span)
  /-- A literal that does not fit a word. -/
  | literalRange (span : Span)
  /-- An operator for which no instruction exists. -/
  | unsupported (op : Operator) (span : Span)
  /-- The constant pool has no free index. -/
  | poolFull
  | operandCount (layout : Layout) (given : Nat)
  | operandRange (layout : Layout) (operand width : Nat)
  | undefinedOpcode (byte : UInt8)
  | operandTruncated (name : String)
  | wordTruncated
  | artifactTruncated
  | checksumMismatch
  | badMagic
  | unsupportedVersion (version : UInt8)
  | unknownTag (tag : UInt8)
  | trailingBytes
  | sectionTooLarge
  /-- The constant pool has no entry at this index. -/
  | constantIndex (index size : Nat)
  | cannotReserve (slots : Nat)
  | stackFull (note : String)
  | stackEmpty
  | operandTypes (lhs rhs : Val.Kind)
  | sumRange
  /-- The user asked to stop. -/
  | interrupted
  /-- A machine has failed and does not know why. -/
  | faultMissing
deriving DecidableEq

namespace Fault

def category : Fault → Category
  | expected .. => .syntaxError
  | literalRange .. | sumRange => .overflow
  | unsupported .. => .unknownOperator
  | poolFull | constantIndex .. => .constantIndexOutOfRange
  | operandCount .. | operandRange .. => .badOperand
  | undefinedOpcode .. => .undefinedOpcode
  | operandTruncated .. | wordTruncated | artifactTruncated | checksumMismatch | badMagic
  | unsupportedVersion .. | unknownTag .. | trailingBytes | sectionTooLarge => .malformedBytecode
  | cannotReserve .. | stackFull .. => .stackOverflow
  | stackEmpty => .stackUnderflow
  | operandTypes .. => .typeError
  | interrupted => .interrupted
  | faultMissing => .internalError

/-- Faults of the source text have a place in it, the others have none. -/
def span : Fault → Span
  | expected _ s | literalRange s | unsupported _ s => s
  | _ => .nowhere

def note : Fault → String
  | expected what _ => "EXPECTED " ++ what.text
  | literalRange _ => "INTEGER LITERAL"
  | unsupported op _ => op.text
  | poolFull => "CONSTANT POOL FULL"
  | operandCount layout given =>
    layout.name ++ " TAKES " ++ toString layout.widths.length ++ " OPERANDS, GOT " ++ toString given
  | operandRange layout operand width =>
    toString operand ++ " DOES NOT FIT " ++ toString width ++ " BYTES FOR " ++ layout.name
  | undefinedOpcode byte => "OPCODE " ++ toString byte.toNat
  | operandTruncated name => name ++ " OPERAND TRUNCATED"
  | wordTruncated => "U16 OPERAND TRUNCATED"
  | artifactTruncated => "TRUNCATED"
  | checksumMismatch => "CHECKSUM MISMATCH"
  | badMagic => "BAD MAGIC"
  | unsupportedVersion version => "UNSUPPORTED VERSION " ++ toString version.toNat
  | unknownTag tag => "UNKNOWN CONSTANT TAG " ++ toString tag.toNat
  | trailingBytes => "TRAILING BYTES"
  | sectionTooLarge => "SECTION TOO LARGE"
  | constantIndex index size => "INDEX " ++ toString index ++ " OF " ++ toString size
  | cannotReserve slots => "CANNOT RESERVE " ++ toString slots ++ " SLOTS"
  | stackFull note => note
  | operandTypes lhs rhs => lhs.name ++ " + " ++ rhs.name
  | faultMissing => "ERRORED WITHOUT ERROR"
  | stackEmpty | sumRange | interrupted => ""

/-- The fault as it is shown. -/
def diagnostic (f : Fault) : Diagnostic := ⟨f.category, f.span, f.note⟩

/-- Two computations in a row succeed if both do. -/
theorem bind_eq_ok_iff {α β : Type} {x : Except Fault α} {k : α → Except Fault β} {b : β} :
    (x >>= k) = .ok b ↔ ∃ a, x = .ok a ∧ k a = .ok b := by
  cases x <;> simp [bind, Except.bind]

theorem map_eq_ok_iff {α β : Type} {x : Except Fault α} {g : α → β} {b : β} :
    x.map g = .ok b ↔ ∃ a, x = .ok a ∧ g a = b := by
  cases x <;> simp [Except.map]

theorem map_eq_error_iff {α β : Type} {x : Except Fault α} {g : α → β} {f : Fault} :
    x.map g = .error f ↔ x = .error f := by
  cases x <;> simp [Except.map]

end Fault

end ByteCalc
