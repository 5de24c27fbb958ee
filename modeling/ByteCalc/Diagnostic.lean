import ByteCalc.Span

/-! # Diagnostics

What a user is told about a failure: its category, its place in the source if
it has one, and a note if there is more to say.
-/

namespace ByteCalc

/-- The broad kinds of failure. -/
inductive Category where
  | syntaxError
  | unknownOperator
  | undefinedOpcode
  | badOperand
  | malformedBytecode
  | stackOverflow
  | stackUnderflow
  | typeError
  | overflow
  | constantIndexOutOfRange
  | interrupted
  | internalError
deriving DecidableEq, Repr

/-- The words that name a category. -/
def Category.text : Category → String
  | syntaxError => "SYNTAX ERROR"
  | unknownOperator => "UNKNOWN OPERATOR"
  | undefinedOpcode => "UNDEFINED OPCODE"
  | badOperand => "BAD OPERAND"
  | malformedBytecode => "MALFORMED BYTECODE"
  | stackOverflow => "STACK OVERFLOW"
  | stackUnderflow => "STACK UNDERFLOW"
  | typeError => "TYPE ERROR"
  | overflow => "OVERFLOW"
  | constantIndexOutOfRange => "CONSTANT INDEX OUT OF RANGE"
  | interrupted => "INTERRUPTED"
  | internalError => "INTERNAL ERROR"

/-- A failure as it is shown. -/
structure Diagnostic where
  category : Category
  span : Span
  note : String
deriving DecidableEq, Repr

namespace Diagnostic

/-- A diagnostic without a place and without a note. -/
def bare (category : Category) : Diagnostic := ⟨category, .nowhere, ""⟩

/-- The part of the text that gives the place, empty when there is none. -/
def spanText (s : Span) : String :=
  if s = .nowhere then "" else " IN (" ++ toString s.start ++ ".." ++ toString s.stop ++ ")"

/-- The part of the text that gives the note, empty when there is none. -/
def noteText (note : String) : String :=
  if note.isEmpty then "" else "; " ++ note

/-- One line of text for a diagnostic. -/
def text (d : Diagnostic) : String := d.category.text ++ spanText d.span ++ noteText d.note

/-- The text inside braces, for logs. -/
def framed (d : Diagnostic) : String := "Error \x7b " ++ d.text ++ " \x7d"

/-- Move the place `k` characters to the right. -/
def shift (k : Nat) (d : Diagnostic) : Diagnostic := { d with span := d.span.shift k }

theorem text_bare (c : Category) : (bare c).text = c.text := by
  simp [bare, text, spanText, noteText]

end Diagnostic

end ByteCalc
