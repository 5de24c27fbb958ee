/-! # Binary operators

Four levels of precedence, tightest last: equality, order, sums, products.
-/

namespace ByteCalc

/-- The binary operators of the language. -/
inductive Operator where
  | plus
  | minus
  | times
  | divide
  | less
  | greater
  | equal
  | notEqual
deriving DecidableEq, Repr

namespace Operator

def all : List Operator := [plus, minus, times, divide, less, greater, equal, notEqual]

/-- The spelling of an operator. -/
def chars : Operator → List Char
  | plus => ['+']
  | minus => ['-']
  | times => ['*']
  | divide => ['/']
  | less => ['<']
  | greater => ['>']
  | equal => ['=', '=']
  | notEqual => ['!', '=']

def text (op : Operator) : String := String.ofList op.chars

/-- A higher precedence binds tighter. -/
def precedence : Operator → Nat
  | equal | notEqual => 1
  | less | greater => 2
  | plus | minus => 3
  | times | divide => 4

/-- The operator with a given spelling. -/
def ofChars? (cs : List Char) : Option Operator := all.find? (·.chars == cs)

theorem mem_all (op : Operator) : op ∈ all := by cases op <;> decide

theorem precedence_pos (op : Operator) : 0 < op.precedence := by cases op <;> decide

theorem chars_injective {a b : Operator} (h : a.chars = b.chars) : a = b := by
  revert h; cases a <;> cases b <;> decide

theorem ofChars?_eq_some_iff {cs : List Char} {op : Operator} :
    ofChars? cs = some op ↔ op.chars = cs := by
  constructor
  · intro h
    simpa using List.find?_some h
  · rintro rfl
    cases op <;> decide

end Operator

end ByteCalc
