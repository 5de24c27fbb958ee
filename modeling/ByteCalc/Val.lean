/-! # Values

The machine computes with integers and carries truth values along.
-/

namespace ByteCalc

/-- Constants and the contents of stack slots. -/
inductive Val where
  | integer (n : Int64)
  | boolean (b : Bool)
deriving DecidableEq

namespace Val

/-- The two types that a value can have. -/
inductive Kind where
  | integer
  | boolean
deriving DecidableEq, Repr

def Kind.name : Kind → String
  | integer => "INTEGER"
  | boolean => "BOOLEAN"

def kind : Val → Kind
  | integer _ => .integer
  | boolean _ => .boolean

def integer? : Val → Option Int64
  | integer n => some n
  | boolean _ => none

/-- A value as it is shown to the user. -/
def text : Val → String
  | integer n => toString n.toInt
  | boolean true => "true"
  | boolean false => "false"

/-- A value together with its type, as in a dump of the stack. -/
def tagged : Val → String
  | integer n => "Integer(" ++ text (integer n) ++ ")"
  | boolean b => "Boolean(" ++ text (boolean b) ++ ")"

end Val

end ByteCalc
