import ByteCalc.Fault
import ByteCalc.Integer

/-! # Sums of values

Only integers can be added, and only if the exact sum fits.
-/

namespace ByteCalc.Val

/-- The sum of two values. -/
def sum : Val → Val → Except Fault Val
  | integer a, integer b =>
    match Integer.add? a b with
    | some c => .ok (integer c)
    | none => .error .sumRange
  | lhs, rhs => .error (.operandTypes lhs.kind rhs.kind)

end ByteCalc.Val
