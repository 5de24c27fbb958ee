import ByteCalc.Bytecode
import ByteCalc.Opcode.Encoding
import ByteCalc.Program.Visitor

/-! # Code generation

Each literal becomes a constant of its own and an instruction that pushes it,
each sum an `ADD` after the code of its operands, as a walk over the program
comes to them. Bytecode can also be extended one constant or instruction at a
time. Whatever fails leaves it as it was.
-/

namespace ByteCalc

/-- The constants that an operand of two bytes can tell apart. -/
def maxConstants : Nat := 65536

/-- The instruction that performs an operator, if there is one. -/
def Operator.opcode? : Operator → Option Opcode
  | plus => some .add
  | _ => none

namespace Bytecode

/-- Add a constant at the end of the pool. Gives its index. -/
def addConstant (b : Bytecode) (v : Val) : Except Fault Nat × Bytecode :=
  if b.constants.size < maxConstants then
    (.ok b.constants.size, { b with constants := b.constants.push v })
  else (.error .poolFull, b)

/-- Add an instruction at the end of the code. Gives the offset at which it begins. -/
def emit (b : Bytecode) (op : Opcode) (operands : List Nat) : Except Fault Nat × Bytecode :=
  match op.encode operands with
  | .ok bytes =>
    let (offset, b) := b.append bytes
    (.ok offset, b)
  | .error f => (.error f, b)

/-- Cut the code and the pool back to an earlier size. -/
def truncate (b : Bytecode) (codeSize poolSize : Nat) : Bytecode :=
  ⟨b.code.take codeSize, b.constants.take poolSize⟩

/-- Add the code for one node, the code of its operands being there already. -/
def addNode (b : Bytecode) : Expr → Except Fault Unit × Bytecode
  | .literal _ n =>
    match b.addConstant (.integer n) with
    | (.ok index, b) =>
      let (result, b) := b.emit .constant [index]
      (result.map fun _ => (), b)
    | (.error f, b) => (.error f, b)
  | .binary span op _ _ =>
    match op.opcode? with
    | some opcode =>
      let (result, b) := b.emit opcode []
      (result.map fun _ => (), b)
    | none => (.error (.unsupported op span), b)

/-- The visitor that adds the code for every node. A statement leaves its value on the stack, so
there is nothing to add for it. -/
def generator : Visitor (Walk Fault Bytecode) where
  expr e b := b.addNode e

/-- Add the code for a program. At a fault both the code and the pool are cut back. -/
def addProgram (b : Bytecode) (p : Program) : Except Fault Unit × Bytecode :=
  let codeSize := b.code.size
  let poolSize := b.constants.size
  match (p.accept generator).runFrom b with
  | (.ok (), b) => (.ok (), b)
  | (.error f, b) => (.error f, b.truncate codeSize poolSize)

theorem addConstant_of_lt {b : Bytecode} (h : b.constants.size < maxConstants) (v : Val) :
    b.addConstant v = (.ok b.constants.size, { b with constants := b.constants.push v }) :=
  if_pos h

theorem addConstant_of_le {b : Bytecode} (h : maxConstants ≤ b.constants.size) (v : Val) :
    b.addConstant v = (.error .poolFull, b) :=
  if_neg (Nat.not_lt_of_le h)

end Bytecode

/-- The code for a program on its own. -/
def Program.compile (p : Program) : Except Fault Bytecode :=
  match Bytecode.empty.addProgram p with
  | (.ok (), b) => .ok b
  | (.error f, _) => .error f

end ByteCalc
