import ByteCalc.Val

/-! # Bytecode

Instructions back to back, and the constants that they refer to by index.
-/

namespace ByteCalc

/-- A program for the machine. -/
structure Bytecode where
  code : Array UInt8
  constants : Array Val
deriving DecidableEq

namespace Bytecode

def empty : Bytecode := ⟨#[], #[]⟩

/-- Add bytes at the end of the code. Gives the offset at which they begin. -/
def append (b : Bytecode) (bytes : List UInt8) : Nat × Bytecode :=
  (b.code.size, { b with code := b.code.appendList bytes })

end Bytecode

end ByteCalc
