/-! # CRC-32

The reflected cyclic redundancy check with polynomial `0xEDB88320`. The register
starts with all bits set and is complemented at the end.
-/

namespace ByteCalc.Checksum

/-- Shift one bit out of the register, and feed it back if it is set. -/
def shiftBit (r : UInt32) : UInt32 :=
  if r &&& 1 = 0 then r >>> 1 else (r >>> 1) ^^^ 0xEDB88320

/-- Shift a whole byte out of the register. -/
def shiftByte (r : UInt32) : UInt32 :=
  shiftBit (shiftBit (shiftBit (shiftBit (shiftBit (shiftBit (shiftBit (shiftBit r)))))))

/-- Take up a byte of the message. -/
def absorb (r : UInt32) (b : UInt8) : UInt32 := shiftByte (r ^^^ b.toUInt32)

/-- The checksum of a message. -/
def crc32 (bytes : List UInt8) : UInt32 := bytes.foldl absorb 0xFFFFFFFF ^^^ 0xFFFFFFFF

/-- The check value of the algorithm: the checksum of the digits from 1 to 9. -/
example : crc32 [0x31, 0x32, 0x33, 0x34, 0x35, 0x36, 0x37, 0x38, 0x39] = 0xCBF43926 := by
  decide +kernel

end ByteCalc.Checksum
