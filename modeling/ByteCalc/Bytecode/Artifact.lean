import ByteCalc.BigEndian
import ByteCalc.Bytecode
import ByteCalc.Checksum
import ByteCalc.Fault

/-! # Artifacts

Bytecode in one string of bytes: four letters, a version, the number of
constants and the constants, the length of the code and the code, and a
checksum of all that. Numbers are big-endian. Any function can serve as the
checksum; artifacts are made with `Checksum.crc32`.
-/

namespace ByteCalc.Artifact

/-- The letters `MKBC`. -/
def magic : List UInt8 := [0x4D, 0x4B, 0x42, 0x43]

def version : UInt8 := 1

def integerTag : UInt8 := 0

def booleanTag : UInt8 := 1

/-- A constant is a tag followed by eight bytes in two's complement, or by one byte. -/
def encodeConstant : Val → List UInt8
  | .integer n => integerTag :: BigEndian.encode 8 n.toUInt64.toNat
  | .boolean b => [booleanTag, b.toUInt8]

/-- Everything that the checksum covers. -/
def body (b : Bytecode) : List UInt8 :=
  magic ++ version :: BigEndian.encode 4 b.constants.size
    ++ b.constants.toList.flatMap encodeConstant
    ++ BigEndian.encode 4 b.code.size ++ b.code.toList

/-- Put the checksum behind a body. -/
def sign (checksum : List UInt8 → UInt32) (body : List UInt8) : List UInt8 :=
  body ++ BigEndian.encode 4 (checksum body).toNat

/-- Write bytecode with a checksum of any kind. -/
def encodeUnder (checksum : List UInt8 → UInt32) (b : Bytecode) : Except Fault (List UInt8) :=
  if b.constants.size < UInt32.size ∧ b.code.size < UInt32.size then .ok (sign checksum (body b))
  else .error .sectionTooLarge

/-- Write bytecode as an artifact. -/
def encode : Bytecode → Except Fault (List UInt8) := encodeUnder Checksum.crc32

/-- The first `n` bytes and the bytes after them. -/
def take (n : Nat) (bytes : List UInt8) : Except Fault (List UInt8 × List UInt8) :=
  let head := bytes.take n
  if head.length = n then .ok (head, bytes.drop n) else .error .artifactTruncated

def takeByte : List UInt8 → Except Fault (UInt8 × List UInt8)
  | b :: bytes => .ok (b, bytes)
  | [] => .error .artifactTruncated

/-- A number of `width` bytes. -/
def takeNumber (width : Nat) (bytes : List UInt8) : Except Fault (Nat × List UInt8) := do
  let (head, bytes) ← take width bytes
  return (BigEndian.decode head, bytes)

/-- A constant. Any byte other than zero stands for true. -/
def takeConstant (bytes : List UInt8) : Except Fault (Val × List UInt8) := do
  let (tag, bytes) ← takeByte bytes
  if tag = integerTag then
    let (n, bytes) ← takeNumber 8 bytes
    return (.integer (UInt64.ofNat n).toInt64, bytes)
  else if tag = booleanTag then
    let (b, bytes) ← takeByte bytes
    return (.boolean (b != 0), bytes)
  else throw (.unknownTag tag)

/-- So many constants, after those taken before. -/
def takeConstants : Nat → Array Val → List UInt8 → Except Fault (Array Val × List UInt8)
  | 0, vals, bytes => .ok (vals, bytes)
  | n + 1, vals, bytes =>
    match takeConstant bytes with
    | .ok (val, bytes) => takeConstants n (vals.push val) bytes
    | .error f => .error f

/-- What follows the letters. -/
def takeMagic (bytes : List UInt8) : Except Fault (List UInt8) := do
  let (letters, bytes) ← take magic.length bytes
  if letters = magic then return bytes else throw .badMagic

/-- What follows the version. -/
def takeVersion (bytes : List UInt8) : Except Fault (List UInt8) := do
  let (v, bytes) ← takeByte bytes
  if v = version then return bytes else throw (.unsupportedVersion v)

/-- Read what the checksum covers. -/
def decodeBody (bytes : List UInt8) : Except Fault Bytecode := do
  let bytes ← takeMagic bytes
  let bytes ← takeVersion bytes
  let (count, bytes) ← takeNumber 4 bytes
  let (constants, bytes) ← takeConstants count #[] bytes
  let (size, bytes) ← takeNumber 4 bytes
  let (code, bytes) ← take size bytes
  if bytes = [] then return ⟨code.toArray, constants⟩ else throw .trailingBytes

/-- Read bytes whose last four must be a checksum of any kind. -/
def decodeUnder (checksum : List UInt8 → UInt32) (bytes : List UInt8) : Except Fault Bytecode :=
  if bytes.length < 4 then .error .artifactTruncated
  else
    let bodyLength := bytes.length - 4
    let body := bytes.take bodyLength
    if (checksum body).toNat = BigEndian.decode (bytes.drop bodyLength) then decodeBody body
    else .error .checksumMismatch

/-- Read an artifact. -/
def decode : List UInt8 → Except Fault Bytecode := decodeUnder Checksum.crc32

end ByteCalc.Artifact
