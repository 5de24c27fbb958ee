/-! # White space

The property `White_Space` of the Unicode character database. It is wider than
the four blanks that separate tokens.
-/

namespace ByteCalc.Text

/-- The characters with the property, as ascending inclusive ranges of code points. -/
def spaceRanges : List (Nat × Nat) :=
  [(0x9, 0xD), (0x20, 0x20), (0x85, 0x85), (0xA0, 0xA0), (0x1680, 0x1680), (0x2000, 0x200A),
   (0x2028, 0x2029), (0x202F, 0x202F), (0x205F, 0x205F), (0x3000, 0x3000)]

/-- Whether a character is white space. -/
def isSpace (c : Char) : Bool :=
  spaceRanges.any fun (lo, hi) => lo ≤ c.toNat && c.toNat ≤ hi

end ByteCalc.Text
