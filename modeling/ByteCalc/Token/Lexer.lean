import ByteCalc.Splitter
import ByteCalc.Text.Alphabetic
import ByteCalc.Token

/-! # From text to tokens

Blanks and digits form the longest runs they can. Any other character begins a
fixed token of one or two characters, or else an unknown token. Blanks at the
end of the text give no token.
-/

namespace ByteCalc

namespace Token

/-- Digits, blanks and letters are never drawn into an unknown token that began before them. -/
def staysUnknown (c : Char) : Bool :=
  !(c.isDigit || c.isWhitespace || Text.isAlphabetic c)

/-- The first token of a nonempty text, and the text after it. -/
def read (c : Char) (cs : List Char) : Token × List Char :=
  if c.isWhitespace then
    (blank ((cs.takeWhile Char.isWhitespace).length + 1), cs.dropWhile Char.isWhitespace)
  else if c.isDigit then
    (integer (c :: cs.takeWhile Char.isDigit), cs.dropWhile Char.isDigit)
  else if let some t := ofChars? [c] then
    (t, cs)
  else if let some t := ofChars? (c :: cs.take 1) then
    (t, cs.drop 1)
  else
    (unknown (c :: cs.takeWhile staysUnknown), cs.dropWhile staysUnknown)

theorem length_read_le (c : Char) (cs : List Char) : (read c cs).2.length ≤ cs.length := by
  have h (p : Char → Bool) : (cs.dropWhile p).length ≤ cs.length :=
    (List.dropWhile_sublist p).length_le
  unfold read
  repeat' split
  · exact h _
  · exact h _
  · exact Nat.le_refl _
  · simp
  · exact h _

/-- A token is as wide as the text that it was read from. -/
theorem width_read (c : Char) (cs : List Char) :
    (read c cs).1.width + (read c cs).2.length = cs.length + 1 := by
  have h (p : Char → Bool) : (cs.takeWhile p).length + (cs.dropWhile p).length = cs.length := by
    rw [← List.length_append, List.takeWhile_append_dropWhile]
  unfold read
  split
  · have := h Char.isWhitespace
    simp only [width]
    omega
  · split
    · have := h Char.isDigit
      simp only [width, chars, List.length_cons]
      omega
    · split
      · next t ht =>
        simp only [width_eq, (ofChars?_eq_some_iff.1 ht).2, List.length_cons, List.length_nil]
        omega
      · split
        · next t ht =>
          simp only [width_eq, (ofChars?_eq_some_iff.1 ht).2, List.length_cons, List.length_take,
            List.length_drop]
          omega
        · have := h staysUnknown
          simp only [width, chars, List.length_cons]
          omega

/-- The rule by which source text is cut into tokens. -/
def splitter : Splitter Char Token := ⟨read, length_read_le⟩

end Token

/-- Drop the blank token at the end, if there is one. -/
def trimBlank (ts : List Token) : List Token :=
  if ts.getLast?.any Token.isBlank then ts.dropLast else ts

/-- The tokens of a text given as a list of characters. -/
def lexChars (cs : List Char) : List Token := trimBlank (Token.splitter.run cs)

/-- The tokens of a text. -/
def lex (source : String) : List Token := lexChars source.toList

end ByteCalc
