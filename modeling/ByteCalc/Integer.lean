/-! # Integers of the language

Numbers are signed and have 64 bits. Arithmetic and reading are exact: a result
that does not fit is no result.
-/

namespace ByteCalc.Integer

/-- The word for an integer, if it fits. -/
def ofInt? (n : Int) : Option Int64 :=
  if Int64.minValue.toInt ≤ n ∧ n ≤ Int64.maxValue.toInt then some (Int64.ofInt n) else none

/-- The exact sum of two words, if it fits. -/
def add? (a b : Int64) : Option Int64 := ofInt? (a.toInt + b.toInt)

/-- The number spelled by a run of decimal digits. -/
def ofDigits (ds : List Char) : Nat := ds.foldl (fun n d => 10 * n + (d.toNat - '0'.toNat)) 0

/-- At least one character, and decimal digits only. -/
def isNumeral (cs : List Char) : Bool := !cs.isEmpty && cs.all Char.isDigit

/-- Read a numeral with at most one sign in front of it. -/
def readInt? : List Char → Option Int
  | '-' :: ds => if isNumeral ds then some (-(ofDigits ds : Int)) else none
  | '+' :: ds => if isNumeral ds then some (ofDigits ds) else none
  | ds => if isNumeral ds then some (ofDigits ds) else none

/-- Read a word in decimal. -/
def read? (cs : List Char) : Option Int64 := (readInt? cs).bind ofInt?

theorem ofInt?_eq_some_iff {n : Int} {w : Int64} : ofInt? n = some w ↔ w.toInt = n := by
  unfold ofInt?
  constructor
  · intro h
    split at h
    · next hn =>
      cases h
      exact Int64.toInt_ofInt_of_le hn.1 (Int.lt_add_one_of_le hn.2)
    · cases h
  · rintro rfl
    rw [if_pos ⟨w.le_toInt, Int.le_of_lt_add_one w.toInt_lt⟩, Int64.ofInt_toInt]

theorem ofInt?_eq_none_iff {n : Int} :
    ofInt? n = none ↔ n < Int64.minValue.toInt ∨ Int64.maxValue.toInt < n := by
  unfold ofInt?
  split <;> simp only [reduceCtorEq, true_iff, false_iff] <;> omega

theorem add?_eq_some_iff {a b c : Int64} : add? a b = some c ↔ c.toInt = a.toInt + b.toInt :=
  ofInt?_eq_some_iff

end ByteCalc.Integer
