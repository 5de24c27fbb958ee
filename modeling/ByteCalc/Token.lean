import ByteCalc.Operator

/-! # Tokens

The smallest parts of the source. Blanks are tokens too, so that the widths of
the tokens add up to positions in the source.
-/

namespace ByteCalc

/-- A piece of source text. -/
inductive Token where
  /-- Text that is no part of the language. -/
  | unknown (chars : List Char)
  /-- A run of blanks, of which only the length matters. -/
  | blank (width : Nat)
  /-- A numeral. -/
  | integer (chars : List Char)
  | operator (op : Operator)
  | openParen
  | closeParen
  | semicolon
deriving DecidableEq

namespace Token

/-- The characters that a token stands for, with a space for each blank. -/
def chars : Token → List Char
  | unknown cs | integer cs => cs
  | blank n => List.replicate n ' '
  | operator op => op.chars
  | openParen => ['(']
  | closeParen => [')']
  | semicolon => [';']

/-- The number of characters that a token takes up. -/
def width : Token → Nat
  | blank n => n
  | t => t.chars.length

def isBlank : Token → Bool
  | blank _ => true
  | _ => false

/-- The widest blank that can be shown. It is padded by a formatter that counts in 16 bits. -/
def maxPadding : Nat := 65535

def isShowable : Token → Bool
  | blank n => n ≤ maxPadding
  | _ => true

/-- The characters of a token as it is shown. Whoever shows a blank that is too wide crashes. -/
def chars? (t : Token) : Option (List Char) := if t.isShowable then some t.chars else none

/-- The tokens that have only one spelling. -/
def fixed : List Token := [openParen, closeParen, semicolon] ++ Operator.all.map operator

/-- The fixed token with a given spelling. -/
def ofChars? (cs : List Char) : Option Token := fixed.find? (·.chars == cs)

/-- The characters that a list of tokens stands for. -/
def spell (ts : List Token) : List Char := ts.flatMap chars

/-- The characters of a list of tokens as they are shown. -/
def spell? (ts : List Token) : Option (List Char) := (ts.mapM chars?).map List.flatten

/-- No blank among the tokens is too wide to be shown. -/
def Showable (ts : List Token) : Prop := ∀ n, blank n ∈ ts → n ≤ maxPadding

theorem width_eq (t : Token) : t.width = t.chars.length := by
  cases t <;> simp [width, chars]

theorem ofChars?_eq_some_iff {cs : List Char} {t : Token} :
    ofChars? cs = some t ↔ t ∈ fixed ∧ t.chars = cs := by
  constructor
  · intro h
    exact ⟨List.mem_of_find?_eq_some h, by simpa using List.find?_some h⟩
  · rintro ⟨h, rfl⟩
    simp only [fixed, Operator.all, List.map_cons, List.map_nil, List.cons_append,
      List.nil_append, List.mem_cons, List.not_mem_nil, or_false] at h
    rcases h with rfl | rfl | rfl | rfl | rfl | rfl | rfl | rfl | rfl | rfl | rfl <;> decide

@[simp] theorem spell_nil : spell [] = [] := rfl

@[simp] theorem spell_cons (t : Token) (ts : List Token) :
    spell (t :: ts) = t.chars ++ spell ts := rfl

@[simp] theorem spell_append (ts us : List Token) : spell (ts ++ us) = spell ts ++ spell us := by
  simp [spell]

theorem showable_iff {ts : List Token} : Showable ts ↔ ∀ t ∈ ts, t.isShowable := by
  constructor
  · intro h t ht
    cases t with
    | blank n => exact decide_eq_true (h n ht)
    | _ => rfl
  · intro h n hn
    exact of_decide_eq_true (h _ hn)

instance (ts : List Token) : Decidable (Showable ts) := decidable_of_iff _ showable_iff.symm

@[simp] theorem showable_nil : Showable [] := fun _ => nofun

@[simp] theorem showable_cons {t : Token} {ts : List Token} :
    Showable (t :: ts) ↔ t.isShowable ∧ Showable ts := by
  simp [showable_iff]

@[simp] theorem showable_append {ts us : List Token} :
    Showable (ts ++ us) ↔ Showable ts ∧ Showable us := by
  simp [showable_iff, or_imp, forall_and]

theorem chars?_eq_none_iff {t : Token} : t.chars? = none ↔ t.isShowable = false := by
  simp [chars?]

theorem chars?_of_isShowable {t : Token} (h : t.isShowable) : t.chars? = some t.chars := if_pos h

theorem spell?_eq (ts : List Token) :
    spell? ts = if Showable ts then some (spell ts) else none := by
  induction ts with
  | nil => rfl
  | cons t ts ih =>
    cases ht : t.isShowable with
    | false => simp [spell?, List.mapM_cons, chars?_eq_none_iff.mpr ht, ht]
    | true =>
      have hcons : spell? (t :: ts) = (spell? ts).map (t.chars ++ ·) := by
        cases h : ts.mapM chars? <;> simp [spell?, List.mapM_cons, chars?_of_isShowable ht, h]
      rw [hcons, ih]
      split <;> simp [*]

theorem spell?_eq_some_iff {ts : List Token} {cs : List Char} :
    spell? ts = some cs ↔ Showable ts ∧ spell ts = cs := by
  rw [spell?_eq]
  split <;> simp [*]

end Token

end ByteCalc
