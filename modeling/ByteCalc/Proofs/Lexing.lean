import Mathlib.Data.List.TakeWhile
import ByteCalc.Token.Lexer

/-! # Laws of the lexer

The first token of a text stands for a piece of it, which depends on the text
behind only by where it ends. What holds of the first token of every text holds
of all tokens of a text. Numerals and fixed tokens are read back from their
spelling, whatever follows it. Tokens stay what they are when the text goes on
with something that begins a new one.
-/

namespace ByteCalc

namespace Token

theorem operator_mem_fixed (op : Operator) : operator op ∈ fixed :=
  List.mem_append_right _ (List.mem_map_of_mem op.mem_all)

theorem integer_not_mem_fixed (ds : List Char) : integer ds ∉ fixed := by
  simp [fixed, Operator.all]

theorem not_isBlank_of_mem_fixed : ∀ t ∈ fixed, ¬ t.isBlank := by decide

/-- Text that begins with no token of the language. It has no blanks or digits in it, and letters
only at its beginning. -/
structure IsUnknown (us : List Char) : Prop where
  ne_nil : us ≠ []
  plain : ∀ c ∈ us, c.isWhitespace = false ∧ c.isDigit = false
  tail : ∀ c ∈ us.tail, Text.isAlphabetic c = false
  no_fixed : ∀ t ∈ fixed, ¬ t.chars <+: us

/-- The piece of text that a token was read from, and the text behind it. -/
inductive StandsFor : Token → List Char → List Char → Prop where
  | blank {ps rest : List Char} : ps ≠ [] → (∀ c ∈ ps, c.isWhitespace) →
    (∀ c ∈ rest.head?, c.isWhitespace = false) → StandsFor (blank ps.length) ps rest
  | integer {ps rest : List Char} : ps ≠ [] → (∀ c ∈ ps, c.isDigit) →
    (∀ c ∈ rest.head?, c.isDigit = false) → StandsFor (integer ps) ps rest
  | fixed {t : Token} {rest : List Char} : t ∈ fixed → StandsFor t t.chars rest
  | unknown {ps rest : List Char} : IsUnknown ps → (∀ c ∈ rest.head?, staysUnknown c = false) →
    StandsFor (unknown ps) ps rest

variable {c d : Char} {cs ds : List Char} {q : Char → Bool}

theorem head_dropWhile (q : Char → Bool) (cs : List Char) :
    ∀ c ∈ (cs.dropWhile q).head?, q c = false := by
  intro c hc
  have := List.head?_dropWhile_not q cs
  rw [hc] at this
  exact this

theorem forall_mem_takeWhile (hc : q c) (cs : List Char) : ∀ d ∈ c :: cs.takeWhile q, q d :=
  List.forall_mem_cons.mpr ⟨hc, fun _ => List.mem_takeWhile_imp⟩

theorem length_chars_of_mem_fixed : ∀ t ∈ fixed, t.chars.length = 1 ∨ t.chars.length = 2 := by
  decide

theorem staysUnknown_eq_true_iff : staysUnknown c ↔
    (c.isWhitespace = false ∧ c.isDigit = false) ∧ Text.isAlphabetic c = false := by
  simp [staysUnknown, and_comm]

theorem isUnknown_takeWhile (hplain : c.isWhitespace = false ∧ c.isDigit = false)
    (h₁ : ∀ t, ofChars? [c] ≠ some t) (h₂ : ∀ t, ofChars? (c :: cs.take 1) ≠ some t) :
    IsUnknown (c :: cs.takeWhile staysUnknown) := by
  have hstays : ∀ d ∈ cs.takeWhile staysUnknown, staysUnknown d := fun _ => List.mem_takeWhile_imp
  refine ⟨List.cons_ne_nil _ _, ?_, fun d hd => (staysUnknown_eq_true_iff.mp (hstays d hd)).2, ?_⟩
  · rw [List.forall_mem_cons]
    exact ⟨hplain, fun d hd => (staysUnknown_eq_true_iff.mp (hstays d hd)).1⟩
  · intro t hmem ht
    -- a fixed token that begins here is one of the two that the lexer has tried
    have htake : t.chars = (c :: cs).take t.chars.length :=
      List.prefix_iff_eq_take.mp (ht.trans
        (List.cons_prefix_cons.mpr ⟨rfl, List.takeWhile_prefix staysUnknown⟩))
    rcases length_chars_of_mem_fixed t hmem with hlen | hlen <;> rw [hlen] at htake
    · exact h₁ t (ofChars?_eq_some_iff.mpr ⟨hmem, htake⟩)
    · exact h₂ t (ofChars?_eq_some_iff.mpr ⟨hmem, htake⟩)

/-- The first token of a text stands for the beginning of the text. -/
theorem standsFor_read (c : Char) (cs : List Char) :
    ∃ ps, c :: cs = ps ++ (read c cs).2 ∧ StandsFor (read c cs).1 ps (read c cs).2 := by
  have hsplit (q : Char → Bool) : c :: cs = c :: cs.takeWhile q ++ cs.dropWhile q := by
    rw [List.cons_append, List.takeWhile_append_dropWhile]
  unfold read
  split
  · next hw =>
    refine ⟨_, hsplit Char.isWhitespace, ?_⟩
    exact .blank (List.cons_ne_nil _ _) (forall_mem_takeWhile hw cs) (head_dropWhile _ cs)
  · next hw =>
    split
    · next hd =>
      refine ⟨_, hsplit Char.isDigit, ?_⟩
      exact .integer (List.cons_ne_nil _ _) (forall_mem_takeWhile hd cs) (head_dropWhile _ cs)
    · next hd =>
      split
      · next t ht =>
        obtain ⟨hmem, hchars⟩ := ofChars?_eq_some_iff.mp ht
        exact ⟨t.chars, by rw [hchars]; rfl, .fixed hmem⟩
      · next h₁ =>
        split
        · next t ht =>
          obtain ⟨hmem, hchars⟩ := ofChars?_eq_some_iff.mp ht
          refine ⟨t.chars, ?_, .fixed hmem⟩
          rw [hchars, List.cons_append, List.take_append_drop]
        · next h₂ =>
          refine ⟨_, hsplit staysUnknown, .unknown ?_ (head_dropWhile _ cs)⟩
          exact isUnknown_takeWhile ⟨Bool.eq_false_iff.mpr hw, Bool.eq_false_iff.mpr hd⟩ h₁ h₂

theorem isDigit_of_read (h : (read c cs).1 = integer ds) (hd : d ∈ ds) : d.isDigit := by
  obtain ⟨ps, -, hs⟩ := standsFor_read c cs
  rw [h] at hs
  cases hs with
  | integer _ hps => exact hps d hd
  | fixed hmem => exact absurd hmem (integer_not_mem_fixed ds)

theorem forall_mem_run {P : Token → Prop} (h : ∀ c cs, P (read c cs).1) (cs : List Char) :
    ∀ t ∈ splitter.run cs, P t := by
  induction cs using splitter.cut_induction with
  | nil => simp
  | cons c cs ih =>
    rw [Splitter.run_cons, List.forall_mem_cons]
    exact ⟨h c cs, ih⟩

theorem not_isDigit_of_isWhitespace {c : Char} (h : c.isWhitespace) : c.isDigit = false := by
  simp only [Char.isWhitespace, Bool.or_eq_true, decide_eq_true_eq] at h
  rcases h with ((rfl | rfl) | rfl) | rfl <;> decide

theorem run_blank_cons {c : Char} (h : c.isWhitespace) (cs : List Char) :
    splitter.run (c :: cs) = blank ((cs.takeWhile Char.isWhitespace).length + 1) ::
      splitter.run (cs.dropWhile Char.isWhitespace) := by
  have hread : read c cs = (blank _, cs.dropWhile Char.isWhitespace) := if_pos h
  rw [Splitter.run_cons]
  simp only [splitter, hread]

/-- A blank in front of a text gives no token but a blank. -/
theorem filter_run_blank_cons {c : Char} (h : c.isWhitespace) (cs : List Char) :
    (splitter.run (c :: cs)).filter (!·.isBlank) = (splitter.run cs).filter (!·.isBlank) := by
  rw [run_blank_cons h, List.filter_cons_of_neg (by simp [isBlank])]
  cases cs with
  | nil => rfl
  | cons d ds =>
    cases hd : d.isWhitespace with
    | false => rw [List.dropWhile_cons_of_neg (by simp [hd])]
    | true =>
      rw [List.dropWhile_cons_of_pos hd, run_blank_cons hd,
        List.filter_cons_of_neg (by simp [isBlank])]

/-- A run of characters ends before text that does not continue it. -/
theorem takeWhile_dropWhile_append {q : Char → Bool} {rest : List Char}
    (hrest : ∀ c ∈ rest.head?, q c = false) (cs : List Char) :
    (cs ++ rest).takeWhile q = cs.takeWhile q ∧
      (cs ++ rest).dropWhile q = cs.dropWhile q ++ rest := by
  induction cs with
  | nil =>
    cases rest with
    | nil => exact ⟨rfl, rfl⟩
    | cons c cs => simp [hrest c rfl]
  | cons c cs ih => cases hc : q c <;> simp [hc, ih]

/-- A numeral goes on as far as the digits do. -/
theorem run_integer_append {ds rest : List Char} (hne : ds ≠ []) (hds : ∀ d ∈ ds, d.isDigit)
    (hrest : ∀ c ∈ rest.head?, c.isDigit = false) :
    splitter.run (ds ++ rest) = integer ds :: splitter.run rest := by
  obtain ⟨d, ds, rfl⟩ := List.exists_cons_of_ne_nil hne
  rw [List.forall_mem_cons] at hds
  have hd : ¬ d.isWhitespace := fun h => by simp [not_isDigit_of_isWhitespace h] at hds
  have htake : rest.takeWhile Char.isDigit = [] ∧ rest.dropWhile Char.isDigit = rest :=
    takeWhile_dropWhile_append hrest []
  have hread : read d (ds ++ rest) = (integer (d :: ds), rest) := by
    rw [read, if_neg hd, if_pos hds.1, List.takeWhile_append_of_pos hds.2,
      List.dropWhile_append_of_pos hds.2, htake.1, htake.2, List.append_nil]
  rw [List.cons_append, Splitter.run_cons]
  simp only [splitter, hread]

/-- A token that is known is read alike before text that does not continue it. -/
theorem read_append {c : Char} {cs rest : List Char} (hknown : ∀ us, (read c cs).1 ≠ unknown us)
    (hrest : ∀ d ∈ rest.head?, d.isWhitespace = false ∧ d.isDigit = false) :
    read c (cs ++ rest) = ((read c cs).1, (read c cs).2 ++ rest) := by
  have hblank := takeWhile_dropWhile_append (fun d hd => (hrest d hd).1) cs
  have hdigit := takeWhile_dropWhile_append (fun d hd => (hrest d hd).2) cs
  unfold read at hknown ⊢
  by_cases hw : c.isWhitespace
  · simp only [hw, if_true, hblank]
  by_cases hd : c.isDigit
  · simp only [hw, hd, if_true, Bool.false_eq_true, if_false, hdigit]
  simp only [hw, hd] at hknown ⊢
  cases h₁ : ofChars? [c] with
  | some t => rfl
  | none =>
    cases cs with
    | nil => simp [h₁] at hknown
    | cons d ds =>
      cases h₂ : ofChars? [c, d] with
      | some t => simp [h₂]
      | none => simp [h₁, h₂] at hknown

/-- Known tokens are cut off alike before text that does not continue the last of them. -/
theorem run_append {cs rest : List Char} (hknown : ∀ us, unknown us ∉ splitter.run cs)
    (hrest : ∀ d ∈ rest.head?, d.isWhitespace = false ∧ d.isDigit = false) :
    splitter.run (cs ++ rest) = splitter.run cs ++ splitter.run rest := by
  induction cs using splitter.cut_induction with
  | nil => simp
  | cons c cs ih =>
    simp only [Splitter.run_cons, List.mem_cons, not_or] at hknown
    have hread := read_append (fun us h => (hknown us).1 h.symm) hrest
    rw [List.cons_append, Splitter.run_cons, Splitter.run_cons]
    simp only [splitter, hread, List.cons_append]
    exact congrArg _ (ih fun us => (hknown us).2)

/-- No fixed token is the beginning of a longer one, and none begins with a digit. -/
theorem read_of_mem_fixed {t : Token} (h : t ∈ fixed) :
    ∃ c cs, t.chars = c :: cs ∧ c.isDigit = false ∧ ∀ rest, read c (cs ++ rest) = (t, rest) := by
  simp only [fixed, Operator.all, List.map_cons, List.map_nil, List.cons_append,
    List.nil_append, List.mem_cons, List.not_mem_nil, or_false] at h
  rcases h with rfl | rfl | rfl | rfl | rfl | rfl | rfl | rfl | rfl | rfl | rfl <;>
    exact ⟨_, _, rfl, rfl, fun _ => rfl⟩

theorem run_fixed_append {t : Token} (h : t ∈ fixed) (rest : List Char) :
    splitter.run (t.chars ++ rest) = t :: splitter.run rest := by
  obtain ⟨c, cs, hchars, -, hread⟩ := read_of_mem_fixed h
  rw [hchars, List.cons_append, Splitter.run_cons]
  simp only [splitter, hread]

end Token

theorem trimBlank_cases (ts : List Token) :
    trimBlank ts = ts ∨ ∃ n, trimBlank ts ++ [.blank n] = ts := by
  unfold trimBlank
  split
  · next h =>
    obtain rfl | ⟨us, t, rfl⟩ := List.eq_nil_or_concat ts
    · exact .inl rfl
    · cases t with
      | blank n => exact .inr ⟨n, by simp⟩
      | _ => simp [Token.isBlank] at h
  · exact .inl rfl

theorem trimBlank_sublist (ts : List Token) : (trimBlank ts).Sublist ts := by
  unfold trimBlank
  split
  · exact List.dropLast_sublist ts
  · exact List.Sublist.refl ts

theorem filter_trimBlank (ts : List Token) :
    (trimBlank ts).filter (!·.isBlank) = ts.filter (!·.isBlank) := by
  rcases trimBlank_cases ts with h | ⟨n, h⟩
  · rw [h]
  · simpa [Token.isBlank] using congrArg (List.filter (!·.isBlank)) h

theorem trimBlank_append_cons {t : Token} (ht : t.isBlank = false) (ts us : List Token) :
    trimBlank (ts ++ t :: us) = ts ++ t :: trimBlank us := by
  unfold trimBlank
  cases us with
  | nil => simp [ht]
  | cons u us =>
    have hlast : (ts ++ t :: u :: us).getLast? = (u :: us).getLast? := by
      simp [List.getLast?_cons]
    rw [hlast, List.dropLast_append_of_ne_nil (List.cons_ne_nil t _), List.dropLast_cons_cons]
    split <;> rfl

theorem forall_mem_lex {P : Token → Prop} (h : ∀ c cs, P (Token.read c cs).1) (source : String) :
    ∀ t ∈ lex source, P t := by
  intro t ht
  exact Token.forall_mem_run h source.toList t ((trimBlank_sublist _).subset ht)

theorem isDigit_of_mem_lex {source : String} {cs : List Char} (h : .integer cs ∈ lex source) :
    ∀ c ∈ cs, c.isDigit :=
  forall_mem_lex (P := fun t => ∀ ds, t = .integer ds → ∀ d ∈ ds, d.isDigit)
    (fun _ _ _ hr _ => Token.isDigit_of_read hr) source _ h cs rfl

end ByteCalc
