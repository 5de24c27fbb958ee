import Mathlib.Data.List.Chain
import ByteCalc.Proofs.Segmentation

/-! # Reading tokens back

A text can be cut in one way only, so tokens are read back from every text that
they cut. Their own spelling is such a text unless two numerals or two blanks
run into each other. The texts without unknown tokens are those that are put
together from blanks, digits and the spellings of fixed tokens.
-/

namespace ByteCalc

namespace Token

variable {t u : Token} {ts : List Token} {c : Char} {cs ps us rest : List Char}

/-! ## The only way to cut a text -/

/-- A fixed token does not begin in unknown text and end behind it. -/
theorem IsUnknown.not_isPrefix_append (hu : IsUnknown us)
    (hrest : ∀ c ∈ rest.head?, staysUnknown c = false) (ht : t ∈ fixed) :
    ¬ t.chars <+: us ++ rest := by
  intro h
  rcases List.prefix_or_prefix_of_prefix h (List.prefix_append us rest) with h' | ⟨vs, hvs⟩
  · exact hu.no_fixed t ht h'
  · -- the first character behind the unknown text would be one that stays in it
    rw [← hvs, List.prefix_append_right_inj] at h
    cases vs with
    | nil => exact hu.no_fixed t ht (by simp [← hvs])
    | cons d vs =>
      have hd : staysUnknown d := staysUnknown_of_mem_fixed ht d (by simp [← hvs])
      obtain ⟨ws, rfl⟩ := h
      rw [hrest d rfl] at hd
      cases hd

theorem run_blank_append (hne : ps ≠ []) (hps : ∀ c ∈ ps, c.isWhitespace)
    (hrest : ∀ c ∈ rest.head?, c.isWhitespace = false) :
    splitter.run (ps ++ rest) = blank ps.length :: splitter.run rest := by
  obtain ⟨c, cs, rfl⟩ := List.exists_cons_of_ne_nil hne
  obtain ⟨hc, hcs⟩ := List.forall_mem_cons.mp hps
  obtain ⟨htake, hdrop⟩ := takeWhile_dropWhile_append hrest cs
  rw [List.cons_append, run_blank_cons hc, htake, hdrop, List.takeWhile_eq_self_iff.mpr hcs,
    List.dropWhile_eq_nil_iff.mpr hcs]
  rfl

theorem run_unknown_append (hu : IsUnknown us)
    (hrest : ∀ c ∈ rest.head?, staysUnknown c = false) :
    splitter.run (us ++ rest) = unknown us :: splitter.run rest := by
  obtain ⟨c, cs, rfl⟩ := List.exists_cons_of_ne_nil hu.ne_nil
  obtain ⟨hw, hd⟩ := hu.plain c List.mem_cons_self
  have hfixed : ∀ vs, c :: vs <+: c :: cs ++ rest → ofChars? (c :: vs) = none := by
    intro vs hvs
    refine Option.eq_none_iff_forall_ne_some.mpr fun t ht => ?_
    obtain ⟨hmem, hchars⟩ := ofChars?_eq_some_iff.mp ht
    exact hu.not_isPrefix_append hrest hmem (hchars ▸ hvs)
  have hone : ofChars? [c] = none := hfixed [] ⟨cs ++ rest, rfl⟩
  have htwo : ofChars? (c :: (cs ++ rest).take 1) = none :=
    hfixed _ (List.cons_prefix_cons.mpr ⟨rfl, List.take_prefix 1 _⟩)
  have hstays : ∀ d ∈ cs, staysUnknown d := fun d hd =>
    staysUnknown_eq_true_iff.mpr ⟨hu.plain d (List.mem_cons_of_mem c hd), hu.tail d hd⟩
  obtain ⟨htake, hdrop⟩ := takeWhile_dropWhile_append hrest cs
  have hread : read c (cs ++ rest) = (unknown (c :: cs), rest) := by
    simp only [read, hw, hd, hone, htwo, htake, hdrop, List.takeWhile_eq_self_iff.mpr hstays,
      List.dropWhile_eq_nil_iff.mpr hstays, Bool.false_eq_true, if_false, List.nil_append]
  rw [List.cons_append, Splitter.run_cons]
  simp only [splitter, hread]

theorem StandsFor.run_append (h : StandsFor t ps rest) :
    splitter.run (ps ++ rest) = t :: splitter.run rest := by
  cases h with
  | blank hne hps hrest => exact run_blank_append hne hps hrest
  | integer hne hps hrest => exact run_integer_append hne hps hrest
  | fixed hmem => exact run_fixed_append hmem rest
  | unknown hu hrest => exact run_unknown_append hu hrest

/-- The tokens of a text are the ones that cut it. -/
theorem run_eq_iff : splitter.run cs = ts ↔ Cuts ts cs := by
  constructor
  · rintro rfl
    exact cuts_run cs
  · intro h
    induction h with
    | nil => exact Splitter.run_nil _
    | cons ht _ ih => rw [ht.run_append, ih]

/-! ## Tokens back to back -/

/-- Tokens that a text can have, other than unknown ones. -/
def Regular : Token → Prop
  | unknown _ => False
  | blank n => 0 < n
  | integer ds => ds ≠ [] ∧ ds.all Char.isDigit
  | _ => True

instance : DecidablePred Regular
  | unknown _ => isFalse id
  | blank n => inferInstanceAs (Decidable (0 < n))
  | integer ds => inferInstanceAs (Decidable (ds ≠ [] ∧ ds.all Char.isDigit = true))
  | operator _ | openParen | closeParen | semicolon => isTrue trivial

/-- Two tokens that do not run into each other. -/
def Apart (t u : Token) : Prop := ¬ (t.isInteger ∧ u.isInteger) ∧ ¬ (t.isBlank ∧ u.isBlank)

instance : DecidableRel Apart := fun _ _ => inferInstanceAs (Decidable (_ ∧ _))

/-- Regular tokens, each apart from the next, with no blank at the end. -/
structure Canonical (ts : List Token) : Prop where
  regular : ∀ t ∈ ts, t.Regular
  apart : ts.IsChain Apart
  last : ∀ t ∈ ts.getLast?, ¬ t.isBlank

theorem standsFor_blank {n : Nat} (hn : 0 < n) (hrest : ∀ c ∈ rest.head?, c.isWhitespace = false) :
    StandsFor (blank n) (blank n).chars rest := by
  have hne : List.replicate n ' ' ≠ [] := by
    rw [Ne, List.replicate_eq_nil_iff]
    exact hn.ne'
  have hblank : ∀ c ∈ List.replicate n ' ', c.isWhitespace := by
    intro c hc
    rw [List.eq_of_mem_replicate hc]
    rfl
  simpa [chars] using StandsFor.blank hne hblank hrest

theorem Regular.standsFor (h : t.Regular)
    (hw : t.isBlank → ∀ c ∈ rest.head?, c.isWhitespace = false)
    (hd : t.isInteger → ∀ c ∈ rest.head?, c.isDigit = false) : StandsFor t t.chars rest := by
  cases t with
  | unknown us => exact False.elim h
  | blank n => exact standsFor_blank h (hw rfl)
  | integer ds => exact .integer h.1 (List.all_eq_true.mp h.2) (hd rfl)
  | operator op => exact .fixed (operator_mem_fixed op)
  | openParen | closeParen | semicolon => exact .fixed (by decide)

/-- The first character of some tokens tells which kind of token comes first. -/
theorem exists_head_of_spell (h : ∀ t ∈ ts, t.Regular) (hc : c ∈ (spell ts).head?) :
    ∃ u ∈ ts.head?, c.isWhitespace = u.isBlank ∧ c.isDigit = u.isInteger := by
  cases ts with
  | nil => cases hc
  | cons u us =>
    have hu : StandsFor u u.chars [] := (h u List.mem_cons_self).standsFor (by simp) (by simp)
    rw [spell_cons, List.head?_append_of_ne_nil _ hu.ne_nil] at hc
    exact ⟨u, rfl, hu.classes_eq c (List.mem_of_head? hc)⟩

theorem cuts_spell (hts : ∀ t ∈ ts, t.Regular) (happart : ts.IsChain Apart) :
    Cuts ts (spell ts) := by
  induction ts with
  | nil => exact .nil
  | cons t ts ih =>
    obtain ⟨ht, hts⟩ := List.forall_mem_cons.mp hts
    obtain ⟨hnext, happart⟩ := List.isChain_cons.mp happart
    refine .cons (ht.standsFor ?_ ?_) (ih hts happart)
    · intro hb c hc
      obtain ⟨u, hu, hclass, -⟩ := exists_head_of_spell hts hc
      rw [hclass, Bool.eq_false_iff]
      exact fun hb' => (hnext u hu).2 ⟨hb, hb'⟩
    · intro hi c hc
      obtain ⟨u, hu, -, hclass⟩ := exists_head_of_spell hts hc
      rw [hclass, Bool.eq_false_iff]
      exact fun hi' => (hnext u hu).1 ⟨hi, hi'⟩

theorem trimBlank_eq_self (h : ∀ t ∈ ts.getLast?, ¬ t.isBlank) : trimBlank ts = ts := by
  refine if_neg fun hany => ?_
  obtain ⟨t, ht, hb⟩ := (Option.any_eq_true _ _).mp hany
  exact h t ht hb

/-! ## Tokens of a text -/

theorem StandsFor.regular (h : StandsFor t ps rest) (hknown : ∀ us, t ≠ .unknown us) :
    t.Regular := by
  cases h with
  | blank hne => exact List.length_pos_iff.mpr hne
  | integer hne hps => exact ⟨hne, List.all_eq_true.mpr hps⟩
  | fixed hmem =>
    have hall : ∀ t ∈ Token.fixed, t.Regular := by decide
    exact hall t hmem
  | unknown => exact absurd rfl (hknown ps)

theorem Cuts.regular (h : Cuts ts cs) (hknown : ∀ us, unknown us ∉ ts) : ∀ t ∈ ts, t.Regular := by
  induction h with
  | nil => simp
  | cons ht _ ih =>
    simp only [List.mem_cons, not_or] at hknown
    rw [List.forall_mem_cons]
    exact ⟨ht.regular fun us h => (hknown us).1 h.symm, ih fun us => (hknown us).2⟩

theorem StandsFor.apart {qs rest' : List Char} (h : StandsFor t ps (qs ++ rest'))
    (h' : StandsFor u qs rest') : Apart t u := by
  obtain ⟨d, qs, rfl⟩ := List.exists_cons_of_ne_nil h'.ne_nil
  obtain ⟨hw, hd⟩ := h.breaks
  obtain ⟨hw', hd'⟩ := h'.classes_eq d List.mem_cons_self
  have hlast := List.getLast_mem_getLast? h.ne_nil
  obtain ⟨hw'', hd''⟩ := h.classes_eq _ (List.getLast_mem h.ne_nil)
  constructor
  · rintro ⟨ht, hu⟩
    have hbreak := hd _ hlast (hd''.trans ht) d rfl
    rw [hd', hu] at hbreak
    cases hbreak
  · rintro ⟨ht, hu⟩
    have hbreak := hw _ hlast (hw''.trans ht) d rfl
    rw [hw', hu] at hbreak
    cases hbreak

theorem Cuts.apart (h : Cuts ts cs) : ts.IsChain Apart := by
  induction h with
  | nil => exact .nil
  | cons ht hts ih =>
    refine List.isChain_cons.mpr ⟨?_, ih⟩
    cases hts with
    | nil => simp
    | cons hu =>
      rintro _ ⟨⟩
      exact ht.apart hu

/-- No second blank comes to the end when the last one is dropped. -/
theorem last_trimBlank (h : ts.IsChain Apart) : ∀ t ∈ (trimBlank ts).getLast?, ¬ t.isBlank := by
  intro t ht hb
  unfold trimBlank at ht
  split at ht
  · next hany =>
    obtain ⟨u, hu, hub⟩ := (Option.any_eq_true _ _).mp hany
    obtain rfl | ⟨us, v, rfl⟩ := List.eq_nil_or_concat' ts
    · cases hu
    · obtain rfl : v = u := by simpa using hu
      rw [List.dropLast_concat] at ht
      exact ((List.isChain_append.mp h).2.2 t ht v rfl).2 ⟨hb, hub⟩
  · next hany => exact hany ((Option.any_eq_true _ _).mpr ⟨t, ht, hb⟩)

/-! ## Texts without unknown tokens -/

/-- The spellings of fixed tokens. -/
def signs : List String := ["+", "-", "*", "/", "<", ">", "==", "!=", "(", ")", ";"]

theorem mem_signs_iff {s : String} : s ∈ signs ↔ ∃ t ∈ fixed, String.ofList t.chars = s := by
  constructor
  · have hall : ∀ s ∈ signs, ∃ t ∈ fixed, String.ofList t.chars = s := by decide
    exact hall s
  · have hall : ∀ t ∈ fixed, String.ofList t.chars ∈ signs := by decide
    rintro ⟨t, ht, rfl⟩
    exact hall t ht

/-- Blanks, digits and signs in any order. -/
inductive Written : List Char → Prop where
  | nil : Written []
  | char {c : Char} {cs : List Char} : c.isWhitespace ∨ c.isDigit → Written cs → Written (c :: cs)
  | sign {s : String} {cs : List Char} : s ∈ signs → Written cs → Written (s.toList ++ cs)

theorem Written.chars_append (hps : ∀ c ∈ ps, c.isWhitespace ∨ c.isDigit) (h : Written cs) :
    Written (ps ++ cs) := by
  induction ps with
  | nil => exact h
  | cons c ps ih =>
    obtain ⟨hc, hps⟩ := List.forall_mem_cons.mp hps
    exact .char hc (ih hps)

theorem Written.fixed_append (ht : t ∈ fixed) (h : Written cs) : Written (t.chars ++ cs) := by
  have hsign := Written.sign (mem_signs_iff.mpr ⟨t, ht, rfl⟩) h
  rwa [String.toList_ofList] at hsign

theorem Cuts.written (h : Cuts ts cs) (hknown : ∀ us, unknown us ∉ ts) : Written cs := by
  induction h with
  | nil => exact .nil
  | @cons t ts ps rest ht _ ih =>
    simp only [List.mem_cons, not_or] at hknown
    have hrest := ih fun us => (hknown us).2
    cases ht with
    | blank _ hps => exact hrest.chars_append fun c hc => .inl (hps c hc)
    | integer _ hps => exact hrest.chars_append fun c hc => .inr (hps c hc)
    | fixed hmem => exact hrest.fixed_append hmem
    | unknown => exact absurd rfl (hknown ps).1

/-- A digit in front of a text begins a numeral or goes on with one. -/
theorem unknown_mem_run_digit_cons (h : c.isDigit) (cs : List Char) :
    unknown us ∈ splitter.run (c :: cs) ↔ unknown us ∈ splitter.run cs := by
  have hrun : ∀ d ds, d.isDigit → splitter.run (d :: ds) =
      integer (d :: ds.takeWhile Char.isDigit) :: splitter.run (ds.dropWhile Char.isDigit) := by
    intro d ds hd
    have hne : d :: ds.takeWhile Char.isDigit ≠ [] := List.cons_ne_nil _ _
    have hcut := run_integer_append hne (forall_mem_takeWhile hd ds) (head_dropWhile _ ds)
    rwa [List.cons_append, List.takeWhile_append_dropWhile] at hcut
  rw [hrun c cs h]
  cases cs with
  | nil => simp
  | cons d ds =>
    cases hd : d.isDigit with
    | false => simp [hd]
    | true => simp [hd, hrun d ds hd]

theorem unknown_mem_filter : unknown us ∈ ts.filter (!·.isBlank) ↔ unknown us ∈ ts := by
  simp [isBlank]

theorem Written.known (h : Written cs) : ∀ us, unknown us ∉ splitter.run cs := by
  intro us
  induction h with
  | nil => simp
  | char hc _ ih =>
    rcases hc with hc | hc
    · rwa [← unknown_mem_filter, filter_run_blank_cons hc, unknown_mem_filter]
    · rwa [unknown_mem_run_digit_cons hc]
  | sign hs _ ih =>
    obtain ⟨t, ht, rfl⟩ := mem_signs_iff.mp hs
    rw [String.toList_ofList, run_fixed_append ht, List.mem_cons, not_or]
    refine ⟨?_, ih⟩
    rintro rfl
    simp [fixed, Operator.all] at ht

theorem known_run_iff : (∀ us, unknown us ∉ splitter.run cs) ↔ Written cs :=
  ⟨(cuts_run cs).written, Written.known⟩

end Token

open Token

theorem known_lex_iff (source : String) :
    (∀ us, unknown us ∉ lex source) ↔ Written source.toList := by
  rw [← known_run_iff]
  refine forall_congr' fun us => not_congr ?_
  rw [← unknown_mem_filter, lex, lexChars, filter_trimBlank, unknown_mem_filter]

theorem canonical_lex {source : String} (h : Written source.toList) : Canonical (lex source) where
  regular t ht := (cuts_run source.toList).regular h.known t ((trimBlank_sublist _).subset ht)
  apart := (cuts_run source.toList).trimmed.apart
  last := last_trimBlank (cuts_run source.toList).apart

theorem lex_spell {ts : List Token} (h : Canonical ts) :
    lex (String.ofList (spell ts)) = ts := by
  rw [lex, String.toList_ofList, lexChars, run_eq_iff.mpr (cuts_spell h.regular h.apart)]
  exact trimBlank_eq_self h.last

/-- Tokens that stay apart are read back from their spelling if it can be shown. A text has no
unknown tokens just if it consists of blanks, digits and signs, and then its tokens stay apart as
well. -/
theorem lex_inverts_spell :
    (∀ ts, Canonical ts → Showable ts →
      ∃ cs, spell? ts = some cs ∧ lex (String.ofList cs) = ts) ∧
    ∀ source : String, ((∀ us, unknown us ∉ lex source) ↔ Written source.toList) ∧
      (Written source.toList → Canonical (lex source)) := by
  constructor
  · intro ts hts hshow
    exact ⟨spell ts, spell?_eq_some_iff.mpr ⟨hshow, rfl⟩, lex_spell hts⟩
  · intro source
    exact ⟨known_lex_iff source, canonical_lex⟩

/-- Two signs in a row on each side of the blanks, and three characters that are no two signs. -/
theorem lex_inverts_spell_of_signs :
    lex "07<==  !===1" = [.integer ['0', '7'], .operator .less, .operator .equal, .blank 2,
      .operator .notEqual, .operator .equal, .integer ['1']] ∧
    Canonical (lex "07<==\t !===1\n") ∧ ¬ Written "=!=".toList := by
  obtain ⟨hspell, hlex⟩ := lex_inverts_spell
  refine ⟨?_, ?_, ?_⟩
  · obtain ⟨cs, hcs, h⟩ := hspell [.integer ['0', '7'], .operator .less, .operator .equal,
      .blank 2, .operator .notEqual, .operator .equal, .integer ['1']]
      ⟨by decide, by decide, by decide⟩ (by decide)
    cases hcs
    exact h
  · apply (hlex _).2
    have hrest : Written ['!', '=', '=', '=', '1', '\n'] :=
      .fixed_append (t := .operator .notEqual) (by decide) <|
        .fixed_append (t := .operator .equal) (by decide) <|
          .char (.inr rfl) <| .char (.inl rfl) .nil
    exact .char (.inr rfl) <| .char (.inr rfl) <|
      .fixed_append (t := .operator .less) (by decide) <|
        .fixed_append (t := .operator .equal) (by decide) <|
          .char (.inl rfl) <| .char (.inl rfl) hrest
  · rw [← (hlex _).1]
    have hunknown : lex "=!=" = [.unknown ['=', '!', '=']] := by decide +kernel
    simp [hunknown]

/-- Two numerals with a wide blank between them stay apart, but their spelling is not shown. -/
theorem spelling_crashes_at_wide_blank :
    Canonical [.integer ['1'], .blank 65536, .integer ['2']] ∧
    spell? [.integer ['1'], .blank 65536, .integer ['2']] = none :=
  ⟨⟨by decide, by decide, by decide⟩, by rw [spell?_eq, if_neg (by decide)]⟩

end ByteCalc
