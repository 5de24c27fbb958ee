import Mathlib.Data.List.DropRight
import ByteCalc.Proofs.Lexing
import ByteCalc.Span

/-! # How a text is cut into tokens

Every token stands for a piece of the text, and the pieces follow one another.
Blanks and numerals take up whole runs of characters, and unknown text goes on
to the next blank, digit or letter. So the tokens give the text back, except
for the kind of its blanks and for those at its end. They cannot be shown if one
of the other runs of blanks is too wide.
-/

namespace ByteCalc

namespace Span

/-- The characters of a text at a span. -/
def slice (s : Span) (text : List Char) : List Char := text.extract s.start s.stop

/-- The characters at a span have a property that those on both sides of it do not have. -/
structure IsRun (q : Char → Bool) (text : List Char) (s : Span) : Prop where
  lt : s.start < s.stop
  le : s.stop ≤ text.length
  inside : ∀ c ∈ s.slice text, q c
  before : ∀ i c, i + 1 = s.start → text[i]? = some c → q c = false
  behind : ∀ c, text[s.stop]? = some c → q c = false

variable {q : Char → Bool} {us ps vs : List Char}

theorem slice_append (us ps vs : List Char) :
    (⟨us.length, us.length + ps.length⟩ : Span).slice (us ++ (ps ++ vs)) = ps := by
  simp [slice, List.extract]

theorem getElem?_behind (us ps vs : List Char) :
    (us ++ (ps ++ vs))[us.length + ps.length]? = vs.head? := by
  rw [← List.append_assoc, ← List.length_append, List.getElem?_append_right le_rfl,
    Nat.sub_self, List.head?_eq_getElem?]

theorem isRun_append (hne : ps ≠ []) (hps : ∀ c ∈ ps, q c)
    (hus : ∀ c ∈ us.getLast?, q c = false) (hvs : ∀ c ∈ vs.head?, q c = false) :
    (⟨us.length, us.length + ps.length⟩ : Span).IsRun q (us ++ (ps ++ vs)) where
  lt := Nat.lt_add_of_pos_right (List.length_pos_iff.mpr hne)
  le := by simp
  inside := by rwa [slice_append]
  before := by
    intro i c hi hc
    apply hus
    change i + 1 = us.length at hi
    rw [List.getElem?_append_left (Nat.lt_of_succ_le hi.le)] at hc
    rwa [List.getLast?_eq_getElem?, ← hi]
  behind := by
    intro c hc
    apply hvs
    rwa [getElem?_behind] at hc

end Span

namespace Token

/-- What a token says about the piece of a text that it was read from. -/
def Covers (text : List Char) (s : Span) : Token → Prop
  | blank n => s.IsRun Char.isWhitespace text ∧ (s.slice text).length = n
  | integer ds => s.IsRun Char.isDigit text ∧ s.slice text = ds
  | unknown us => s.slice text = us ∧ IsUnknown us ∧
    ∀ c, text[s.stop]? = some c → c.isWhitespace ∨ c.isDigit ∨ Text.isAlphabetic c
  | t => s.slice text = t.chars

/-- Tokens with their spans, the first of which begins at `position`. -/
def locate (position : Nat) : List Token → List (Span × Token)
  | [] => []
  | t :: ts => (⟨position, position + t.width⟩, t) :: locate (position + t.width) ts

/-- The character that a token spells: a space for every blank. -/
def blankToSpace (c : Char) : Char := if c.isWhitespace then ' ' else c

/-- No run of blanks in a text is too wide to be shown. -/
def Narrow (cs : List Char) : Prop :=
  ∀ ps, ps <:+: cs → (∀ c ∈ ps, c.isWhitespace) → ps.length ≤ maxPadding

def isInteger : Token → Bool
  | integer _ => true
  | _ => false

variable {t : Token} {ts : List Token} {c : Char} {cs ps us rest : List Char} {q : Char → Bool}

/-! ## One token -/

theorem not_isInteger_of_mem_fixed : ∀ t ∈ fixed, ¬ t.isInteger := by decide

theorem staysUnknown_of_mem_fixed (h : t ∈ fixed) : ∀ c ∈ t.chars, staysUnknown c := by
  have hall : ∀ t ∈ fixed, t.chars.all staysUnknown := by decide +kernel
  exact List.all_eq_true.mp (hall t h)

theorem plain_of_mem_fixed (h : t ∈ fixed) :
    ∀ c ∈ t.chars, c.isWhitespace = false ∧ c.isDigit = false := by
  intro c hc
  exact (staysUnknown_eq_true_iff.mp (staysUnknown_of_mem_fixed h c hc)).1

theorem covers_of_mem_fixed {text : List Char} {s : Span} (h : t ∈ fixed)
    (hs : s.slice text = t.chars) : t.Covers text s := by
  cases t with
  | blank | integer | unknown => simp [fixed, Operator.all] at h
  | _ => exact hs

/-- A run of characters that reaches the end of the first text does not go on in the second. -/
def Breaks (q : Char → Bool) (us vs : List Char) : Prop :=
  ∀ c ∈ us.getLast?, q c → ∀ d ∈ vs.head?, q d = false

theorem breaks_append_left (hne : ps ≠ []) : Breaks q (us ++ ps) rest ↔ Breaks q ps rest := by
  rw [Breaks, List.getLast?_append_of_ne_nil us hne, Breaks]

theorem breaks_append_right (hne : ps ≠ []) : Breaks q us (ps ++ rest) ↔ Breaks q us ps := by
  rw [Breaks, List.head?_append_of_ne_nil ps hne, Breaks]

theorem Breaks.before (h : Breaks q us ps) (hne : ps ≠ []) (hps : ∀ c ∈ ps, q c) :
    ∀ c ∈ us.getLast?, q c = false := by
  intro c hc
  rw [Bool.eq_false_iff]
  intro hq
  obtain ⟨d, ps, rfl⟩ := List.exists_cons_of_ne_nil hne
  exact absurd (hps d List.mem_cons_self) (Bool.eq_false_iff.mp (h c hc hq d rfl))

theorem narrow_of_length_le (h : cs.length ≤ maxPadding) : Narrow cs :=
  fun _ hps _ => hps.length_le.trans h

theorem narrow_of_not_isWhitespace (h : ∀ c ∈ cs, c.isWhitespace = false) : Narrow cs := by
  intro ps hps hblank
  obtain rfl : ps = [] := by
    refine List.eq_nil_iff_forall_not_mem.mpr fun c hc => ?_
    exact absurd (hblank c hc) (Bool.eq_false_iff.mp (h c (hps.subset hc)))
  exact Nat.zero_le _

theorem narrow_iff_of_isWhitespace (h : ∀ c ∈ cs, c.isWhitespace) :
    Narrow cs ↔ cs.length ≤ maxPadding :=
  ⟨fun hcs => hcs cs List.infix_rfl h, narrow_of_length_le⟩

theorem Narrow.of_isInfix (h : Narrow cs) (hps : ps <:+: cs) : Narrow ps :=
  fun qs hqs hblank => h qs (hqs.trans hps) hblank

theorem narrow_append (h : Breaks Char.isWhitespace us rest) :
    Narrow (us ++ rest) ↔ Narrow us ∧ Narrow rest := by
  constructor
  · intro hn
    exact ⟨hn.of_isInfix List.infix_append_left, hn.of_isInfix List.infix_append_right⟩
  · rintro ⟨hus, hrest⟩ ps hps hblank
    rcases List.infix_append_iff.mp hps with hps | hps | ⟨qs, rs, rfl, hqs, hrs⟩
    · exact hus ps hps hblank
    · exact hrest ps hps hblank
    · rw [List.forall_mem_append] at hblank
      cases qs using List.reverseRecOn with
      | nil => exact hrest rs hrs.isInfix hblank.2
      | append_singleton qs c =>
        cases rs with
        | nil =>
          rw [List.append_nil]
          exact hus _ hqs.isInfix hblank.1
        | cons d rs =>
          -- a run over the border would have blanks on both sides of it
          obtain ⟨us, rfl⟩ := hqs
          obtain ⟨vs, rfl⟩ := hrs
          have hd := h c (by simp) (hblank.1 c (by simp)) d (by simp)
          rw [hblank.2 d List.mem_cons_self] at hd
          cases hd

namespace StandsFor

theorem ne_nil (h : StandsFor t ps rest) : ps ≠ [] := by
  cases h with
  | blank hne => exact hne
  | integer hne => exact hne
  | fixed hmem =>
    apply List.ne_nil_of_length_pos
    rcases length_chars_of_mem_fixed t hmem with h | h <;> omega
  | unknown h => exact h.ne_nil

theorem width_eq (h : StandsFor t ps rest) : t.width = ps.length := by
  cases h with
  | fixed => exact t.width_eq
  | _ => rfl

/-- Blanks stand in blank tokens and digits in numerals. -/
theorem classes_eq (h : StandsFor t ps rest) :
    ∀ c ∈ ps, c.isWhitespace = t.isBlank ∧ c.isDigit = t.isInteger := by
  intro c hc
  cases h with
  | blank _ hps => exact ⟨hps c hc, not_isDigit_of_isWhitespace (hps c hc)⟩
  | integer _ hps =>
    have hdigit := hps c hc
    have hw : ¬ c.isWhitespace := fun hw => by simp [not_isDigit_of_isWhitespace hw] at hdigit
    exact ⟨Bool.eq_false_iff.mpr hw, hdigit⟩
  | fixed hmem =>
    rw [Bool.eq_false_iff.mpr (not_isBlank_of_mem_fixed t hmem),
      Bool.eq_false_iff.mpr (not_isInteger_of_mem_fixed t hmem)]
    exact plain_of_mem_fixed hmem c hc
  | unknown hu => exact hu.plain c hc

theorem chars_eq (h : StandsFor t ps rest) : t.chars = ps.map blankToSpace := by
  cases hblank : t.isBlank with
  | false =>
    have hps : ∀ c ∈ ps, blankToSpace c = c := by
      intro c hc
      rw [blankToSpace, (h.classes_eq c hc).1, hblank, if_neg Bool.false_ne_true]
    rw [List.map_congr_left hps, List.map_id']
    cases h with
    | blank => cases hblank
    | _ => rfl
  | true =>
    have hps : ∀ c ∈ ps, blankToSpace c = ' ' := by
      intro c hc
      rw [blankToSpace, (h.classes_eq c hc).1, hblank, if_pos rfl]
    rw [List.map_congr_left hps, List.map_const']
    cases h with
    | blank => rfl
    | fixed hmem => exact absurd hblank (not_isBlank_of_mem_fixed t hmem)
    | _ => cases hblank

theorem breaks (h : StandsFor t ps rest) :
    Breaks Char.isWhitespace ps rest ∧ Breaks Char.isDigit ps rest := by
  constructor
  · intro c hc hw
    rw [(h.classes_eq c (List.mem_of_getLast? hc)).1] at hw
    cases h with
    | blank _ _ hrest => exact hrest
    | fixed hmem => exact absurd hw (not_isBlank_of_mem_fixed t hmem)
    | _ => cases hw
  · intro c hc hd
    rw [(h.classes_eq c (List.mem_of_getLast? hc)).2] at hd
    cases h with
    | integer _ _ hrest => exact hrest
    | fixed hmem => exact absurd hd (not_isInteger_of_mem_fixed t hmem)
    | _ => cases hd

theorem isShowable_iff (h : StandsFor t ps rest) : t.isShowable ↔ Narrow ps := by
  cases hblank : t.isBlank with
  | false =>
    have hps : Narrow ps :=
      narrow_of_not_isWhitespace fun c hc => (h.classes_eq c hc).1.trans hblank
    cases t with
    | blank n => cases hblank
    | _ => simp [isShowable, hps]
  | true =>
    rw [narrow_iff_of_isWhitespace fun c hc => (h.classes_eq c hc).1.trans hblank, ← h.width_eq]
    cases t with
    | blank n => simp [isShowable, width]
    | _ => cases hblank

/-- A token stands for the same piece when less text is behind it. -/
theorem of_isPrefix {rest' : List Char} (h : StandsFor t ps rest) (hrest : rest' <+: rest) :
    StandsFor t ps rest' := by
  have hhead : ∀ c ∈ rest'.head?, c ∈ rest.head? := by
    obtain ⟨vs, rfl⟩ := hrest
    cases rest' with
    | nil => simp
    | cons d ds => exact fun c hc => hc
  cases h with
  | blank hne hps hr => exact .blank hne hps fun c hc => hr c (hhead c hc)
  | integer hne hps hr => exact .integer hne hps fun c hc => hr c (hhead c hc)
  | fixed hmem => exact .fixed hmem
  | unknown hu hr => exact .unknown hu fun c hc => hr c (hhead c hc)

theorem covers (h : StandsFor t ps rest) (hw : Breaks Char.isWhitespace us ps)
    (hd : Breaks Char.isDigit us ps) :
    t.Covers (us ++ (ps ++ rest)) ⟨us.length, us.length + t.width⟩ := by
  have hslice := Span.slice_append us ps rest
  rw [h.width_eq]
  cases h with
  | blank hne hps hrest =>
    refine ⟨Span.isRun_append hne hps (hw.before hne hps) hrest, ?_⟩
    rw [hslice]
  | integer hne hps hrest =>
    exact ⟨Span.isRun_append hne hps (hd.before hne hps) hrest, hslice⟩
  | fixed hmem => exact covers_of_mem_fixed hmem hslice
  | unknown hu hrest =>
    refine ⟨hslice, hu, ?_⟩
    intro c hc
    rw [Span.getElem?_behind] at hc
    have hstays := hrest c hc
    simp only [staysUnknown, Bool.not_eq_false', Bool.or_eq_true] at hstays
    tauto

end StandsFor

/-! ## All tokens -/

/-- A text is cut into the pieces that its tokens stand for. -/
inductive Cuts : List Token → List Char → Prop where
  | nil : Cuts [] []
  | cons {t : Token} {ts : List Token} {ps rest : List Char} :
    StandsFor t ps rest → Cuts ts rest → Cuts (t :: ts) (ps ++ rest)

theorem cuts_run (cs : List Char) : Cuts (splitter.run cs) cs := by
  induction cs using splitter.cut_induction with
  | nil =>
    rw [Splitter.run_nil]
    exact .nil
  | cons c cs ih =>
    obtain ⟨ps, hsplit, hread⟩ := standsFor_read c cs
    rw [Splitter.run_cons, hsplit]
    exact .cons hread ih

/-- Every token of a text that goes on from `us` covers its own piece. -/
theorem Cuts.covers (h : Cuts ts cs) (us : List Char) (hw : Breaks Char.isWhitespace us cs)
    (hd : Breaks Char.isDigit us cs) :
    ∀ s t, (s, t) ∈ locate us.length ts → t.Covers (us ++ cs) s := by
  induction h generalizing us with
  | nil => simp [locate]
  | @cons t ts ps rest ht hts ih =>
    intro s u hu
    rw [locate, List.mem_cons] at hu
    rcases hu with hu | hu
    · cases hu
      rw [breaks_append_right ht.ne_nil] at hw hd
      exact ht.covers hw hd
    · rw [ht.width_eq, ← List.length_append] at hu
      rw [← List.append_assoc]
      apply ih (us ++ ps)
      · exact (breaks_append_left ht.ne_nil).mpr ht.breaks.1
      · exact (breaks_append_left ht.ne_nil).mpr ht.breaks.2
      · exact hu

theorem covers_run (cs : List Char) :
    ∀ s t, (s, t) ∈ locate 0 (splitter.run cs) → t.Covers cs s := by
  have hnil (q : Char → Bool) : Breaks q [] cs := by simp [Breaks]
  exact (cuts_run cs).covers [] (hnil _) (hnil _)

theorem rdropWhile_eq_self (h : ∀ c ∈ us.getLast?, q c = false) : us.rdropWhile q = us := by
  rw [List.rdropWhile_eq_self_iff]
  intro hne
  rw [h _ (List.getLast_mem_getLast? hne)]
  exact Bool.false_ne_true

theorem rdropWhile_append (h : (∀ c ∈ rest, q c) → ∀ c ∈ us.getLast?, q c = false) :
    (us ++ rest).rdropWhile q = us ++ rest.rdropWhile q := by
  induction rest using List.reverseRecOn with
  | nil => simpa using rdropWhile_eq_self (h (by simp))
  | append_singleton rest d ih =>
    rw [← List.append_assoc]
    by_cases hd : q d
    · rw [List.rdropWhile_concat_pos q _ d hd, List.rdropWhile_concat_pos q _ d hd]
      apply ih
      intro hrest
      exact h (by simpa [or_imp, forall_and, hd] using hrest)
    · rw [List.rdropWhile_concat_neg q _ d hd, List.rdropWhile_concat_neg q _ d hd,
        List.append_assoc]

end Token

theorem trimBlank_cons_cons (t u : Token) (ts : List Token) :
    trimBlank (t :: u :: ts) = t :: trimBlank (u :: ts) := by
  rw [trimBlank, trimBlank, List.getLast?_cons_cons, List.dropLast_cons_cons]
  split <;> rfl

namespace Token

theorem Cuts.spell_eq (h : Cuts ts cs) : spell ts = cs.map blankToSpace := by
  induction h with
  | nil => rfl
  | cons ht _ ih => rw [spell_cons, ih, ht.chars_eq, List.map_append]

theorem Cuts.showable_iff (h : Cuts ts cs) : Showable ts ↔ Narrow cs := by
  induction h with
  | nil => simp [narrow_of_length_le]
  | cons ht _ ih => rw [showable_cons, narrow_append ht.breaks.1, ht.isShowable_iff, ih]

/-- The tokens without a blank at the end cut the text without the blanks at its end. -/
theorem Cuts.trimmed (h : Cuts ts cs) :
    Cuts (trimBlank ts) (cs.rdropWhile Char.isWhitespace) := by
  induction h with
  | nil => exact .nil
  | @cons t ts ps rest ht hts ih =>
    cases hts with
    | nil =>
      rw [List.append_nil]
      have hps : ∀ c ∈ ps, c.isWhitespace = t.isBlank := fun c hc => (ht.classes_eq c hc).1
      cases hblank : t.isBlank with
      | false =>
        rw [hblank] at hps
        rw [rdropWhile_eq_self fun c hc => hps c (List.mem_of_getLast? hc)]
        simpa [trimBlank, hblank] using Cuts.cons ht .nil
      | true =>
        rw [hblank] at hps
        rw [List.rdropWhile_eq_nil_iff.mpr hps]
        simpa [trimBlank, hblank] using Cuts.nil
    | @cons u us qs rest hu hus =>
      -- the text behind is not empty, so a run of blanks at the end does not reach the piece here
      have hne : qs ++ rest ≠ [] := fun hnil => hu.ne_nil (List.append_eq_nil_iff.mp hnil).1
      rw [trimBlank_cons_cons, rdropWhile_append (ht.breaks.1.before hne)]
      exact .cons (ht.of_isPrefix (List.rdropWhile_prefix _ _)) ih

/-- Tokens give the text back up to its last character that is no blank. -/
theorem Cuts.spell_trimBlank (h : Cuts ts cs) :
    spell (trimBlank ts) = (cs.rdropWhile Char.isWhitespace).map blankToSpace :=
  h.trimmed.spell_eq

theorem locate_append (position : Nat) (ts us : List Token) : locate position (ts ++ us) =
    locate position ts ++ locate (position + (spell ts).length) us := by
  induction ts generalizing position with
  | nil => rfl
  | cons t ts ih => simp [locate, ih, width_eq, Nat.add_assoc]

end Token

theorem showable_lex_iff (source : String) :
    Token.Showable (lex source) ↔ Token.Narrow (source.toList.rdropWhile Char.isWhitespace) :=
  (Token.cuts_run source.toList).trimmed.showable_iff

theorem spell_lex (source : String) : Token.spell (lex source) =
    (source.toList.rdropWhile Char.isWhitespace).map Token.blankToSpace :=
  (Token.cuts_run source.toList).spell_trimBlank

/-- Blanks are not dropped if another character comes after them. -/
theorem not_narrow_of_replicate (us vs : List Char) {cs : List Char} {b c : Char} {n : Nat}
    (hcs : cs = us ++ (List.replicate n b ++ vs) ++ [c]) (hb : b.isWhitespace)
    (hc : c.isWhitespace = false) (hn : Token.maxPadding < n) :
    ¬ Token.Narrow (cs.rdropWhile Char.isWhitespace) := by
  intro h
  rw [hcs, List.rdropWhile_concat_neg _ _ _ (by simp [hc])] at h
  have hinfix := (List.infix_append' us (List.replicate n b) vs).trans
    (List.prefix_append _ [c]).isInfix
  have hle := h _ hinfix fun d hd => by rwa [List.eq_of_mem_replicate hd]
  rw [List.length_replicate] at hle
  exact absurd hle (Nat.not_le_of_lt hn)

theorem spell?_lex_of_not_narrow {source : String}
    (h : ¬ Token.Narrow (source.toList.rdropWhile Char.isWhitespace)) :
    Token.spell? (lex source) = none := by
  rw [Token.spell?_eq, if_neg (mt (showable_lex_iff source).mp h)]

/-- The tokens of a text spell it with a space for each blank, but for the blanks at its end. Cut
where the tokens end, the text falls into pieces that are what the tokens say. The spelling cannot
be shown if it has a run of blanks that is too wide. -/
theorem lex_segments (source : String) :
    (∀ cs, Token.spell? (lex source) = some cs ↔
      Token.Narrow (source.toList.rdropWhile Char.isWhitespace) ∧
        (source.toList.rdropWhile Char.isWhitespace).map Token.blankToSpace = cs) ∧
    ∀ s t, (s, t) ∈ Token.locate 0 (lex source) → t.Covers source.toList s := by
  constructor
  · intro cs
    rw [Token.spell?_eq_some_iff, showable_lex_iff, spell_lex]
  · intro s t ht
    apply Token.covers_run
    rcases trimBlank_cases (Token.splitter.run source.toList) with h | ⟨n, h⟩
    · rwa [lex, lexChars, h] at ht
    · rw [← h, Token.locate_append]
      exact List.mem_append_left _ ht

/-- Nothing sets a sign off from unknown text, but a letter does. -/
theorem lex_segments_of_unknown :
    Token.spell? (lex "\té=+a 07\n ") = some [' ', 'é', '=', '+', 'a', ' ', '0', '7'] ∧
    Token.Covers "\té=+a 07\n ".toList ⟨1, 4⟩ (.unknown ['é', '=', '+']) ∧
    Token.Covers "\té=+a 07\n ".toList ⟨6, 8⟩ (.integer ['0', '7']) := by
  obtain ⟨hspell, hcovers⟩ := lex_segments "\té=+a 07\n "
  have hlex : Token.locate 0 (lex "\té=+a 07\n ") = [(⟨0, 1⟩, .blank 1),
      (⟨1, 4⟩, .unknown ['é', '=', '+']), (⟨4, 5⟩, .unknown ['a']), (⟨5, 6⟩, .blank 1),
      (⟨6, 8⟩, .integer ['0', '7'])] := by
    decide +kernel
  rw [hlex] at hcovers
  refine ⟨(hspell _).mpr ⟨?_, ?_⟩, hcovers _ _ (by simp), hcovers _ _ (by simp)⟩
  · exact Token.narrow_of_length_le (by decide +kernel)
  · decide +kernel

/-- A text with a wide run of spaces in it has tokens, but they have no spelling that is shown. -/
theorem spelling_crashes_at_wide_run :
    Token.spell? (lex (String.ofList ('1' :: (List.replicate 65536 ' ' ++ ['2'])))) = none := by
  refine spell?_lex_of_not_narrow (not_narrow_of_replicate ['1'] [] (b := ' ') (c := '2')
    (n := 65536) ?_ rfl rfl (by decide))
  simp only [String.toList_ofList, List.append_nil, List.cons_append, List.nil_append]

end ByteCalc
