import Mathlib.Data.List.Forall2
import ByteCalc.Proofs.Rendering
import ByteCalc.Proofs.SpanErasure

/-! # Blanks

Blanks of one kind are as good as those of another, and blanks at the end of a
text are as good as none. The parser passes over the rest of them, so they have
no effect on a program or on a fault but for the spans.
-/

namespace ByteCalc

namespace Token

variable {t : Token} {ts : List Token} {c d : Char} {cs ds ps rest : List Char} {q : Char → Bool}

/-! ## Kinds of blanks -/

end Token

open Token

theorem Fault.erase_eq {f g : Fault} (h : f.erase = g.erase) :
    f.category = g.category ∧ f.note = g.note := by
  have hcategory (f : Fault) : f.erase.category = f.category := by cases f <;> rfl
  have hnote (f : Fault) : f.erase.note = f.note := by cases f <;> rfl
  rw [← hcategory, ← hnote, h]
  exact ⟨hcategory g, hnote g⟩

theorem Parser.eraseResult_eq_cases {x y : Except Fault Program}
    (h : eraseResult Program.erase x = eraseResult Program.erase y) :
    (∃ p q, x = .ok p ∧ y = .ok q ∧ p.erase = q.erase) ∨
      ∃ f g, x = .error f ∧ y = .error g ∧ f.erase = g.erase := by
  cases x with
  | ok p =>
    cases y with
    | ok q => exact .inl ⟨p, q, rfl, rfl, Except.ok.inj h⟩
    | error g => cases h
  | error f =>
    cases y with
    | ok q => cases h
    | error g => exact .inr ⟨f, g, rfl, rfl, Except.error.inj h⟩

/-- Tokens are a program just if they are one without the blanks among them, and it is the same
program up to spans. Otherwise the faults are the same up to spans. -/
theorem parseTokens_ignores_blanks {ts : List Token} (hts : Showable ts) :
    (∃ r r', parseTokens ts = some r ∧ parseTokens (ts.filter (!·.isBlank)) = some r') ∧
    ((∃ p, parseTokens ts = some (.ok p)) ↔
      ∃ q, parseTokens (ts.filter (!·.isBlank)) = some (.ok q)) ∧
    (∀ p q, parseTokens ts = some (.ok p) → parseTokens (ts.filter (!·.isBlank)) = some (.ok q) →
      p.erase = q.erase) ∧
    ∀ f g, parseTokens ts = some (.error f) →
      parseTokens (ts.filter (!·.isBlank)) = some (.error g) →
      f.category = g.category ∧ f.note = g.note := by
  have hfilter : Showable (ts.filter (!·.isBlank)) :=
    fun n hn => hts n (List.mem_of_mem_filter hn)
  rw [parseTokens_of_showable hts, parseTokens_of_showable hfilter]
  refine ⟨⟨_, _, rfl, rfl⟩, ?_⟩
  rcases Parser.eraseResult_eq_cases (readTokens_filter ts) with
    ⟨p, q, hp, hq, h⟩ | ⟨f, g, hf, hg, h⟩
  · rw [hp, hq]
    simpa using h
  · rw [hf, hg]
    simpa using Fault.erase_eq h

/-- Blanks on both sides of a program and next to each other, and before a token that must not
stand there. -/
theorem parseTokens_ignores_blanks_in_a_row :
    (∃ p q, parseTokens [.blank 3, .integer ['1'], .blank 1, .blank 2, .operator .plus,
        .integer ['2'], .blank 1] = some (.ok p) ∧
      parseTokens [.integer ['1'], .operator .plus, .integer ['2']] = some (.ok q) ∧ p ≠ q ∧
      p.erase = q.erase) ∧
    ∃ f g, parseTokens [.openParen, .blank 2, .integer ['1'], .blank 4, .semicolon] =
        some (.error f) ∧
      parseTokens [.openParen, .integer ['1'], .semicolon] = some (.error g) ∧ f ≠ g ∧
      f.category = g.category ∧ f.note = g.note := by
  constructor
  · have hts : Showable [.blank 3, .integer ['1'], .blank 1, .blank 2, .operator .plus,
        .integer ['2'], .blank 1] := by decide
    obtain ⟨-, -, hok, -⟩ := parseTokens_ignores_blanks hts
    exact ⟨_, _, rfl, rfl, by decide, hok _ _ rfl rfl⟩
  · have hts : Showable [.openParen, .blank 2, .integer ['1'], .blank 4, .semicolon] := by
      decide
    obtain ⟨-, -, -, herror⟩ := parseTokens_ignores_blanks hts
    exact ⟨_, _, rfl, rfl, by decide, herror _ _ rfl rfl⟩

end ByteCalc
