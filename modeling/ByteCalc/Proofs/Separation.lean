import ByteCalc.Proofs.Segmentation
import ByteCalc.Proofs.ViablePrefix

/-! # Texts on both sides of a semicolon

A semicolon ends whatever token comes before it and whatever statement can end
there. So if the text before it is a program, then the text after it is read as
if it stood alone, and everything in it lies further to the right.
-/

namespace ByteCalc

theorem Token.extent_run (cs : List Char) : extent (splitter.run cs) = cs.length := by
  induction cs using splitter.cut_induction with
  | nil =>
    rw [Splitter.run_nil]
    rfl
  | cons c cs ih =>
    rw [Splitter.run_cons, ← List.singleton_append, extent_append, extent_singleton, ih]
    exact width_read c cs

namespace Parser

variable {p p' : Parser} {ts : List Token} {q : Program}

/-! ## Moving to the right -/

/-- The parser `k` characters further to the right, with the statements `ss` before its own. -/
def shift (k : Nat) (ss : List Statement) : Parser → Parser :=
  relocate (· + k) (·.shift k) ss

theorem feed_shift (k : Nat) (ss : List Statement) (p : Parser) (t : Token) :
    (p.shift k ss).feed t = Fault.mapResult (·.shift k) (shift k ss) (p.feed t) := by
  have hahead : (p.shift k ss).ahead t = (p.ahead t).shift k := by
    simp only [ahead, shift, relocate, Span.shift, Nat.add_right_comm]
  have hpast : (p.shift k ss).past t = (p.past t).shift k ss := by
    simp only [past, shift, relocate, Nat.add_right_comm]
  rw [feed_eq_feedAt, hahead, hpast]
  exact feedAt_relocate (Span.shift_cover k) _ ss _ _ t

theorem feedAll_shift (k : Nat) (ss : List Statement) (ts : List Token) (p : Parser) :
    (p.shift k ss).feedAll ts =
      (p.feedAll ts).map (Fault.mapResult (·.shift k) (shift k ss)) := by
  induction ts generalizing p with
  | nil => rfl
  | cons t ts ih =>
    cases ht : t.isShowable with
    | false =>
      rw [feedAll_cons_of_not_isShowable ht, feedAll_cons_of_not_isShowable ht]
      rfl
    | true =>
      have hshift := feed_shift k ss p t
      cases hf : p.feed t with
      | error f =>
        rw [hf] at hshift
        rw [feedAll_cons_of_error ht hshift, feedAll_cons_of_error ht hf]
        rfl
      | ok q =>
        rw [hf] at hshift
        rw [feedAll_cons_of_ok ht hshift, feedAll_cons_of_ok ht hf, ih]

theorem finish_shift (k : Nat) (ss : List Statement) (p : Parser) :
    (p.shift k ss).finish =
      Fault.mapResult (·.shift k) (fun q => ⟨ss.reverse ++ (q.shift k).statements⟩) p.finish :=
  finishAt_relocate (Span.shift_cover k) (· + k) ss p ⟨p.position, p.position⟩

/-! ## Ends of programs -/

/-- Where a program may end, the next statement may begin after a semicolon. -/
theorem feed_semicolon_of_finish (h : p.finish = .ok q) :
    p.feed .semicolon = .ok (start.shift (p.position + 1) q.statements.reverse) := by
  rcases finish_eq_ok_iff.mp h with ⟨hp, rfl⟩ | ⟨fs, e, e', hp, hc, rfl⟩
  · rw [feed_between hp rfl, if_pos rfl]
    simp [past, shift, relocate, start, Phase.mapSpan, hp, Token.width, Token.chars]
  · rw [feed_operator hp rfl, feedOperator_of_nil hc (by simp), if_pos rfl]
    simp [past, shift, relocate, start, Phase.mapSpan, addStatement, Token.width, Token.chars]

theorem feed_unknown_ne_ok (us : List Char) : p.feed (.unknown us) ≠ .ok p' := by
  intro h
  cases takes_of_feed h

theorem unknown_not_mem_of_foldlM (h : ts.foldlM feed p = .ok p') (us : List Char) :
    .unknown us ∉ ts := by
  induction ts generalizing p with
  | nil => simp
  | cons t ts ih =>
    obtain ⟨p₁, ht, h⟩ := foldlM_cons_eq_ok_iff.mp h
    rw [List.mem_cons, not_or]
    refine ⟨?_, ih h⟩
    rintro rfl
    exact feed_unknown_ne_ok us ht

end Parser

/-! ## Tokens on both sides -/

variable {ts : List Token} {p : Program}

/-- The tokens after a semicolon are parsed as if they stood alone. -/
theorem parseTokens_semicolon (h : parseTokens ts = some (.ok p)) (us : List Token) :
    parseTokens (ts ++ .semicolon :: us) = (parseTokens us).map
      (Fault.mapResult (·.shift (Token.extent ts + 1))
        fun q => ⟨p.statements ++ (q.shift (Token.extent ts + 1)).statements⟩) := by
  obtain ⟨hshow, h⟩ := parseTokens_eq_ok_iff.mp h
  obtain ⟨p₁, hts, hfinish⟩ := Fault.bind_eq_ok_iff.mp h
  have hposition : p₁.position = Token.extent ts := by
    rw [Parser.position_foldlM hts, Parser.start, Nat.zero_add]
  have hsemicolon := Parser.feed_semicolon_of_finish hfinish
  rw [hposition] at hsemicolon
  rw [parseTokens, Parser.feedAll_append_of_ok (Parser.feedAll_eq_ok_iff.mpr ⟨hshow, hts⟩),
    Parser.feedAll_cons_of_ok rfl hsemicolon, Parser.feedAll_shift, parseTokens, Option.map_map,
    Option.map_map]
  refine congrArg (Option.map · _) (funext fun result => ?_)
  refine Fault.mapResult_bind (fun p₂ => ?_) result
  rw [Parser.finish_shift, List.reverse_reverse]

/-- A blank at the end of a program makes no difference. -/
theorem readTokens_of_trimBlank (h : readTokens (trimBlank ts) = .ok p) :
    readTokens ts = .ok p := by
  rcases trimBlank_cases ts with hts | ⟨n, hts⟩
  · rwa [hts] at h
  · obtain ⟨p₁, hfold, hfinish⟩ := Fault.bind_eq_ok_iff.mp h
    rw [← hts, readTokens_of_foldlM hfold]
    exact Parser.finish_eq_ok_iff.mpr (Parser.finish_eq_ok_iff (p := p₁).mp hfinish)

theorem readTokens_of_parse {source : String} (h : parse source = some (.ok p)) :
    readTokens (Token.splitter.run source.toList) = .ok p :=
  readTokens_of_trimBlank (parseTokens_eq_ok_iff.mp h).2

theorem unknown_not_mem_of_readTokens (h : readTokens ts = .ok p) (us : List Char) :
    .unknown us ∉ ts := by
  obtain ⟨p₁, hfold, -⟩ := Fault.bind_eq_ok_iff.mp h
  exact Parser.unknown_not_mem_of_foldlM hfold us

/-! ## Texts on both sides -/

theorem lex_semicolon {a : String} (h : ∀ us, .unknown us ∉ Token.splitter.run a.toList)
    (b : String) : lex (a ++ ";" ++ b) = Token.splitter.run a.toList ++ .semicolon :: lex b := by
  have hchars : (a ++ ";" ++ b).toList = a.toList ++ (Token.semicolon.chars ++ b.toList) := by
    simp [Token.chars]
  have hhead : ∀ d ∈ (Token.semicolon.chars ++ b.toList).head?,
      d.isWhitespace = false ∧ d.isDigit = false := by
    rintro d ⟨⟩
    decide
  rw [lex, lexChars, hchars, Token.run_append h hhead, Token.run_fixed_append (by decide),
    trimBlank_append_cons rfl]
  rfl

/-- A program, a semicolon and some text are read as the program followed by what the text alone
is read as, moved to its place behind the semicolon. This holds of programs and of faults. The
blanks before the semicolon must not be too wide to be shown. -/
theorem parse_semicolon {a : String} (ha : Token.Narrow a.toList) (h : parse a = some (.ok p))
    (b : String) :
    (∀ q, parse b = some (.ok q) →
      parse (a ++ ";" ++ b) = some (.ok ⟨p.statements ++ (q.shift (a.length + 1)).statements⟩)) ∧
    ∀ f, parse b = some (.error f) → ∃ f', parse (a ++ ";" ++ b) = some (.error f') ∧
      f'.diagnostic = f.diagnostic.shift (a.length + 1) := by
  have hread := readTokens_of_parse h
  have hrun := parseTokens_eq_ok_iff.mpr ⟨(Token.cuts_run a.toList).showable_iff.mpr ha, hread⟩
  have hparse := parseTokens_semicolon hrun (lex b)
  rw [← lex_semicolon (unknown_not_mem_of_readTokens hread), Token.extent_run,
    String.length_toList] at hparse
  constructor
  · intro q hq
    exact hparse.trans (congrArg _ hq)
  · intro f hf
    refine ⟨_, hparse.trans (congrArg _ hf), ?_⟩
    obtain ⟨s, rfl | ⟨what, rfl⟩⟩ := fault_of_parseTokens hf <;> rfl

/-- What stands behind `1+2 ;` lies five characters further to the right. -/
theorem parse_semicolon_after_sum :
    parse "1+2 " = some (.ok ⟨[.ofExpr (.binary ⟨0, 3⟩ .plus (.literal ⟨0, 1⟩ 1)
      (.literal ⟨2, 3⟩ 2))]⟩) ∧
    parse "3" = some (.ok ⟨[.ofExpr (.literal ⟨0, 1⟩ 3)]⟩) ∧
    parse "(3" = some (.error (.expected .closeParen ⟨2, 2⟩)) ∧
    parse ("1+2 " ++ ";" ++ "3") = some (.ok ⟨[.ofExpr (.binary ⟨0, 3⟩ .plus (.literal ⟨0, 1⟩ 1)
      (.literal ⟨2, 3⟩ 2)), .ofExpr (.literal ⟨5, 6⟩ 3)]⟩) ∧
    ∃ f, parse ("1+2 " ++ ";" ++ "(3") = some (.error f) ∧
      f.diagnostic = (Fault.expected .closeParen ⟨7, 7⟩).diagnostic := by
  have hsum : lex "1+2 " = [.integer ['1'], .operator .plus, .integer ['2']] := by
    decide +kernel
  have hthree : lex "3" = [.integer ['3']] := by decide +kernel
  have hopen : lex "(3" = [.openParen, .integer ['3']] := by decide +kernel
  have hp : parse "1+2 " = some (.ok ⟨[.ofExpr (.binary ⟨0, 3⟩ .plus (.literal ⟨0, 1⟩ 1)
      (.literal ⟨2, 3⟩ 2))]⟩) := by
    rw [parse, hsum]
    rfl
  have hq : parse "3" = some (.ok ⟨[.ofExpr (.literal ⟨0, 1⟩ 3)]⟩) := by
    rw [parse, hthree]
    rfl
  have hf : parse "(3" = some (.error (.expected .closeParen ⟨2, 2⟩)) := by
    rw [parse, hopen]
    rfl
  have hnarrow : Token.Narrow "1+2 ".toList := Token.narrow_of_length_le (by decide +kernel)
  exact ⟨hp, hq, hf, (parse_semicolon hnarrow hp "3").1 _ hq,
    (parse_semicolon hnarrow hp "(3").2 _ hf⟩

end ByteCalc
