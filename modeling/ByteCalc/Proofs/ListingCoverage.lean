import Mathlib.Data.List.Basic
import Mathlib.Data.String.Defs
import ByteCalc.Proofs.Disassembly
import ByteCalc.Proofs.Safety

/-! # Listings cover the code

Every line of a listing stands for a piece of the code, and the pieces follow
one another without a gap. A piece is a whole instruction, or a byte that stands
for no opcode, or an opcode whose operands are cut off by the end of the code.
Code of whole instructions is listed as these instructions, so it is the code
of no others.
-/

namespace ByteCalc

theorem Diagnostic.text_of_nowhere (c : Category) (note : String) (h : note ≠ "") :
    (⟨c, .nowhere, note⟩ : Diagnostic).text = c.text ++ "; " ++ note := by
  simp [text, spanText, noteText, h, String.append_assoc]

namespace Entry

/-- An entry, the piece of code that it stands for, and the code behind the piece. -/
inductive StandsFor : Entry → List UInt8 → List UInt8 → Prop where
  | instruction {op : Opcode} {operands : List Nat} {piece rest : List UInt8} :
    op.encode operands = .ok piece → StandsFor (.instruction op operands) piece rest
  | undefined {byte : UInt8} {rest : List UInt8} :
    (∀ op : Opcode, op.byte ≠ byte) → StandsFor (.undefined byte) [byte] rest
  | truncated {bytes : List UInt8} : bytes.length < 2 →
    StandsFor (.truncated .constant bytes.length) (Opcode.constant.byte :: bytes) []

/-- What a line says about its entry. -/
def words : Entry → String
  | instruction op operands => " ".intercalate (op.name :: operands.map toString)
  | undefined byte => "ERROR: " ++ "UNDEFINED OPCODE; OPCODE " ++ toString byte.toNat
  | truncated op _ => "ERROR: " ++ "MALFORMED BYTECODE; " ++ op.name ++ " OPERAND TRUNCATED"

variable {e : Entry} {code piece rest : List UInt8}

theorem StandsFor.ne_nil (h : e.StandsFor piece rest) : piece ≠ [] := by
  cases h with
  | instruction he =>
    rcases Opcode.encode_cases he with ⟨k, -, -, -, rfl⟩ | ⟨-, -, rfl⟩
    · exact List.cons_ne_nil _ _
    · exact List.cons_ne_nil _ _
  | undefined => exact List.cons_ne_nil _ _
  | truncated => exact List.cons_ne_nil _ _

/-- What code begins with is a piece of it. -/
theorem Heads.exists_piece (h : e.Heads code rest) :
    ∃ piece, code = piece ++ rest ∧ e.width = piece.length ∧ e.StandsFor piece rest := by
  cases h with
  | @constant k _ hk =>
    refine ⟨Opcode.constant.byte :: BigEndian.encode 2 k, rfl, ?_, ?_⟩
    · rw [List.length_cons, BigEndian.length_encode]
      rfl
    · exact .instruction (Bytecode.encode_constant hk)
  | add => exact ⟨[Opcode.add.byte], rfl, rfl, .instruction Bytecode.encode_add⟩
  | @undefined byte _ hop =>
    refine ⟨[byte], rfl, rfl, .undefined ?_⟩
    rintro op rfl
    simp at hop
  | @truncated bytes hlt =>
    refine ⟨Opcode.constant.byte :: bytes, (List.append_nil _).symm, ?_, .truncated hlt⟩
    rw [width, List.length_cons, Nat.add_comm]

/-! ## What lines say -/

theorem foldl_eq_intercalate (operands : List Nat) (s : String) :
    operands.foldl (fun s n => s ++ " " ++ toString n) s =
      " ".intercalate (s :: operands.map toString) := by
  induction operands generalizing s with
  | nil => rfl
  | cons n operands ih => exact ih _

theorem text_eq_words (e : Entry) : e.text = e.words := by
  cases e with
  | instruction op operands => rw [text, words, foldl_eq_intercalate]
  | undefined byte =>
    have hdiagnostic : (Fault.undefinedOpcode byte).diagnostic.text =
        "UNDEFINED OPCODE" ++ "; " ++ ("OPCODE " ++ toString byte.toNat) :=
      Diagnostic.text_of_nowhere .undefinedOpcode ("OPCODE " ++ _) (by simp)
    apply String.toList_inj.mp
    simp [text, words, hdiagnostic]
  | truncated op n =>
    have hdiagnostic : (Fault.operandTruncated op.name).diagnostic.text =
        "MALFORMED BYTECODE" ++ "; " ++ (op.name ++ " OPERAND TRUNCATED") :=
      Diagnostic.text_of_nowhere .malformedBytecode (_ ++ " OPERAND TRUNCATED") (by simp)
    apply String.toList_inj.mp
    simp [text, words, hdiagnostic]

theorem newline_not_mem_toDigits (n : Nat) : '\n' ∉ Nat.toDigits 10 n := by
  intro h
  have hdigit := Nat.isDigit_of_mem_toDigits (by decide) (by decide) h
  revert hdigit
  decide

theorem newline_not_mem_foldl (operands : List Nat) {s : String} (h : '\n' ∉ s.toList) :
    '\n' ∉ (operands.foldl (fun s n => s ++ " " ++ toString n) s).toList := by
  induction operands generalizing s with
  | nil => exact h
  | cons n operands ih =>
    apply ih
    simp [h, newline_not_mem_toDigits]

theorem newline_not_mem_name (op : Opcode) : '\n' ∉ op.name.toList := by
  cases op <;> simp [Opcode.name, Opcode.layout]

theorem newline_not_mem_words (e : Entry) : '\n' ∉ e.words.toList := by
  cases e with
  | instruction op operands =>
    rw [words, ← foldl_eq_intercalate]
    exact newline_not_mem_foldl operands (newline_not_mem_name op)
  | undefined byte => simp [words, newline_not_mem_toDigits]
  | truncated op n => simp [words, newline_not_mem_name]

end Entry

namespace Line

/-- A line as it is shown: its offset in decimal, with zeros in front up to four digits, and what it
says about its entry. -/
def row (l : Line) : String := String.leftpad 4 '0' (toString l.offset) ++ " " ++ l.entry.words

theorem offsetText_eq (n : Nat) : offsetText n = String.leftpad 4 '0' (toString n) := by
  change _ = String.ofList (List.leftpad 4 '0' (toString n).toList)
  rw [offsetText, List.leftpad, String.ofList_append, String.ofList_toList, String.length_toList]

theorem text_eq_row (l : Line) : l.text = l.row ++ "\n" := by
  rw [text, row, offsetText_eq, Entry.text_eq_words]

theorem newline_not_mem_row (l : Line) : '\n' ∉ l.row.toList := by
  rw [row, ← offsetText_eq]
  simp [offsetText, Entry.newline_not_mem_toDigits, Entry.newline_not_mem_words]

end Line

namespace Listing

variable {ls : List Line} {is js : List (Opcode × List Nat)} {code : List UInt8} {offset : Nat}

theorem toList_foldl_text (ls : List Line) (s : String) :
    (ls.foldl (fun s l => s ++ l.text) s).toList =
      s.toList ++ (ls.map (·.row.toList)).flatMap (· ++ ['\n']) := by
  induction ls generalizing s with
  | nil => simp
  | cons l ls ih =>
    rw [List.foldl_cons, ih, Line.text_eq_row]
    simp

theorem splitOn_flatMap {x : Char} {rows : List (List Char)} (h : ∀ r ∈ rows, x ∉ r) :
    (rows.flatMap (· ++ [x])).splitOn x = rows ++ [[]] := by
  induction rows with
  | nil => rfl
  | cons r rows ih =>
    obtain ⟨hr, hrows⟩ := List.forall_mem_cons.mp h
    have hne : ∀ c ∈ r, (c == x) = false := by
      intro c hc
      rw [beq_eq_false_iff_ne]
      rintro rfl
      exact hr hc
    rw [List.flatMap_cons, List.append_assoc, List.singleton_append, List.splitOn_eq_splitOnP,
      List.splitOnP_append_cons _ _ (by simp), List.splitOnP_eq_singleton hne,
      ← List.splitOn_eq_splitOnP, ih hrows]
    rfl

/-- The lines of the text are the lines of the listing, each with its end. -/
theorem splitOn_text (code : List UInt8) :
    (text code).toList.splitOn '\n' = (lines code).map (·.row.toList) ++ [[]] := by
  rw [text, toList_foldl_text]
  apply splitOn_flatMap
  simp [Line.newline_not_mem_row]

/-! ## Pieces of code -/

/-- Lines that stand for consecutive pieces of code, the first of which begins at `offset`. -/
inductive Tiles : Nat → List Line → List UInt8 → Prop where
  | nil {offset : Nat} : Tiles offset [] []
  | cons {offset : Nat} {e : Entry} {ls : List Line} {piece rest : List UInt8} :
    piece ≠ [] → e.StandsFor piece rest → Tiles (offset + piece.length) ls rest →
      Tiles offset (⟨offset, e⟩ :: ls) (piece ++ rest)

theorem tiles_linesFrom (code : List UInt8) (offset : Nat) :
    Tiles offset (linesFrom offset (entries code)) code := by
  induction code using Entry.splitter.cut_induction generalizing offset with
  | nil =>
    rw [entries_nil]
    exact .nil
  | cons byte bytes ih =>
    obtain ⟨piece, hcode, hwidth, hpiece⟩ := (Entry.heads_read byte bytes).exists_piece
    rw [entries, Splitter.run_cons, linesFrom, hcode]
    refine .cons hpiece.ne_nil hpiece ?_
    rw [← hwidth]
    exact ih _

theorem tiles_lines (code : List UInt8) : Tiles 0 (lines code) code := by
  rw [lines_eq]
  exact tiles_linesFrom code 0

/-! ## Whole instructions -/

/-- Code without errors is made of the instructions that are listed. -/
theorem Tiles.assembles (h : Tiles offset ls code) (hls : ∀ l ∈ ls, ¬ l.IsError) :
    ∃ is, Assembles is code := by
  induction h with
  | nil => exact ⟨[], .nil⟩
  | cons _ hpiece _ ih =>
    obtain ⟨hl, hls⟩ := List.forall_mem_cons.mp hls
    obtain ⟨is, his⟩ := ih hls
    rw [Line.isError_iff, not_not] at hl
    cases hpiece with
    | instruction he => exact ⟨_, .cons he his⟩
    | undefined => cases hl
    | truncated => cases hl

theorem entries_of_assembles (h : Assembles is code) :
    entries code = is.map fun i => .instruction i.1 i.2 := by
  induction h with
  | nil => exact entries_nil
  | @cons _ _ _ rest _ he _ ih =>
    rcases Opcode.encode_cases he with ⟨k, rfl, rfl, hk, rfl⟩ | ⟨rfl, rfl, rfl⟩
    · rw [entries_constant hk, ih, List.map_cons]
    · rw [List.singleton_append, entries_add, ih, List.map_cons]

theorem map_entry_lines_of_assembles (h : Assembles is code) :
    (lines code).map Line.entry = is.map fun i => .instruction i.1 i.2 := by
  rw [lines_eq, map_entry_linesFrom, entries_of_assembles h]

theorem not_isError_of_assembles (h : Assembles is code) : ∀ l ∈ lines code, ¬ l.IsError := by
  intro l hl
  have hentry : l.entry ∈ (lines code).map Line.entry := List.mem_map_of_mem hl
  rw [map_entry_lines_of_assembles h] at hentry
  obtain ⟨i, -, hi⟩ := List.mem_map.mp hentry
  rw [Line.isError_iff, ← hi]
  exact fun hfault => hfault rfl

/-- Instructions are read off their code in one way only. -/
theorem assembles_unique (h : Assembles is code) (h' : Assembles js code) : js = is := by
  have hmap := (map_entry_lines_of_assembles h').symm.trans (map_entry_lines_of_assembles h)
  refine List.map_injective_iff.mpr ?_ hmap
  rintro ⟨op, operands⟩ ⟨op', operands'⟩ heq
  cases heq
  rfl

/-- The lines of the text stand for consecutive pieces that make up the code. None of them is an
error just if the code consists of whole instructions, and then these are the ones that are listed,
and no others have the same code. -/
theorem lines_cover_code (code : List UInt8) :
    Tiles 0 (lines code) code ∧
    (text code).toList.splitOn '\n' = (lines code).map (·.row.toList) ++ [[]] ∧
    ((∀ l ∈ lines code, ¬ l.IsError) ↔ ∃ is, Assembles is code) ∧
    ∀ is, Assembles is code →
      (lines code).map Line.entry = is.map (fun i => .instruction i.1 i.2) ∧
      ∀ js, Assembles js code → js = is := by
  refine ⟨tiles_lines code, splitOn_text code, ⟨(tiles_lines code).assembles, ?_⟩, ?_⟩
  · rintro ⟨is, his⟩
    exact not_isError_of_assembles his
  · intro is his
    exact ⟨map_entry_lines_of_assembles his, fun js => assembles_unique his⟩

/-- A sum, a byte that stands for no opcode and a constant whose index is cut off; and two whole
instructions. -/
theorem lines_cover_code_with_errors :
    (text [1, 42, 0, 9]).toList.splitOn '\n' =
      ["0000 ADD", "0001 ERROR: UNDEFINED OPCODE; OPCODE 42",
        "0002 ERROR: MALFORMED BYTECODE; CONSTANT OPERAND TRUNCATED", ""].map String.toList ∧
    (¬ ∃ is, Assembles is [1, 42, 0, 9]) ∧
    Assembles [(.add, []), (.constant, [263])] [1, 0, 1, 7] ∧
    (∀ l ∈ lines [1, 0, 1, 7], ¬ l.IsError) ∧
    ∀ js, Assembles js [1, 0, 1, 7] → js = [(.add, []), (.constant, [263])] := by
  have hlines : lines [1, 42, 0, 9] = [⟨0, .instruction .add []⟩, ⟨1, .undefined 42⟩,
      ⟨2, .truncated .constant 1⟩] := by
    decide +kernel
  have hwhole : Assembles [(.add, []), (.constant, [263])] [1, 0, 1, 7] :=
    .cons Bytecode.encode_add (assembles_singleton (Bytecode.encode_constant (by decide)))
  obtain ⟨-, htext, hnone, -⟩ := lines_cover_code [1, 42, 0, 9]
  obtain ⟨-, -, hall, hunique⟩ := lines_cover_code [1, 0, 1, 7]
  refine ⟨?_, ?_, hwhole, hall.mpr ⟨_, hwhole⟩, (hunique _ hwhole).2⟩
  · rw [htext, hlines]
    decide +kernel
  · rw [← hnone, hlines]
    decide +kernel

end Listing

end ByteCalc
