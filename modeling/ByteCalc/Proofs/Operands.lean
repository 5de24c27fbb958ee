import Mathlib.Data.List.Forall2
import Mathlib.Data.List.Induction
import Mathlib.Data.List.SplitLengths
import Mathlib.Data.Nat.Digits.Defs
import ByteCalc.Opcode.Encoding

/-! # Operands

The operands of an instruction lie one behind the other, each in a window of its
own width. Reading takes any widths and keeps what fits a word of each operand.
Writing takes widths of at least a byte and at most a word, and where all widths
are of this kind, writing and reading are inverse.
-/

namespace ByteCalc

namespace BigEndian

theorem limit_eq_pow (width : Nat) : limit width = 256 ^ width := by
  induction width with
  | zero => rfl
  | succ width ih => rw [limit_succ, ih, pow_succ']

theorem decode_eq_ofDigits (bytes : List UInt8) :
    decode bytes = Nat.ofDigits 256 (bytes.reverse.map UInt8.toNat) := by
  induction bytes using List.reverseRecOn with
  | nil => rfl
  | append_singleton bytes b ih =>
    simp only [decode_concat, List.reverse_append, List.reverse_singleton, List.singleton_append,
      List.map_cons, Nat.ofDigits_cons, ← ih]
    exact Nat.add_comm _ _

theorem toNat_word_of_length_le {bytes : List UInt8} (h : bytes.length ≤ 8) :
    (word bytes).toNat = decode bytes := by
  have hlt : decode bytes < 256 ^ bytes.length := limit_eq_pow _ ▸ decode_lt bytes
  have hsize : 256 ^ bytes.length ≤ UInt64.size := Nat.pow_le_pow_right (by decide) h
  rw [toNat_word, Nat.mod_eq_of_lt (Nat.lt_of_lt_of_le hlt hsize)]

end BigEndian

/-! ## Windows -/

section Windows

variable {α : Type}

theorem splitLengths_flatten_append (pieces : List (List α)) (rest : List α) :
    (pieces.map List.length).splitLengths (pieces.flatten ++ rest) = pieces := by
  induction pieces with
  | nil => rfl
  | cons piece pieces ih => simp [ih]

theorem flatten_splitLengths_append_drop (widths : List Nat) (xs : List α) :
    (widths.splitLengths xs).flatten ++ xs.drop widths.sum = xs := by
  induction widths generalizing xs with
  | nil => simp
  | cons width widths ih =>
    simp only [List.splitLengths_cons, List.flatten_cons, List.sum_cons, List.append_assoc,
      ← List.drop_drop, ih, List.take_append_drop]

theorem getElem_splitLengths (widths : List Nat) (xs : List α) {i : Nat} (h : i < widths.length)
    (h' : i < (widths.splitLengths xs).length) :
    (widths.splitLengths xs)[i] = (xs.drop (widths.take i).sum).take widths[i] := by
  induction widths generalizing xs i with
  | nil => cases h
  | cons width widths ih =>
    cases i with
    | zero => simp
    | succ i =>
      simp only [List.splitLengths_cons, List.getElem_cons_succ, List.take_succ_cons,
        List.sum_cons, ← List.drop_drop]
      exact ih _ _ _

end Windows

namespace Layout

variable {l : Layout} {operands : List Nat} {pieces : List (List UInt8)} {bytes : List UInt8}
  {n : Nat}

/-- The bytes of an operand: as many as it is wide, behind those of the operands before it. -/
def window (l : Layout) (bytes : List UInt8) (i : Fin l.widths.length) : List UInt8 :=
  (bytes.drop (l.widths.take i).sum).take (l.widths.get i)

theorem splitLengths_eq_ofFn (l : Layout) (bytes : List UInt8) :
    l.widths.splitLengths bytes = List.ofFn (l.window bytes) := by
  apply List.ext_getElem
  · simp
  · intro i h h'
    rw [List.length_splitLengths] at h
    simp [window, getElem_splitLengths _ _ h]

theorem readWindows?_eq (widths : List Nat) (bytes : List UInt8) :
    readWindows? widths bytes = if widths.sum ≤ bytes.length then
      some ((widths.splitLengths bytes).map fun piece => (BigEndian.word piece).toNat)
    else none := by
  induction widths generalizing bytes with
  | nil => rfl
  | cons width widths ih =>
    have hcons : (width :: widths).sum = width + widths.sum := List.sum_cons
    simp only [readWindows?, ih, List.length_take, List.length_drop]
    by_cases hsum : (width :: widths).sum ≤ bytes.length
    · have hwidth : min width bytes.length = width := by omega
      have hrest : widths.sum ≤ bytes.length - width := by omega
      rw [if_pos hwidth, if_pos hrest, if_pos hsum, List.splitLengths_cons]
      rfl
    · rw [if_neg hsum]
      split_ifs with hwidth hrest
      · omega
      · rfl
      · rfl

theorem decode_eq (l : Layout) (bytes : List UInt8) :
    l.decode bytes = if l.widths.sum ≤ bytes.length then
      .ok ((l.widths.splitLengths bytes).map fun piece => (BigEndian.word piece).toNat,
        l.widths.sum)
    else .error (.operandTruncated l.name) := by
  rw [decode, readWindows?_eq]
  split_ifs
  · rfl
  · rfl

/-- Reading succeeds just if there are as many bytes as the operands take up. It gives this number,
and of each operand the value of its window in a register of 64 bits. -/
theorem decode_reads_windows (l : Layout) (bytes : List UInt8) :
    (l.decode bytes = if l.widths.sum ≤ bytes.length then
      .ok (List.ofFn fun i =>
        Nat.ofDigits 256 ((l.window bytes i).reverse.map UInt8.toNat) % 2 ^ 64, l.widths.sum)
    else .error (.operandTruncated l.name)) ∧
    (Fault.operandTruncated l.name).category = .malformedBytecode := by
  constructor
  · have hword (piece : List UInt8) : (BigEndian.word piece).toNat =
        Nat.ofDigits 256 (piece.reverse.map UInt8.toNat) % 2 ^ 64 := by
      rw [BigEndian.toNat_word, BigEndian.decode_eq_ofDigits]
      rfl
    simp only [decode_eq, splitLengths_eq_ofFn, List.map_ofFn, Function.comp_def, hword]
  · rfl

/-- An operand without a width, one of nine bytes of which the first is lost, and one of two. -/
example : Layout.decode ⟨"WIDE", [0, 9, 2]⟩ [255, 1, 0, 0, 0, 0, 0, 0, 2, 3, 4, 5] =
    .ok ([0, 72057594037927938, 772], 11) := by
  decide

/-! ## Writing -/

/-- The bytes in which operands are written, a piece for each. -/
structure Spells (l : Layout) (operands : List Nat) (pieces : List (List UInt8)) : Prop where
  lengths : pieces.map List.length = l.widths
  values : pieces.map BigEndian.decode = operands

/-- There is an operand for each width, and it is small enough for it. -/
def Admits (l : Layout) (operands : List Nat) : Prop :=
  List.Forall₂ (fun operand width => operand < 256 ^ width) operands l.widths

theorem admits_iff : l.Admits operands ↔ ∃ pieces, l.Spells operands pieces := by
  constructor
  · obtain ⟨name, widths⟩ := l
    intro (h : List.Forall₂ _ operands widths)
    induction h with
    | nil => exact ⟨[], rfl, rfl⟩
    | @cons operand width _ _ hlt _ ih =>
      obtain ⟨pieces, rfl, rfl⟩ := ih
      rw [← BigEndian.limit_eq_pow] at hlt
      obtain ⟨hlen, hval⟩ := BigEndian.eq_encode_iff.mp ⟨hlt, rfl⟩
      exact ⟨BigEndian.encode width operand :: pieces, by simp [hlen], by simp [hval]⟩
  · rintro ⟨pieces, hlengths, rfl⟩
    unfold Admits
    rw [← hlengths, List.forall₂_map_left_iff, List.forall₂_map_right_iff, List.forall₂_same]
    intro piece _
    exact BigEndian.limit_eq_pow _ ▸ BigEndian.decode_lt piece

theorem Spells.length_flatten (h : l.Spells operands pieces) :
    pieces.flatten.length = l.widths.sum := by
  rw [List.length_flatten, h.lengths]

/-- Every operand takes up at least a byte and at most a word. -/
def Proper (l : Layout) : Prop := ∀ width ∈ l.widths, 0 < width ∧ width ≤ 8

theorem encodeFields_eq_ok_iff {fields : List (Nat × Nat)}
    (hfields : ∀ field ∈ fields, 0 < field.2 ∧ field.2 ≤ 8) :
    l.encodeFields fields = .ok bytes ↔
      ∃ pieces : List (List UInt8),
        pieces.map (fun piece => (BigEndian.decode piece, piece.length)) = fields ∧
          pieces.flatten = bytes := by
  induction fields generalizing bytes with
  | nil => simp [encodeFields]
  | cons field fields ih =>
    obtain ⟨operand, width⟩ := field
    obtain ⟨⟨hpos, hword⟩, hfields⟩ := List.forall_mem_cons.mp hfields
    constructor
    · intro h
      unfold encodeFields at h
      split at h
      · next hcond =>
        obtain ⟨-, -, hlt⟩ := hcond
        obtain ⟨tail, htail, rfl⟩ := Fault.map_eq_ok_iff.mp h
        obtain ⟨pieces, rfl, rfl⟩ := (ih hfields).mp htail
        obtain ⟨hlen, hval⟩ := BigEndian.eq_encode_iff.mp ⟨hlt, rfl⟩
        exact ⟨BigEndian.encode width operand :: pieces, by simp [hlen, hval], rfl⟩
      · cases h
    · rintro ⟨_ | ⟨piece, pieces⟩, hmap, rfl⟩
      · cases hmap
      · simp only [List.map_cons, List.cons.injEq, Prod.mk.injEq] at hmap
        obtain ⟨⟨hval, hlen⟩, hmap⟩ := hmap
        obtain ⟨hlt, hpiece⟩ := BigEndian.eq_encode_iff.mpr ⟨hlen, hval⟩
        rw [encodeFields, if_pos ⟨hpos, hword, hlt⟩, ← hpiece]
        exact Fault.map_eq_ok_iff.mpr ⟨_, (ih hfields).mpr ⟨pieces, hmap, rfl⟩, rfl⟩

theorem encode_eq_ok_iff (hl : l.Proper) :
    l.encode operands = .ok bytes ↔
      ∃ pieces, l.Spells operands pieces ∧ pieces.flatten = bytes := by
  have hfields {operands : List Nat} : ∀ field ∈ operands.zip l.widths, 0 < field.2 ∧ field.2 ≤ 8 :=
    fun field hfield => hl _ (List.of_mem_zip hfield).2
  constructor
  · intro h
    unfold encode at h
    split at h
    · next hlen =>
      obtain ⟨pieces, hmap, rfl⟩ := (encodeFields_eq_ok_iff hfields).mp h
      refine ⟨pieces, ⟨?_, ?_⟩, rfl⟩
      · have hwidths := congrArg (List.map Prod.snd) hmap
        rwa [List.map_map, List.map_snd_zip hlen.ge] at hwidths
      · have hoperands := congrArg (List.map Prod.fst) hmap
        rwa [List.map_map, List.map_fst_zip hlen.le] at hoperands
    · cases h
  · rintro ⟨pieces, ⟨hlengths, rfl⟩, rfl⟩
    rw [encode, if_pos (by simp [← hlengths]), encodeFields_eq_ok_iff hfields]
    exact ⟨pieces, by rw [← hlengths, List.zip_map'], rfl⟩

theorem category_of_encodeFields {fields : List (Nat × Nat)} {f : Fault}
    (h : l.encodeFields fields = .error f) : f.category = .badOperand := by
  induction fields with
  | nil => cases h
  | cons field fields ih =>
    unfold encodeFields at h
    split at h
    · exact ih (Fault.map_eq_error_iff.mp h)
    · cases h
      rfl

theorem category_of_encode {f : Fault} (h : l.encode operands = .error f) :
    f.category = .badOperand := by
  unfold encode at h
  split at h
  · exact category_of_encodeFields h
  · cases h
    rfl

/-! ## Writing and reading -/

/-- Reading finds the pieces that writing puts there. -/
theorem decode_eq_ok_iff (hl : l.Proper) :
    l.decode bytes = .ok (operands, n) ↔
      (∃ pieces rest, l.Spells operands pieces ∧ bytes = pieces.flatten ++ rest) ∧
        n = l.widths.sum := by
  have hvalues {pieces : List (List UInt8)} (h : pieces.map List.length = l.widths) :
      pieces.map (fun piece => (BigEndian.word piece).toNat) = pieces.map BigEndian.decode := by
    apply List.map_congr_left
    intro piece hpiece
    apply BigEndian.toNat_word_of_length_le
    exact (hl _ (h ▸ List.mem_map_of_mem hpiece)).2
  rw [decode_eq]
  constructor
  · intro h
    split at h
    · next hsum =>
      cases h
      have hlengths := List.map_splitLengths_length bytes l.widths hsum
      refine ⟨⟨l.widths.splitLengths bytes, bytes.drop l.widths.sum, ⟨hlengths, ?_⟩, ?_⟩, rfl⟩
      · exact (hvalues hlengths).symm
      · exact (flatten_splitLengths_append_drop l.widths bytes).symm
    · cases h
  · rintro ⟨⟨pieces, rest, ⟨hlengths, rfl⟩, rfl⟩, rfl⟩
    have hsum : l.widths.sum ≤ (pieces.flatten ++ rest).length := by
      simp [← hlengths, List.length_flatten]
    rw [if_pos hsum, ← hvalues hlengths, ← hlengths, splitLengths_flatten_append]

end Layout

namespace Opcode

variable {op : Opcode} {operands : List Nat} {bytes : List UInt8} {byte : UInt8}

theorem proper_layout (op : Opcode) : op.layout.Proper := by
  unfold Layout.Proper
  cases op <;> decide

theorem ofByte_eq_ok_iff : ofByte byte = .ok op ↔ op.byte = byte := by
  rw [← ofByte?_eq_some_iff, ofByte]
  cases ofByte? byte <;> simp

theorem encode_eq_ok_iff :
    op.encode operands = .ok bytes ↔
      ∃ pieces, op.layout.Spells operands pieces ∧ bytes = op.byte :: pieces.flatten := by
  constructor
  · intro h
    obtain ⟨fields, hfields, rfl⟩ := Fault.map_eq_ok_iff.mp h
    obtain ⟨pieces, hpieces, rfl⟩ := (Layout.encode_eq_ok_iff op.proper_layout).mp hfields
    exact ⟨pieces, hpieces, rfl⟩
  · rintro ⟨pieces, hpieces, rfl⟩
    refine Fault.map_eq_ok_iff.mpr ⟨_, ?_, rfl⟩
    exact (Layout.encode_eq_ok_iff op.proper_layout).mpr ⟨pieces, hpieces, rfl⟩

theorem exists_encode_eq_ok_iff :
    (∃ bytes, op.encode operands = .ok bytes) ↔ op.layout.Admits operands := by
  rw [Layout.admits_iff]
  constructor
  · rintro ⟨bytes, h⟩
    obtain ⟨pieces, hpieces, -⟩ := encode_eq_ok_iff.mp h
    exact ⟨pieces, hpieces⟩
  · rintro ⟨pieces, hpieces⟩
    exact ⟨_, encode_eq_ok_iff.mpr ⟨pieces, hpieces, rfl⟩⟩

/-- The index of a constant is also found by the reader for two bytes at an offset. -/
theorem readU16_of_encode (h : constant.encode operands = .ok bytes) :
    ∃ k, operands = [k] ∧ ∀ front rest : List UInt8,
      readU16 (front ++ bytes ++ rest).toArray (front.length + 1) = .ok k := by
  obtain ⟨pieces, ⟨hlengths, rfl⟩, rfl⟩ := encode_eq_ok_iff.mp h
  obtain ⟨piece, rfl, hpiece⟩ : ∃ piece, pieces = [piece] ∧ piece.length = 2 :=
    List.map_eq_singleton_iff.mp hlengths
  obtain ⟨hi, lo, rfl⟩ := List.length_eq_two.mp hpiece
  refine ⟨BigEndian.decode [hi, lo], rfl, ?_⟩
  intro front rest
  have hlo : (front ++ constant.byte :: hi :: lo :: rest)[front.length + 1 + 1]? = some lo := by
    simp [Nat.add_assoc]
  simp [readU16, hlo]

theorem encode_of_decode {n : Nat} (h : op.layout.decode bytes = .ok (operands, n)) :
    op.encode operands = .ok (op.byte :: bytes.take n) := by
  obtain ⟨⟨pieces, rest, hpieces, rfl⟩, rfl⟩ := (Layout.decode_eq_ok_iff op.proper_layout).mp h
  rw [encode_eq_ok_iff, List.take_left' hpieces.length_flatten]
  exact ⟨pieces, hpieces, rfl⟩

/-- An opcode can be written with just those operands that its layout has room for. Whatever comes
behind the bytes, they are read as the same opcode and operands, and all that can be read as an
instruction is what writing gives for it. -/
theorem encode_inverts_decode (op : Opcode) :
    (∀ operands, ((∃ bytes, op.encode operands = .ok bytes) ↔ op.layout.Admits operands) ∧
      ∀ f, op.encode operands = .error f → f.category = .badOperand) ∧
    (∀ operands bytes, op.encode operands = .ok bytes →
      bytes.length = 1 + op.layout.widths.sum ∧
      (∃ byte tail, bytes = byte :: tail ∧ ofByte byte = .ok op ∧
        ∀ rest, op.layout.decode (tail ++ rest) = .ok (operands, op.layout.widths.sum)) ∧
      (op = .constant → ∃ k, operands = [k] ∧ ∀ front rest : List UInt8,
        readU16 (front ++ bytes ++ rest).toArray (front.length + 1) = .ok k)) ∧
    ∀ byte bytes operands n, ofByte byte = .ok op → op.layout.decode bytes = .ok (operands, n) →
      op.encode operands = .ok ((byte :: bytes).take (1 + n)) := by
  refine ⟨fun operands => ⟨exists_encode_eq_ok_iff, ?_⟩, ?_, ?_⟩
  · intro f h
    exact Layout.category_of_encode (Fault.map_eq_error_iff.mp h)
  · intro operands bytes h
    obtain ⟨pieces, hpieces, rfl⟩ := encode_eq_ok_iff.mp h
    refine ⟨?_, ⟨op.byte, pieces.flatten, rfl, ofByte_eq_ok_iff.mpr rfl, ?_⟩, ?_⟩
    · rw [List.length_cons, hpieces.length_flatten, Nat.add_comm]
    · intro rest
      exact (Layout.decode_eq_ok_iff op.proper_layout).mpr ⟨⟨pieces, rest, hpieces, rfl⟩, rfl⟩
    · rintro rfl
      exact readU16_of_encode h
  · intro byte bytes operands n hbyte h
    obtain rfl := ofByte_eq_ok_iff.mp hbyte
    rw [Nat.add_comm, List.take_succ_cons]
    exact encode_of_decode h

/-- The largest index is written and read back, and the next one is refused. -/
theorem encode_inverts_decode_last_index :
    constant.encode [65535] = .ok [0, 255, 255] ∧
    constant.layout.decode [255, 255, 7] = .ok ([65535], 2) ∧
    readU16 #[0, 255, 255, 7] 1 = .ok 65535 ∧
    constant.encode [65535] = .ok ([0, 255, 255, 7].take (1 + 2)) ∧
    ¬ constant.layout.Admits [65536] ∧
    ∃ f, constant.encode [65536] = .error f ∧ f.category = .badOperand := by
  obtain ⟨hadmits, hwritten, hread⟩ := encode_inverts_decode constant
  have hbytes : constant.encode [65535] = .ok [0, 255, 255] := rfl
  have hfault : constant.encode [65536] = .error (.operandRange constant.layout 65536 2) := rfl
  obtain ⟨-, ⟨byte, tail, htail, hbyte, hdecode⟩, hword⟩ := hwritten _ _ hbytes
  cases htail
  obtain ⟨k, hk, hword⟩ := hword rfl
  cases hk
  refine ⟨hbytes, hdecode [7], hword [] [7], hread _ _ _ _ hbyte (hdecode [7]), ?_, ?_⟩
  · intro h
    obtain ⟨bytes, h⟩ := (hadmits _).1.mpr h
    rw [hfault] at h
    cases h
  · exact ⟨_, hfault, (hadmits _).2 _ hfault⟩

end Opcode

end ByteCalc
