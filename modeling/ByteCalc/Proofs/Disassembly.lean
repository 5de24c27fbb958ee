import Mathlib.Algebra.Ring.Nat
import ByteCalc.Bytecode.Listing

/-! # Laws of listings

Which entry some code begins with, and what follows it. The lines of a listing
are its entries, each at the offset where those before it end. Those that are
marked as errors are no instructions.
-/

namespace ByteCalc

namespace Opcode

variable {k : Nat} {bytes : List UInt8}

theorem decode_constant (hk : k < BigEndian.limit 2) (rest : List UInt8) :
    constant.layout.decode (BigEndian.encode 2 k ++ rest) = .ok ([k], 2) := by
  have htake : (BigEndian.encode 2 k ++ rest).take 2 = BigEndian.encode 2 k :=
    List.take_left' (BigEndian.length_encode 2 k)
  have hword : (BigEndian.word (BigEndian.encode 2 k)).toNat = k := by
    rw [BigEndian.toNat_word, BigEndian.decode_encode, Nat.mod_eq_of_lt hk]
    exact Nat.mod_eq_of_lt (Nat.lt_trans hk (by decide))
  simp only [layout, Layout.decode, Layout.readWindows?, htake, BigEndian.length_encode, if_true,
    hword]
  rfl

theorem decode_constant_of_lt (h : bytes.length < 2) :
    constant.layout.decode bytes = .error (.operandTruncated constant.name) := by
  have hlen : (bytes.take 2).length ≠ 2 := by
    rw [List.length_take]
    omega
  simp only [layout, Layout.decode, Layout.readWindows?, if_neg hlen]
  rfl

end Opcode

namespace Entry

/-- The code that begins with an entry, and the code after it. -/
inductive Heads : Entry → List UInt8 → List UInt8 → Prop where
  | constant {k : Nat} {rest : List UInt8} : k < BigEndian.limit 2 →
    Heads (.instruction .constant [k]) (Opcode.constant.byte :: BigEndian.encode 2 k ++ rest) rest
  | add {rest : List UInt8} : Heads (.instruction .add []) (Opcode.add.byte :: rest) rest
  | undefined {byte : UInt8} {rest : List UInt8} : Opcode.ofByte? byte = none →
    Heads (.undefined byte) (byte :: rest) rest
  | truncated {bytes : List UInt8} : bytes.length < 2 →
    Heads (.truncated .constant bytes.length) (Opcode.constant.byte :: bytes) []

variable {e : Entry} {f : Fault} {code rest : List UInt8}

/-- Two bytes are the index of a constant. -/
theorem exists_encode_append_of_length_le {bytes : List UInt8} (h : 2 ≤ bytes.length) :
    ∃ k rest, k < BigEndian.limit 2 ∧ bytes = BigEndian.encode 2 k ++ rest := by
  have hlen : (bytes.take 2).length = 2 := by
    rw [List.length_take]
    omega
  obtain ⟨hk, hbytes⟩ := BigEndian.eq_encode_iff.mpr ⟨hlen, rfl⟩
  refine ⟨_, bytes.drop 2, hk, ?_⟩
  rw [← hbytes, List.take_append_drop]

theorem read_constant {k : Nat} (hk : k < BigEndian.limit 2) (rest : List UInt8) :
    read Opcode.constant.byte (BigEndian.encode 2 k ++ rest) =
      (.instruction .constant [k], rest) := by
  simp only [read, Opcode.ofByte?_byte, Opcode.decode_constant hk,
    List.drop_left' (BigEndian.length_encode 2 k)]

theorem heads_read (byte : UInt8) (bytes : List UInt8) :
    (read byte bytes).1.Heads (byte :: bytes) (read byte bytes).2 := by
  cases hop : Opcode.ofByte? byte with
  | none =>
    simp only [read, hop]
    exact .undefined hop
  | some op =>
    obtain rfl := Opcode.ofByte?_eq_some_iff.mp hop
    cases op with
    | add => exact .add
    | constant =>
      rcases Nat.lt_or_ge bytes.length 2 with hlt | hge
      · simp only [read, hop, Opcode.decode_constant_of_lt hlt]
        exact .truncated hlt
      · obtain ⟨k, rest, hk, rfl⟩ := exists_encode_append_of_length_le hge
        rw [read_constant hk]
        exact .constant hk

theorem Heads.ne_nil (h : e.Heads code rest) : code ≠ [] := by
  cases h <;> simp

/-- An entry takes up as many bytes as its width says. -/
theorem Heads.drop_width (h : e.Heads code rest) : code.drop e.width = rest := by
  cases h with
  | constant hk =>
    apply List.drop_left'
    rw [List.length_cons, BigEndian.length_encode]
    rfl
  | add => rfl
  | undefined hop => rfl
  | truncated hlt => rw [width, Nat.add_comm, List.drop_succ_cons, List.drop_length]

theorem Heads.width_le (h : e.Heads code rest) : e.width ≤ code.length := by
  cases h with
  | constant hk =>
    rw [List.length_append, List.length_cons, BigEndian.length_encode]
    exact Nat.le_add_right 3 _
  | add => exact Nat.le_add_left 1 _
  | undefined hop => exact Nat.le_add_left 1 _
  | truncated hlt => exact Nat.le_of_eq (Nat.add_comm _ _)

theorem name_isPrefix_foldl (operands : List Nat) (s : String) :
    s.toList <+: (operands.foldl (fun s n => s ++ " " ++ toString n) s).toList := by
  induction operands generalizing s with
  | nil => exact List.prefix_rfl
  | cons n operands ih =>
    refine List.IsPrefix.trans ?_ (ih _)
    simp only [String.append_assoc, String.toList_append]
    exact List.prefix_append _ _

theorem text_of_fault? (h : e.fault? = some f) : e.text = "ERROR: " ++ f.diagnostic.text := by
  cases e with
  | instruction op operands => cases h
  | undefined byte => cases h; rfl
  | truncated op n => cases h; rfl

theorem mark_isPrefix_text (h : e.fault? = some f) : "ERROR: ".toList <+: e.text.toList := by
  rw [text_of_fault? h, String.toList_append]
  exact List.prefix_append _ _

/-- The number of bytes that some entries take up. -/
def widths (es : List Entry) : Nat := (es.map width).sum

@[simp] theorem widths_cons (e : Entry) (es : List Entry) :
    widths (e :: es) = e.width + widths es := rfl

theorem widths_append (es fs : List Entry) : widths (es ++ fs) = widths es + widths fs := by
  simp [widths]

end Entry

namespace Line

/-- A line that is marked as an error. -/
def IsError (l : Line) : Prop := "ERROR: ".toList <+: l.entry.text.toList

instance (l : Line) : Decidable l.IsError := inferInstanceAs (Decidable (_ <+: _))

theorem isError_iff (l : Line) : l.IsError ↔ l.entry.fault? ≠ none := by
  obtain ⟨offset, e⟩ := l
  cases e with
  | instruction op operands =>
    refine iff_of_false (fun h => ?_) (fun h => h rfl)
    -- The name of an opcode and the mark would have to agree as far as both go.
    have hname := Entry.name_isPrefix_foldl operands op.name
    rcases List.prefix_or_prefix_of_prefix h hname with h | h <;> revert h <;> cases op <;> decide
  | undefined byte => exact iff_of_true (Entry.mark_isPrefix_text rfl) (Option.some_ne_none _)
  | truncated op n => exact iff_of_true (Entry.mark_isPrefix_text rfl) (Option.some_ne_none _)

end Line

namespace Listing

variable {code : List UInt8}

@[simp] theorem entries_nil : entries [] = [] := Splitter.run_nil _

theorem exists_entries_eq_cons (h : code ≠ []) :
    ∃ e rest, e.Heads code rest ∧ entries code = e :: entries rest := by
  obtain ⟨byte, bytes, rfl⟩ := List.exists_cons_of_ne_nil h
  exact ⟨_, _, Entry.heads_read byte bytes, Splitter.run_cons _ byte bytes⟩

theorem entries_constant {k : Nat} (hk : k < BigEndian.limit 2) (rest : List UInt8) :
    entries (Opcode.constant.byte :: BigEndian.encode 2 k ++ rest) =
      .instruction .constant [k] :: entries rest := by
  rw [entries, List.cons_append, Splitter.run_cons]
  simp only [Entry.splitter, Entry.read_constant hk, entries]

theorem entries_add (rest : List UInt8) :
    entries (Opcode.add.byte :: rest) = .instruction .add [] :: entries rest :=
  Splitter.run_cons _ _ _

theorem linesFrom_append (offset : Nat) (es fs : List Entry) :
    linesFrom offset (es ++ fs) =
      linesFrom offset es ++ linesFrom (offset + Entry.widths es) fs := by
  induction es generalizing offset with
  | nil => rfl
  | cons e es ih => simp [linesFrom, ih, Nat.add_assoc]

@[simp] theorem length_linesFrom (offset : Nat) (es : List Entry) :
    (linesFrom offset es).length = es.length := by
  induction es generalizing offset with
  | nil => rfl
  | cons e es ih => simp [linesFrom, ih]

theorem map_entry_linesFrom (offset : Nat) (es : List Entry) :
    (linesFrom offset es).map Line.entry = es := by
  induction es generalizing offset with
  | nil => rfl
  | cons e es ih => simp [linesFrom, ih]

/-- The first line that is marked as an error is `l`, after `k` others. -/
structure FirstError (ls : List Line) (k : Nat) (l : Line) : Prop where
  line : ls[k]? = some l
  error : l.IsError
  before : ∀ l' ∈ ls.take k, ¬ l'.IsError

end Listing

end ByteCalc
