import ByteCalc.Proofs.Disassembly
import ByteCalc.Proofs.Safety

/-! # The machine along the listing

A machine stands at the beginning of a line of its listing, does what the entry
on it says and goes on to the next line. It fails to decode an instruction only
at a line that shows an error, and there it always does.
-/

namespace ByteCalc

namespace Entry

variable {e : Entry} {f : Fault}

/-- The fault of a machine that stops at an entry. It is one of decoding just if the entry is no
instruction, and then of the kind that the listing shows. -/
def Explains (e : Entry) (f : Fault) : Prop :=
  match e.fault? with
  | none => f.category ≠ .undefinedOpcode ∧ f.category ≠ .malformedBytecode
  | some g => f.category = g.category ∧ (f.category = .undefinedOpcode → f = g)

theorem Explains.fault?_ne_none_iff (h : e.Explains f) :
    e.fault? ≠ none ↔ f.category = .undefinedOpcode ∨ f.category = .malformedBytecode := by
  cases e with
  | instruction op operands =>
    obtain ⟨hu, hm⟩ := h
    simp [fault?, hu, hm]
  | undefined byte => exact iff_of_true (Option.some_ne_none _) (.inl h.1)
  | truncated op n => exact iff_of_true (Option.some_ne_none _) (.inr h.1)

theorem Explains.fault?_eq (h : e.Explains f) (hf : f.category = .undefinedOpcode) :
    e.fault? = some f := by
  have hne : e.fault? ≠ none := h.fault?_ne_none_iff.mpr (.inl hf)
  obtain ⟨g, hg⟩ := Option.ne_none_iff_exists'.mp hne
  rw [Explains, hg] at h
  rw [hg, h.2 hf]

end Entry

namespace Machine

/-- What becomes of a machine at an entry of its listing. -/
inductive Obeys (m : Machine) : Entry → Machine → Prop where
  | constant {index : Nat} {v : Val} : m.bytecode.constants[index]? = some v →
    m.stack.size < m.stack.capacity →
      Obeys m (.instruction .constant [index]) (m.after (m.stack.items.push v) 3)
  | noConstant {index : Nat} : m.bytecode.constants[index]? = none →
    Obeys m (.instruction .constant [index])
      (m.fail (.constantIndex index m.bytecode.constants.size))
  | noSlot {index : Nat} {v : Val} : m.bytecode.constants[index]? = some v →
    m.stack.capacity ≤ m.stack.size →
      Obeys m (.instruction .constant [index]) (m.fail (.stackFull m.stack.overflowNote))
  | add {items : Array Val} {a b c : Val} : m.stack.items = (items.push a).push b →
    a.sum b = .ok c → Obeys m (.instruction .add []) (m.after (items.push c) 1)
  | noOperands : m.stack.size < 2 → Obeys m (.instruction .add []) (m.fail .stackEmpty)
  | noSum {items : Array Val} {a b : Val} {f : Fault} : m.stack.items = (items.push a).push b →
    a.sum b = .error f → Obeys m (.instruction .add []) ((m.after items 0).fail f)
  | undefined {byte : UInt8} : Obeys m (.undefined byte) (m.fail (.undefinedOpcode byte))
  | truncated {op : Opcode} {n : Nat} : Obeys m (.truncated op n) (m.fail .wordTruncated)

variable {m m' : Machine} {e : Entry} {rest : List UInt8}

theorem step_undefined {byte : UInt8} (h : m.ahead = byte :: rest)
    (hop : Opcode.ofByte? byte = none) : m.step = m.fail (.undefinedOpcode byte) := by
  have hbyte : m.bytecode.code[m.ip]? = some byte := getElem?_code_of_ahead h 0
  simp only [step, hbyte, Opcode.ofByte, hop]

theorem step_truncated {bytes : List UInt8} (h : m.ahead = Opcode.constant.byte :: bytes)
    (hlt : bytes.length < 2) : m.step = m.fail .wordTruncated := by
  have hlo : m.bytecode.code[m.ip + 1 + 1]? = none := by
    rw [Nat.add_assoc, getElem?_code_of_ahead h]
    exact List.getElem?_eq_none hlt
  have hread : readU16 m.bytecode.code (m.ip + 1) = .error .wordTruncated := by
    rw [readU16, hlo]
    cases m.bytecode.code[m.ip + 1]? <;> rfl
  rw [step_eq_stepConstant (getElem?_code_of_ahead h 0), stepConstant, hread]

/-- The entry at which a machine stands decides its step. -/
theorem obeys_step (h : e.Heads m.ahead rest) (hroom : m.stack.size ≤ m.stack.capacity) :
    m.Obeys e m.step := by
  generalize hahead : m.ahead = code at h
  cases h with
  | @constant k _ hk =>
    rw [step_constant hk hahead]
    cases hv : m.bytecode.constants[k]? with
    | none => exact .noConstant hv
    | some v =>
      dsimp only
      split
      · next hlt => exact .constant hv hlt
      · next hge => exact .noSlot hv (Nat.le_of_not_lt hge)
  | add =>
    rcases step_add hahead hroom with ⟨hlt, hs⟩ | ⟨items, a, b, hitems, hs⟩
    · rw [hs]
      exact .noOperands hlt
    · rw [hs]
      cases hsum : a.sum b with
      | ok c => exact .add hitems hsum
      | error f => exact .noSum hitems hsum
  | undefined hop =>
    rw [step_undefined hahead hop]
    exact .undefined
  | truncated hlt =>
    rw [step_truncated hahead hlt]
    exact .truncated

/-- A machine goes on past an instruction, and only past one. -/
theorem Obeys.of_isRunning (h : m.Obeys e m') (hr : m'.isRunning)
    (hroom : m.stack.size ≤ m.stack.capacity) :
    e.fault? = none ∧ ∃ items, m' = m.after items e.width ∧ items.size ≤ m.stack.capacity := by
  cases h with
  | constant hv hlt =>
    refine ⟨rfl, _, rfl, ?_⟩
    rwa [Array.size_push]
  | add hitems hsum =>
    refine ⟨rfl, _, rfl, ?_⟩
    rw [Stack.size, hitems, Array.size_push, Array.size_push] at hroom
    rw [Array.size_push]
    omega
  | _ => simp [isRunning, fail] at hr

theorem Obeys.of_not_isRunning (h : m.Obeys e m') (hm : m.isRunning) (hr : ¬ m'.isRunning) :
    m'.ip = m.ip ∧ ∃ f, m'.FailedWith f ∧ e.Explains f := by
  cases h with
  | constant hv hlt => exact absurd hm hr
  | add hitems hsum => exact absurd hm hr
  | @noSum _ x y f hitems hsum =>
    refine ⟨rfl, f, failedWith_fail _ f, ?_⟩
    rcases x.sum_cases y with ⟨n, hs⟩ | hs | ⟨-, hs⟩ <;> rw [hs] at hsum <;> cases hsum
    · simp [Entry.Explains, Entry.fault?, Fault.category]
    · simp [Entry.Explains, Entry.fault?, Fault.category]
  | undefined => exact ⟨rfl, _, failedWith_fail m _, rfl, fun _ => rfl⟩
  | _ => exact ⟨rfl, _, failedWith_fail m _, by simp [Entry.Explains, Entry.fault?, Fault.category]⟩

/-- The machine performs `k` instructions without a fault. -/
def Reaches (m : Machine) (k : Nat) : Prop := (advance k m.start).isRunning

/-- A machine that has performed the instructions `es`, the first ones in the listing. -/
structure Tracks (m : Machine) (b : Bytecode) (es : List Entry) : Prop where
  bytecode : m.bytecode = b
  entries : Listing.entries b.code.toList = es ++ Listing.entries m.ahead
  ip : m.ip = Entry.widths es
  ip_le : m.ip ≤ b.code.size
  sound : ∀ e ∈ es, e.fault? = none
  room : m.stack.size ≤ m.stack.capacity

section Tracks

variable {b : Bytecode} {es : List Entry} {k : Nat}

theorem tracks_start_loaded (b : Bytecode) (capacity : Nat) :
    (loaded b capacity #[]).start.Tracks b [] :=
  ⟨rfl, rfl, rfl, Nat.zero_le _, List.forall_mem_nil _, Nat.zero_le _⟩

/-- A machine that goes on has performed one more instruction. -/
theorem Tracks.step (h : m.Tracks b es) (hr : m.step.isRunning) :
    ∃ e, m.step.Tracks b (es ++ [e]) := by
  have hne : m.ahead ≠ [] := by
    intro hnil
    simp [step_of_ahead_nil hnil, isRunning] at hr
  obtain ⟨e, rest, hheads, hentries⟩ := Listing.exists_entries_eq_cons hne
  obtain ⟨hfault, items, hstep, hsize⟩ := (obeys_step hheads h.room).of_isRunning hr h.room
  have hwidth := hheads.width_le
  rw [ahead, h.bytecode, List.length_drop, Array.length_toList] at hwidth
  refine ⟨e, ?_⟩
  rw [hstep]
  constructor
  · exact h.bytecode
  · rw [ahead_after, hheads.drop_width, List.append_assoc, List.singleton_append, ← hentries]
    exact h.entries
  · rw [ip_after, Entry.widths_append, h.ip]
    rfl
  · have hip := h.ip_le
    rw [ip_after]
    omega
  · rw [List.forall_mem_append, List.forall_mem_singleton]
    exact ⟨h.sound, hfault⟩
  · exact hsize

/-- As long as it runs, a machine goes from line to line. -/
theorem Tracks.advance (h : m.Tracks b []) (hr : (advance k m).isRunning) :
    ∃ es, es.length = k ∧ (advance k m).Tracks b es := by
  induction k with
  | zero => exact ⟨[], rfl, h⟩
  | succ k ih =>
    have hk := isRunning_of_advance_add hr
    obtain ⟨es, hlen, hes⟩ := ih hk
    rw [advance_succ hk] at hr ⊢
    obtain ⟨e, he⟩ := hes.step hr
    exact ⟨es ++ [e], by rw [List.length_append, hlen, List.length_singleton], he⟩

theorem Tracks.lines_eq (h : m.Tracks b es) : Listing.lines b.code.toList =
    Listing.linesFrom 0 es ++ Listing.linesFrom m.ip (Listing.entries m.ahead) := by
  rw [Listing.lines_eq, h.entries, Listing.linesFrom_append, h.ip, Nat.zero_add]

theorem Tracks.not_isError (h : m.Tracks b es) {l : Line}
    (hl : l ∈ (Listing.lines b.code.toList).take es.length) : ¬ l.IsError := by
  rw [h.lines_eq, List.take_left' (Listing.length_linesFrom 0 es)] at hl
  have he : l.entry ∈ es := by
    rw [← Listing.map_entry_linesFrom 0 es]
    exact List.mem_map_of_mem hl
  rw [Line.isError_iff, not_not]
  exact h.sound _ he

/-- A machine stands at a line of its listing or at the end of the code. -/
theorem Tracks.line_cases (h : m.Tracks b es) :
    (m.ahead = [] ∧ (Listing.lines b.code.toList).length = es.length ∧ m.ip = b.code.size) ∨
    ∃ e rest, e.Heads m.ahead rest ∧
      (Listing.lines b.code.toList)[es.length]? = some ⟨m.ip, e⟩ := by
  by_cases hnil : m.ahead = []
  · refine .inl ⟨hnil, ?_, ?_⟩
    · rw [h.lines_eq, hnil, Listing.entries_nil, List.length_append, Listing.length_linesFrom]
      rfl
    · have hle : m.bytecode.code.toList.length ≤ m.ip := List.drop_eq_nil_iff.mp hnil
      rw [h.bytecode] at hle
      exact Nat.le_antisymm h.ip_le hle
  · obtain ⟨e, rest, hheads, hentries⟩ := Listing.exists_entries_eq_cons hnil
    refine .inr ⟨e, rest, hheads, ?_⟩
    rw [h.lines_eq, hentries, List.getElem?_append_right (by simp)]
    simp [Listing.linesFrom]

end Tracks

section Runs

variable {memory : Memory} {b : Bytecode} {capacity k : Nat} {l : Line}

theorem Reaches.tracks (hm : loadWith memory capacity b = .ok m) (h : m.Reaches k) :
    ∃ es, es.length = k ∧ (advance k m.start).Tracks b es := by
  obtain rfl := loadWith_eq_ok hm
  exact (tracks_start_loaded b capacity).advance h

/-- A fresh machine performs `k` instructions. It then halts, if there are no more lines, or stops
at the next line with a fault that the entry explains. -/
theorem run_cases (hm : loadWith memory capacity b = .ok m) : ∃ k, (∀ j, m.Reaches j ↔ j ≤ k) ∧
    (m.run.1 = .ok () ∧ (Listing.lines b.code.toList).length = k ∨
      ∃ l f, (Listing.lines b.code.toList)[k]? = some l ∧ m.run.1 = .error f ∧
        m.run.2.ip = l.offset ∧ l.entry.Explains f) := by
  have hstart : m.start.isRunning := by
    obtain rfl := loadWith_eq_ok hm
    rfl
  obtain ⟨k, hk, hs, hfinish⟩ := exists_last_step hstart
  refine ⟨k, isRunning_advance_iff hk hs, ?_⟩
  obtain ⟨es, rfl, hes⟩ := Reaches.tracks hm hk
  rcases hes.line_cases with ⟨hnil, hlen, -⟩ | ⟨e, rest, hheads, hline⟩
  · refine .inl ⟨?_, hlen⟩
    rw [run, hfinish, step_of_ahead_nil hnil]
    rfl
  · obtain ⟨hip, f, hf, hexp⟩ := (obeys_step hheads hes.room).of_not_isRunning hk hs
    refine .inr ⟨_, f, hline, ?_, ?_, hexp⟩
    · rw [run, hfinish, hf.report_eq]
      rfl
    · rw [run, hfinish, hip]

theorem Reaches.not_isError (hm : loadWith memory capacity b = .ok m) (h : m.Reaches k) :
    ∀ l ∈ (Listing.lines b.code.toList).take k, ¬ l.IsError := by
  obtain ⟨es, rfl, hes⟩ := h.tracks hm
  exact fun l => hes.not_isError

theorem Reaches.obeys (hm : loadWith memory capacity b = .ok m) (h : m.Reaches k)
    (hl : (Listing.lines b.code.toList)[k]? = some l) :
    (advance k m.start).Obeys l.entry (advance (k + 1) m.start) := by
  obtain ⟨es, rfl, hes⟩ := h.tracks hm
  rcases hes.line_cases with ⟨-, hlen, -⟩ | ⟨e, rest, hheads, hline⟩
  · rw [List.getElem?_eq_none hlen.le] at hl
    cases hl
  · obtain rfl := Option.some.inj (hline.symm.trans hl)
    rw [advance_succ h]
    exact obeys_step hheads hes.room

/-- No instruction is performed from the first error on. -/
theorem run_of_firstError (hm : loadWith memory capacity b = .ok m)
    (h : Listing.FirstError (Listing.lines b.code.toList) k l) (hk : m.Reaches k) :
    m.run.2.ip = l.offset ∧ ∃ f, m.run.1 = .error f ∧ l.entry.Explains f := by
  obtain ⟨n, hn, hcases⟩ := run_cases hm
  have hnk : n = k := by
    refine Nat.le_antisymm (Nat.le_of_not_lt fun hlt => ?_) ((hn k).mp hk)
    have hmem : l ∈ (Listing.lines b.code.toList).take (k + 1) :=
      List.mem_of_getElem? (i := k) (by rw [List.getElem?_take_of_lt (Nat.lt_succ_self k), h.line])
    exact Reaches.not_isError hm ((hn (k + 1)).mpr hlt) l hmem h.error
  subst hnk
  rcases hcases with ⟨-, hlen⟩ | ⟨l', f, hl', hf, hip, hexp⟩
  · have hline := h.line
    rw [List.getElem?_eq_none hlen.le] at hline
    cases hline
  · obtain rfl := Option.some.inj (hl'.symm.trans h.line)
    exact ⟨hip, f, hf, hexp⟩

theorem exists_firstError_of_run (hm : loadWith memory capacity b = .ok m) {f : Fault}
    (hf : m.run.1 = .error f)
    (hc : f.category = .undefinedOpcode ∨ f.category = .malformedBytecode) :
    ∃ k l, Listing.FirstError (Listing.lines b.code.toList) k l ∧ m.Reaches k := by
  obtain ⟨k, hk, ⟨hok, -⟩ | ⟨l, g, hl, hg, -, hexp⟩⟩ := run_cases hm
  · rw [hok] at hf
    cases hf
  · obtain rfl : g = f := Except.error.inj (hg.symm.trans hf)
    have hreach := (hk k).mpr (Nat.le_refl k)
    have herror := l.isError_iff.mpr (hexp.fault?_ne_none_iff.mpr hc)
    exact ⟨k, l, ⟨hl, herror, hreach.not_isError hm⟩, hreach⟩

/-- A fresh machine stands at line `k` after `k` instructions and does what the line says. It fails
to decode an instruction just if it comes to the first line that is marked as an error, and it does
so there. If it does not fail, it has performed all lines. -/
theorem run_follows_listing (hm : loadWith memory capacity b = .ok m) :
    (∀ k, m.Reaches k →
      ((∃ l, (Listing.lines b.code.toList)[k]? = some l ∧ (advance k m.start).ip = l.offset) ∨
        (Listing.lines b.code.toList).length = k ∧ (advance k m.start).ip = b.code.size) ∧
      ∀ l ∈ (Listing.lines b.code.toList).take k, ¬ l.IsError) ∧
    (∀ k l, m.Reaches k → (Listing.lines b.code.toList)[k]? = some l →
      (advance k m.start).Obeys l.entry (advance (k + 1) m.start)) ∧
    ((∃ f, m.run.1 = .error f ∧
        (f.category = .undefinedOpcode ∨ f.category = .malformedBytecode)) ↔
      ∃ k l, Listing.FirstError (Listing.lines b.code.toList) k l ∧ m.Reaches k) ∧
    (∀ k l, Listing.FirstError (Listing.lines b.code.toList) k l → m.Reaches k →
      m.run.2.ip = l.offset ∧ ∃ f, m.run.1 = .error f ∧ (f.category = .undefinedOpcode →
        l.entry.fault? = some f ∧ l.entry.text = "ERROR: " ++ f.diagnostic.text)) ∧
    (m.run.1 = .ok () → (∀ l ∈ Listing.lines b.code.toList, ¬ l.IsError) ∧
      ∀ k, m.Reaches k ↔ k ≤ (Listing.lines b.code.toList).length) := by
  refine ⟨?_, ?_, ⟨?_, ?_⟩, ?_, ?_⟩
  · intro k hk
    refine ⟨?_, hk.not_isError hm⟩
    obtain ⟨es, rfl, hes⟩ := hk.tracks hm
    rcases hes.line_cases with ⟨-, hlen, hip⟩ | ⟨e, rest, -, hline⟩
    · exact .inr ⟨hlen, hip⟩
    · exact .inl ⟨_, hline, rfl⟩
  · intro k l hk hl
    exact hk.obeys hm hl
  · rintro ⟨f, hf, hc⟩
    exact exists_firstError_of_run hm hf hc
  · rintro ⟨k, l, hl, hk⟩
    obtain ⟨-, f, hf, hexp⟩ := run_of_firstError hm hl hk
    exact ⟨f, hf, hexp.fault?_ne_none_iff.mp (l.isError_iff.mp hl.error)⟩
  · intro k l hl hk
    obtain ⟨hip, f, hf, hexp⟩ := run_of_firstError hm hl hk
    refine ⟨hip, f, hf, fun hc => ?_⟩
    have hfault := hexp.fault?_eq hc
    exact ⟨hfault, Entry.text_of_fault? hfault⟩
  · intro hok
    obtain ⟨k, hk, ⟨-, rfl⟩ | ⟨l, f, -, hf, -⟩⟩ := run_cases hm
    · have hall := ((hk _).mpr (Nat.le_refl _)).not_isError hm
      rw [List.take_length] at hall
      exact ⟨hall, hk⟩
    · rw [hok] at hf
      cases hf

/-- A constant, a byte that stands for no opcode and a sum that is never performed. -/
theorem run_follows_listing_undefined :
    ∃ m f, loadWith .addressSpace 1 ⟨#[0, 0, 1, 7, 1], #[.boolean true, .integer 5]⟩ = .ok m ∧
      m.Reaches 1 ∧
      Listing.FirstError (Listing.lines [0, 0, 1, 7, 1]) 1 ⟨3, .undefined 7⟩ ∧
      m.run.2.ip = 3 ∧ m.run.1 = .error f := by
  have hm : loadWith .addressSpace 1 ⟨#[0, 0, 1, 7, 1], #[.boolean true, .integer 5]⟩ =
      .ok (loaded ⟨#[0, 0, 1, 7, 1], #[.boolean true, .integer 5]⟩ 1 #[]) := rfl
  have hlines : Listing.lines [0, 0, 1, 7, 1] = [⟨0, .instruction .constant [1]⟩,
      ⟨3, .undefined 7⟩, ⟨4, .instruction .add []⟩] := by
    decide +kernel
  have hfirst : Listing.FirstError (Listing.lines [0, 0, 1, 7, 1]) 1 ⟨3, .undefined 7⟩ := by
    rw [hlines]
    exact ⟨rfl, by decide, by decide⟩
  have hreach : Reaches (loaded ⟨#[0, 0, 1, 7, 1], #[.boolean true, .integer 5]⟩ 1 #[]) 1 := rfl
  obtain ⟨hip, f, hf, -⟩ := (run_follows_listing hm).2.2.2.1 _ _ hfirst hreach
  exact ⟨_, f, hm, hreach, hfirst, hip, hf⟩

end Runs

end Machine

end ByteCalc
