import ByteCalc.Proofs.Lifecycle
import ByteCalc.Proofs.ListingCoverage
import ByteCalc.Proofs.Printing
import ByteCalc.Proofs.ViablePrefix

/-! # Interrupting an evaluation

The signal is looked at after each slice that ends neither in a halt nor in a
fault. The first look that finds the flag raised ends the evaluation and lowers
the flag. If there is none, the evaluation comes to what it would have come to
on its own, and no raised flag has been lowered.
-/

namespace ByteCalc

namespace Signal

/-- What check number `k` from now finds. -/
def shows (s : Signal) : Nat → Bool
  | 0 => s.raised || s.requests 0
  | k + 1 => s.requests (k + 1)

/-- The signal after some checks. -/
def after (s : Signal) : Nat → Signal
  | 0 => s
  | k + 1 => s.check.2.after k

variable {s : Signal} {k : Nat}

theorem shows_succ (s : Signal) (k : Nat) : s.shows (k + 1) = s.check.2.shows k := by
  cases k <;> simp [shows, check]

/-- A check lowers the flag. -/
theorem raised_after_succ (s : Signal) (k : Nat) : (s.after (k + 1)).raised = false := by
  induction k generalizing s with
  | zero => rfl
  | succ k ih => exact ih s.check.2

/-- Checks that find nothing leave the flag as it was. -/
theorem raised_after (h : ∀ i < k, s.shows i = false) : (s.after k).raised = s.raised := by
  cases k with
  | zero => rfl
  | succ k =>
    have hs := h 0 (Nat.succ_pos k)
    rw [shows, Bool.or_eq_false_iff] at hs
    rw [raised_after_succ, hs.1]

end Signal

namespace Machine

/-- The machine after some slices. -/
def afterSlices (m : Machine) : Nat → Machine
  | 0 => m
  | i + 1 => (m.execute sliceLength).2.afterSlices i

/-- Slice number `i` is followed by a check, since it ends neither in a halt nor in a fault. -/
def Pauses (m : Machine) (i : Nat) : Prop :=
  ((m.afterSlices i).execute sliceLength).1 = .ok .running

variable {m m' : Machine} {r : Except Fault Event} {s : Signal} {i k : Nat} {f : Fault}

theorem pauses_zero_of_execute (h : m.execute sliceLength = (r, m')) :
    m.Pauses 0 ↔ r = .ok .running := by
  rw [Pauses, afterSlices, h]

theorem pauses_succ_of_execute (h : m.execute sliceLength = (r, m')) :
    m.Pauses (i + 1) ↔ m'.Pauses i := by
  rw [Pauses, afterSlices, h, Pauses]

theorem not_pauses_of_report (h : m.report ≠ .ok .running) (i : Nat) : ¬ m.Pauses i := by
  have hm : m.isActive = false := by simpa [report_eq_running_iff] using h
  have hexec := execute_of_not_isActive hm sliceLength
  induction i with
  | zero => rwa [pauses_zero_of_execute hexec]
  | succ i ih => rwa [pauses_succ_of_execute hexec]

theorem not_pauses_of_execute (h : m.execute sliceLength = (r, m')) (hr : r ≠ .ok .running)
    (i : Nat) : ¬ m.Pauses i := by
  cases i with
  | zero => rwa [pauses_zero_of_execute h]
  | succ i =>
    rw [pauses_succ_of_execute h]
    exact not_pauses_of_report ((answer_of_execute h).2 ▸ hr) i

/-- What a slice and the check after it decide. -/
theorem supervise_eq (m : Machine) (s : Signal) :
    m.supervise s = match m.execute sliceLength with
      | (.error f, _) => (.error f, s)
      | (.ok .halted, m') => (.ok m'.stack.top?, s)
      | (.ok .running, m') =>
        if s.shows 0 then (.error .interrupted, s.after 1) else m'.supervise (s.after 1) := by
  have hcheck : s.check = (s.shows 0, s.after 1) := rfl
  rw [supervise]
  split
  · next h => simp only [h]
  · next h => simp only [h]
  · next h =>
    simp only [h, hcheck]
    cases s.shows 0 <;> rfl

theorem supervise_of_stopped (h : m.execute sliceLength = (r, m')) (hr : r ≠ .ok .running)
    (s : Signal) : m.supervise s = (m.answer, s) := by
  obtain ⟨ha, hreport⟩ := answer_of_execute h
  rw [supervise_eq, h, ha, answer_of_report_ne (hreport ▸ hr), hreport]
  rcases r with f | _ | _
  · rfl
  · exact absurd rfl hr
  · rfl

/-- An evaluation ends at the first check that finds the flag raised. Otherwise it comes to its own
end, after as many checks as there are slices that need one. -/
theorem supervise_cases (m : Machine) (s : Signal) :
    (∃ i, m.Pauses i ∧ s.shows i ∧ (∀ j < i, s.shows j = false) ∧
      m.supervise s = (.error .interrupted, s.after (i + 1))) ∨
    ∃ k, (∀ i, m.Pauses i ↔ i < k) ∧ (∀ i < k, s.shows i = false) ∧
      m.supervise s = (m.answer, s.after k) := by
  obtain ⟨r, m', h⟩ : ∃ r m', m.execute sliceLength = (r, m') := ⟨_, _, rfl⟩
  by_cases hr : r = .ok .running
  · subst hr
    have hlt := remaining_of_execute (by decide) h
    have hzero := (pauses_zero_of_execute h).mpr rfl
    cases hs : s.shows 0 with
    | true =>
      refine .inl ⟨0, hzero, hs, by simp, ?_⟩
      rw [supervise_eq, h]
      exact if_pos hs
    | false =>
      have heq : m.supervise s = m'.supervise s.check.2 := by
        rw [supervise_eq, h]
        exact if_neg (by simp [hs])
      have hshows {k : Nat} (hk : ∀ i < k, s.check.2.shows i = false) :
          ∀ i < k + 1, s.shows i = false := by
        intro i hi
        cases i with
        | zero => exact hs
        | succ i => rw [s.shows_succ, hk i (by omega)]
      rw [heq, (answer_of_execute h).1]
      rcases supervise_cases m' s.check.2 with ⟨i, hp, hi, hbefore, hsup⟩ | ⟨k, hp, hk, hsup⟩
      · exact .inl ⟨i + 1, (pauses_succ_of_execute h).mpr hp, by rwa [s.shows_succ],
          hshows hbefore, hsup⟩
      · refine .inr ⟨k + 1, ?_, hshows hk, hsup⟩
        intro i
        cases i with
        | zero => exact iff_of_true hzero (Nat.succ_pos k)
        | succ i => rw [pauses_succ_of_execute h, hp, Nat.add_lt_add_iff_right]
  · refine .inr ⟨0, ?_, by simp, supervise_of_stopped h hr s⟩
    intro i
    exact iff_of_false (not_pauses_of_execute h hr i) (Nat.not_lt_zero i)
termination_by m.remaining

/-! ## No other fault is an interruption -/

theorem answer_ne_interrupted {memory : Memory} {b : Bytecode} {capacity : Nat}
    (hm : loadWith memory capacity b = .ok m) : m.answer ≠ .error .interrupted := by
  intro h
  obtain rfl := loadWith_eq_ok hm
  have hcall : ((loaded b capacity #[]).call .run).1 = .error .interrupted :=
    Fault.map_eq_error_iff.mpr (Fault.map_eq_error_iff.mp h)
  exact ((consistent_loaded b capacity).isOfCode_call hcall).1 rfl

theorem fault_of_load {memory : Memory} {b : Bytecode} (h : load memory b = .error f) :
    f = .cannotReserve defaultCapacity := by
  cases hg : memory.grants defaultCapacity with
  | true =>
    rw [load, loadWith_eq_ok_iff.mpr ⟨hg, rfl⟩] at h
    cases h
  | false =>
    simp only [load, loadWith, Stack.create, hg, bind, Except.bind] at h
    exact (Except.error.inj h).symm

end Machine

theorem category_of_parseTokens {ts : List Token} {f : Fault}
    (h : parseTokens ts = some (.error f)) :
    f.category = .syntaxError ∨ f.category = .overflow := by
  obtain ⟨s, rfl | ⟨what, rfl⟩⟩ := fault_of_parseTokens h
  · exact .inr rfl
  · exact .inl rfl

theorem Emission.Faulty.category {k : Nat} {before : List Expr} {e : Expr} {d : Diagnostic}
    (h : Faulty k before e d) :
    d.category = .unknownOperator ∨ d.category = .constantIndexOutOfRange := by
  cases h with
  | operator hop => exact .inl rfl
  | literal hk => exact .inr rfl

theorem Program.category_of_compile {p : Program} {f : Fault} (h : p.compile = .error f) :
    f.category = .unknownOperator ∨ f.category = .constantIndexOutOfRange := by
  have hadd : (Bytecode.empty.addNodes p.nodes).1 = .error f := by
    rw [← Bytecode.addProgram_fst]
    rw [compile] at h
    split at h
    · cases h
    · next hb => rw [hb, Except.error.inj h]
  obtain ⟨before, e, after, -, hfaulty, -⟩ := Bytecode.firstFault_of_addNodes hadd
  exact hfaulty.category

variable {memory : Memory} {source : String}

theorem loadSource_eq_ok_iff {m : Machine} : loadSource memory source = some (.ok m) ↔
    ∃ p b, parse source = some (.ok p) ∧ p.compile = .ok b ∧ Machine.load memory b = .ok m := by
  rw [loadSource, Option.map_eq_some_iff]
  constructor
  · rintro ⟨result, hparse, h⟩
    rw [Fault.bind_eq_ok_iff] at h
    obtain ⟨p, rfl, h⟩ := h
    obtain ⟨b, hb, hm⟩ := Fault.bind_eq_ok_iff.mp h
    exact ⟨p, b, hparse, hb, hm⟩
  · rintro ⟨p, b, hparse, hb, hm⟩
    exact ⟨.ok p, hparse, Fault.bind_eq_ok_iff.mpr ⟨p, rfl, Fault.bind_eq_ok_iff.mpr ⟨b, hb, hm⟩⟩⟩

theorem loadSource_ne_interrupted (memory : Memory) (source : String) :
    loadSource memory source ≠ some (.error .interrupted) := by
  intro h
  obtain ⟨result, hparse, h⟩ := Option.map_eq_some_iff.mp h
  cases result with
  | error f =>
    obtain rfl := Except.error.inj h
    rcases category_of_parseTokens hparse with hc | hc <;> cases hc
  | ok p =>
    cases hb : p.compile with
    | error f =>
      simp only [hb, bind, Except.bind] at h
      obtain rfl := Except.error.inj h
      rcases Program.category_of_compile hb with hc | hc <;> cases hc
    | ok b =>
      simp only [hb, bind, Except.bind] at h
      cases Machine.fault_of_load h

/-! ## How many instructions a slice needs -/

/-- Whole instructions are listed one a line. -/
theorem Listing.length_lines_of_assembles {is : List (Opcode × List Nat)} {code : List UInt8}
    (h : Assembles is code) : (lines code).length = is.length := by
  rw [lines_eq, length_linesFrom, entries_of_assembles h, List.length_map]

theorem Program.assembles_of_compile {p : Program} {b : Bytecode} (h : p.compile = .ok b) :
    ∃ is, Assembles is b.code.toList := by
  obtain ⟨-, hk, rfl⟩ := compile_eq_ok_iff.mp h
  have hcode : (Bytecode.empty.extend p.nodes).code.toList = Emission.code 0 p.nodes := by
    simp [Bytecode.extend, Bytecode.empty]
  rw [hcode]
  exact Emission.assembles_code (by rwa [Nat.zero_add])

namespace Machine

variable {b : Bytecode} {capacity n : Nat} {m : Machine}

theorem report_settle_eq_running_iff (h : m.status ≠ .ready) :
    m.settle.report = .ok .running ↔ m.isRunning ∧ m.ip < m.bytecode.code.size := by
  rw [report_eq_running_iff, settle]
  split
  · next hs =>
    refine iff_of_false (by simp [isActive, isRunning]) ?_
    rintro ⟨-, hlt⟩
    exact Nat.not_le_of_lt hlt hs.2
  · next hs =>
    constructor
    · intro ha
      have hr : m.isRunning := by simpa [isActive, h] using ha
      exact ⟨hr, Nat.lt_of_not_le fun hle => hs ⟨hr, hle⟩⟩
    · rintro ⟨hr, -⟩
      exact isActive_of_isRunning hr

/-- Without a fault an instruction is performed for each line of the listing. -/
theorem reaches_of_no_fault (hm : loadWith memory capacity b = .ok m)
    (hn : n ≤ (Listing.lines b.code.toList).length)
    (hf : ∀ k ≤ n, (advance k m.start).status ≠ .failed) : m.Reaches n := by
  induction n with
  | zero =>
    obtain rfl := loadWith_eq_ok hm
    rfl
  | succ n ih =>
    have hreach := ih (Nat.le_of_succ_le hn) fun k hk => hf k (Nat.le_succ_of_le hk)
    obtain ⟨es, rfl, hes⟩ := hreach.tracks hm
    rcases hes.line_cases with ⟨-, hlen, -⟩ | ⟨e, rest, hheads, -⟩
    · omega
    · by_contra hr
      rw [Reaches, advance_succ hreach] at hr
      obtain ⟨-, f, hfail, -⟩ := (obeys_step hheads hes.room).of_not_isRunning hreach hr
      refine hf _ le_rfl ?_
      rw [advance_succ hreach]
      exact hfail.status

/-- A slice is used up just if there are more instructions than it allows for and none of those
that it performs fails. -/
theorem execute_eq_running_iff (hm : loadWith memory capacity b = .ok m) :
    (m.execute n).1 = .ok .running ↔ n < (Listing.lines b.code.toList).length ∧
      ∀ k ≤ n, (advance k m.start).status ≠ .failed := by
  have hsettle := report_settle_eq_running_iff
    (status_advance_ne_ready (status_start_ne_ready m) n)
  rw [execute, hsettle]
  constructor
  · rintro ⟨hr, hlt⟩
    constructor
    · obtain ⟨es, rfl, hes⟩ := Reaches.tracks hm hr
      rcases hes.line_cases with ⟨-, -, hip⟩ | ⟨e, rest, -, hline⟩
      · rw [hes.bytecode, hip] at hlt
        exact absurd hlt (Nat.lt_irrefl _)
      · exact (List.getElem?_eq_some_iff.mp hline).1
    · intro k hk hf
      obtain ⟨j, rfl⟩ := Nat.exists_eq_add_of_le hk
      exact not_isRunning_of_failed hf (isRunning_of_advance_add hr)
  · rintro ⟨hlt, hf⟩
    have hreach := reaches_of_no_fault hm (Nat.le_of_lt hlt) hf
    refine ⟨hreach, ?_⟩
    obtain ⟨es, rfl, hes⟩ := hreach.tracks hm
    rcases hes.line_cases with ⟨-, hlen, -⟩ | ⟨e, rest, hheads, -⟩
    · omega
    · exact Nat.lt_of_not_le fun hle => hheads.ne_nil (ahead_eq_nil_iff.mpr hle)

end Machine

/-! ## A sum that can be made longer than a slice -/

namespace Expr

/-- The sum of `n + 1` zeros, from left to right. -/
def zeros : Nat → Expr
  | 0 => literal .nowhere 0
  | n + 1 => binary .nowhere .plus (zeros n) (literal .nowhere 0)

theorem literals_zeros (n : Nat) : (zeros n).literals = List.replicate (n + 1) 0 := by
  induction n with
  | zero => rfl
  | succ n ih => rw [zeros, literals, ih, literals, List.replicate_succ' (n := n + 1)]

theorem supported_zeros (n : Nat) : ∀ e ∈ (zeros n).postorder, e.Supported := by
  induction n with
  | zero => decide
  | succ n ih =>
    rw [zeros, postorder_binary, postorder_literal]
    simpa [or_imp, forall_and, Supported] using ih

theorem value_zeros {capacity : Nat} (h : 1 < capacity) (n : Nat) :
    (zeros n).value capacity 0 = .ok 0 := by
  induction n with
  | zero => exact value_literal_eq_ok_iff.mpr ⟨by omega, rfl⟩
  | succ n ih =>
    exact value_binary_eq_ok_iff.mpr ⟨0, 0, ih, value_literal_eq_ok_iff.mpr ⟨h, rfl⟩, rfl,
      by decide, rfl⟩

theorem length_bytes_zeros (k n : Nat) : ((zeros n).bytes k).length = 4 * n + 3 := by
  induction n with
  | zero => rfl
  | succ n ih =>
    simp only [zeros, bytes, List.length_append, ih, List.length_cons, List.length_nil]
    omega

end Expr

theorem Assembles.length_le {is : List (Opcode × List Nat)} {code : List UInt8}
    (h : Assembles is code) : code.length ≤ 3 * is.length := by
  induction h with
  | nil => exact Nat.le_refl 0
  | cons he _ ih =>
    rw [List.length_append, List.length_cons]
    rcases Opcode.encode_cases he with ⟨k, -, -, -, rfl⟩ | ⟨-, -, rfl⟩
    · rw [List.length_cons, BigEndian.length_encode]
      omega
    · rw [List.length_singleton]
      omega

theorem Machine.status_advance_of_answer {m : Machine} {v : Option Val} (h : m.answer = .ok v)
    (k : Nat) : (advance k m.start).status ≠ .failed := by
  intro hf
  have hexec : m.execute k = ((advance k m.start).report, advance k m.start) := by
    rw [execute, settle_of_not_isRunning (not_isRunning_of_failed hf)]
  have hne : (advance k m.start).report ≠ .ok .running := by
    simp [report, hf]
  rw [(answer_of_execute hexec).1, answer_of_report_ne hne, report, hf] at h
  cases h

theorem exists_compile_text {p : Program} {b : Bytecode} (hp : ∀ n ∈ p.literals, 0 ≤ n.toInt)
    (hb : p.compile = .ok b) : ∃ q, parse p.text = some (.ok q) ∧ q.compile = .ok b := by
  obtain ⟨q, hq, he⟩ := exists_parse_text hp
  refine ⟨q, hq, ?_⟩
  have hbe : p.erase.compile = .ok b := Program.compile_mapSpan_eq_ok_iff.mpr hb
  rw [← he] at hbe
  exact Program.compile_mapSpan_eq_ok_iff.mp hbe

namespace Program

def zeros (n : Nat) : Program := ⟨[.ofExpr (.zeros n)]⟩

theorem nodes_zeros (n : Nat) : (zeros n).nodes = (Expr.zeros n).postorder := List.append_nil _

theorem literals_zeros (n : Nat) : (zeros n).literals = List.replicate (n + 1) 0 :=
  (List.append_nil _).trans (Expr.literals_zeros n)

theorem compile_zeros {n : Nat} (h : n < maxConstants) : ∃ b, (zeros n).compile = .ok b ∧
    b.code.toList.length = 4 * n + 3 ∧
    (Machine.loaded b Machine.defaultCapacity #[]).answer = .ok (some (.integer 0)) := by
  have hk : (Emission.literals (zeros n).nodes).length ≤ maxConstants := by
    rw [literals_nodes, literals_zeros, List.length_replicate]
    exact h
  have hv : Statement.values Machine.defaultCapacity 0 (zeros n).statements = .ok [0] :=
    Statement.values_cons_eq_ok_iff.mpr ⟨0, [], Expr.value_zeros (by decide) n, rfl, rfl⟩
  refine ⟨_, compile_eq_ok_iff.mpr ⟨nodes_zeros n ▸ Expr.supported_zeros n, hk, rfl⟩, ?_, ?_⟩
  · rw [← Expr.length_bytes_zeros 0, ← Emission.code_postorder, ← nodes_zeros]
    simp [Bytecode.extend, Bytecode.empty]
  · rw [Machine.answer, Machine.run_loaded_of_ok hk hv]
    rfl

end Program

/-! ## The outcome of an evaluation -/

variable {s : Signal}

theorem evaluate_of_loadSource {m : Machine} (h : loadSource memory source = some (.ok m))
    (s : Signal) :
    evaluate memory source s = (some (m.supervise s).1, (m.supervise s).2) := by
  rw [evaluate, h]

theorem evaluate_of_error {f : Fault} (h : loadSource memory source = some (.error f))
    (s : Signal) : evaluate memory source s = (some (.error f), s) := by
  rw [evaluate, h]

theorem evaluate_of_none (h : loadSource memory source = none) (s : Signal) :
    evaluate memory source s = (none, s) := by
  rw [evaluate, h]

/-- An evaluation is interrupted at the first check that finds the flag raised, or else comes to
what it comes to on its own. -/
theorem evaluate_cases (memory : Memory) (source : String) (s : Signal) :
    (∃ m i, loadSource memory source = some (.ok m) ∧ m.Pauses i ∧ s.shows i ∧
      (∀ j < i, s.shows j = false) ∧
      evaluate memory source s = (some (.error .interrupted), s.after (i + 1))) ∨
    ∃ k, (∀ m i, loadSource memory source = some (.ok m) → m.Pauses i → i < k) ∧
      (∀ i < k, s.shows i = false) ∧ (evaluate memory source s).1 ≠ some (.error .interrupted) ∧
      evaluate memory source s = ((evaluate memory source (.still false)).1, s.after k) := by
  rcases h : loadSource memory source with _ | f | m
  · refine .inr ⟨0, by simp, by simp, ?_, ?_⟩
    · simp [evaluate_of_none h]
    · rw [evaluate_of_none h, evaluate_of_none h]
      rfl
  · have hf : f ≠ .interrupted := by
      rintro rfl
      exact loadSource_ne_interrupted memory source h
    refine .inr ⟨0, by simp, by simp, ?_, ?_⟩
    · simpa [evaluate_of_error h] using hf
    · rw [evaluate_of_error h, evaluate_of_error h]
      rfl
  · obtain ⟨p, b, -, -, hm⟩ := loadSource_eq_ok_iff.mp h
    rcases m.supervise_cases s with ⟨i, hp, hi, hbefore, hsup⟩ | ⟨k, hp, hk, hsup⟩
    · refine .inl ⟨m, i, rfl, hp, hi, hbefore, ?_⟩
      rw [evaluate_of_loadSource h, hsup]
    · refine .inr ⟨k, ?_, hk, ?_, ?_⟩
      · rintro m i ⟨⟩ hi
        exact (hp i).mp hi
      · rw [evaluate_of_loadSource h, hsup]
        exact fun heq => Machine.answer_ne_interrupted hm (Option.some.inj heq)
      · rw [evaluate_of_loadSource h, evaluate_of_loadSource h, hsup, m.supervise_still]

theorem evaluate_eq_interrupted_iff :
    (evaluate memory source s).1 = some (.error .interrupted) ↔
      ∃ m i, loadSource memory source = some (.ok m) ∧ m.Pauses i ∧ s.shows i := by
  rcases evaluate_cases memory source s with ⟨m, i, hm, hp, hi, -, heval⟩ | ⟨k, hp, hk, hne, -⟩
  · rw [heval]
    exact iff_of_true rfl ⟨m, i, hm, hp, hi⟩
  · refine iff_of_false hne ?_
    rintro ⟨m, i, hm, hpi, hi⟩
    rw [hk i (hp m i hm hpi)] at hi
    cases hi

theorem Signal.shows_still_true_iff {i : Nat} : (still true).shows i ↔ i = 0 := by
  cases i <;> simp [shows, still]

/-- With the flag raised beforehand, just the texts of more instructions than a slice has are
interrupted, if the first ones do not fail. -/
theorem evaluate_still_true_iff :
    (evaluate memory source (.still true)).1 = some (.error .interrupted) ↔
      ∃ p b is m, parse source = some (.ok p) ∧ p.compile = .ok b ∧ Assembles is b.code.toList ∧
        sliceLength < is.length ∧ Machine.load memory b = .ok m ∧
        ∀ k ≤ sliceLength, (Machine.advance k m.start).status ≠ .failed := by
  rw [evaluate_eq_interrupted_iff]
  constructor
  · rintro ⟨m, i, hm, hp, hi⟩
    obtain rfl := Signal.shows_still_true_iff.mp hi
    obtain ⟨p, b, hparse, hb, hload⟩ := loadSource_eq_ok_iff.mp hm
    obtain ⟨is, his⟩ := Program.assembles_of_compile hb
    obtain ⟨hlt, hf⟩ := (Machine.execute_eq_running_iff hload).mp hp
    rw [Listing.length_lines_of_assembles his] at hlt
    exact ⟨p, b, is, m, hparse, hb, his, hlt, hload, hf⟩
  · rintro ⟨p, b, is, m, hparse, hb, his, hlt, hload, hf⟩
    refine ⟨m, 0, loadSource_eq_ok_iff.mpr ⟨p, b, hparse, hb, hload⟩, ?_, rfl⟩
    rw [← Listing.length_lines_of_assembles his] at hlt
    exact (Machine.execute_eq_running_iff hload).mpr ⟨hlt, hf⟩

/-- An evaluation is interrupted just if the flag is raised at a check after some slice, at the
first such check, which lowers it. Otherwise it is as if the flag had not been there, and whatever
the flag was it still is. -/
theorem evaluate_interrupted (memory : Memory) (source : String) (s : Signal) :
    ((evaluate memory source s).1 = some (.error .interrupted) ↔
      ∃ m i, loadSource memory source = some (.ok m) ∧ m.Pauses i ∧ s.shows i) ∧
    (∀ m i, loadSource memory source = some (.ok m) → m.Pauses i → s.shows i →
      (∀ j < i, s.shows j = false) →
      (evaluate memory source s).2 = s.after (i + 1) ∧
        (evaluate memory source s).2.raised = false) ∧
    ((evaluate memory source s).1 ≠ some (.error .interrupted) →
      (evaluate memory source s).1 = (evaluate memory source (.still false)).1 ∧
      ∃ k, (∀ i < k, s.shows i = false) ∧ (evaluate memory source s).2 = s.after k ∧
        (evaluate memory source s).2.raised = s.raised) ∧
    ((evaluate memory source (.still true)).1 = some (.error .interrupted) ↔
      ∃ p b is m, parse source = some (.ok p) ∧ p.compile = .ok b ∧ Assembles is b.code.toList ∧
        sliceLength < is.length ∧ Machine.load memory b = .ok m ∧
        ∀ k ≤ sliceLength, (Machine.advance k m.start).status ≠ .failed) ∧
    ((evaluate memory source (.still true)).1 = some (.error .interrupted) →
      (evaluate memory source (.still true)).2 = .still false) ∧
    ((evaluate memory source (.still true)).1 ≠ some (.error .interrupted) →
      (evaluate memory source (.still true)).2 = .still true) := by
  refine ⟨evaluate_eq_interrupted_iff, ?_, ?_, evaluate_still_true_iff, ?_, ?_⟩
  · intro m i hm hp hi hbefore
    rcases evaluate_cases memory source s with
      ⟨m', i', -, -, hi', hbefore', heval⟩ | ⟨k, hpk, hk, -, -⟩
    · have heq : i' = i := by
        rcases Nat.lt_trichotomy i' i with hlt | heq | hlt
        · exact absurd hi' (by simp [hbefore i' hlt])
        · exact heq
        · exact absurd hi (by simp [hbefore' i hlt])
      rw [heval, heq]
      exact ⟨rfl, s.raised_after_succ i⟩
    · exact absurd hi (by simp [hk i (hpk m i hm hp)])
  · intro hne
    rcases evaluate_cases memory source s with ⟨m, i, -, -, -, -, heval⟩ | ⟨k, -, hk, -, heval⟩
    · exact absurd (congrArg Prod.fst heval) hne
    · obtain ⟨hresult, hsignal⟩ := Prod.ext_iff.mp heval
      refine ⟨hresult, k, hk, hsignal, ?_⟩
      rw [hsignal]
      exact Signal.raised_after hk
  · intro h
    rcases evaluate_cases memory source (.still true) with
      ⟨m, i, -, -, hi, -, heval⟩ | ⟨k, -, -, hne, -⟩
    · obtain rfl := Signal.shows_still_true_iff.mp hi
      exact congrArg Prod.snd heval
    · exact absurd h hne
  · intro hne
    rcases evaluate_cases memory source (.still true) with
      ⟨m, i, -, -, -, -, heval⟩ | ⟨k, -, hk, -, heval⟩
    · exact absurd (congrArg Prod.fst heval) hne
    · cases k with
      | zero => exact congrArg Prod.snd heval
      | succ k => exact absurd (hk 0 (Nat.succ_pos k)) (by simp [Signal.shows, Signal.still])

/-- A long sum comes to its value, but not while the flag is raised. -/
theorem evaluate_interrupted_long_sum : ∃ source,
    evaluate .addressSpace source (.still true) = (some (.error .interrupted), .still false) ∧
    evaluate .addressSpace source (.still false) =
      (some (.ok (some (.integer 0))), .still false) := by
  -- a literal number of zeros would be unfolded to that many terms
  obtain ⟨n, hlong, hsmall⟩ : ∃ n, 3750 ≤ n ∧ n < maxConstants := ⟨3750, by decide, by decide⟩
  obtain ⟨b, hb, hlength, hanswer⟩ := Program.compile_zeros hsmall
  have hnonneg : ∀ i ∈ (Program.zeros n).literals, 0 ≤ i.toInt := by
    intro i hi
    rw [Program.literals_zeros] at hi
    obtain rfl := List.eq_of_mem_replicate hi
    decide
  obtain ⟨q, hq, hb⟩ := exists_compile_text hnonneg hb
  obtain ⟨is, his⟩ := Program.assembles_of_compile hb
  have hslice : sliceLength < is.length := by
    have hle := his.length_le
    rw [sliceLength]
    omega
  have hm : Machine.load .addressSpace b = .ok (.loaded b Machine.defaultCapacity #[]) := rfl
  obtain ⟨-, -, -, hiff, hlowered, -⟩ :=
    evaluate_interrupted .addressSpace (Program.zeros n).text (.still true)
  have hint := hiff.mpr ⟨q, b, is, _, hq, hb, his, hslice, hm,
    fun k _ => Machine.status_advance_of_answer hanswer k⟩
  refine ⟨_, Prod.ext hint (hlowered hint), ?_⟩
  rw [evaluate_of_loadSource (loadSource_eq_ok_iff.mpr ⟨q, b, hq, hb, hm⟩),
    Machine.supervise_still, hanswer]

end ByteCalc
