import ByteCalc.Proofs.ArtifactFormat

/-! # Damage that a checksum finds

The register of the checksum is shifted without loss, and a difference in it
feeds back only after 32 bits. Messages that differ in no more than four bytes
next to each other have therefore different checksums. An artifact with such
damage is refused.
-/

namespace ByteCalc

namespace Checksum

variable {r s : UInt32} {bs cs : List UInt8}

theorem and_one_eq_zero_iff : r &&& 1 = 0 ↔ ¬ r.toNat % 2 = 1 := by
  have hand : (r &&& 1).toNat = r.toNat % 2 :=
    (UInt32.toNat_and r 1).trans (Nat.and_one_is_mod r.toNat)
  rw [← UInt32.toNat_inj, hand, UInt32.toNat_zero]
  omega

theorem toNat_shiftRight_one (r : UInt32) : (r >>> 1).toNat = r.toNat / 2 :=
  (UInt32.toNat_shiftRight r 1).trans (Nat.shiftRight_one r.toNat)

/-- Shifting commutes with exclusive or. -/
theorem shiftBit_xor (r s : UInt32) : shiftBit (r ^^^ s) = shiftBit r ^^^ shiftBit s := by
  have hxor : (r ^^^ s) &&& 1 = 0 ↔ (r &&& 1 = 0 ↔ s &&& 1 = 0) := by
    simp only [and_one_eq_zero_iff, UInt32.toNat_xor, Nat.xor_mod_two_eq_one, not_not, not_iff_not]
  unfold shiftBit
  by_cases hr : r &&& 1 = 0 <;> by_cases hs : s &&& 1 = 0 <;>
    simp only [hxor, hr, hs, if_true, if_false, iff_true, iff_false, not_true_eq_false,
      UInt32.shiftRight_xor]
  · rw [UInt32.xor_assoc]
  · rw [UInt32.xor_assoc, UInt32.xor_assoc, UInt32.xor_comm (s >>> 1)]
  · -- the polynomial is fed back twice and cancels
    rw [UInt32.xor_comm (s >>> 1), UInt32.xor_assoc, ← UInt32.xor_assoc 0xEDB88320,
      UInt32.xor_self, UInt32.zero_xor]

/-- A register whose highest bit is clear after a shift had its lowest bit clear before. -/
theorem toNat_of_shiftBit_lt (h : (shiftBit r).toNat < 2 ^ 31) :
    r.toNat = 2 * (shiftBit r).toNat := by
  have hhalf : (r >>> 1).toNat < 2 ^ 31 := by
    have := r.toNat_lt
    rw [toNat_shiftRight_one]
    omega
  by_cases hr : r &&& 1 = 0
  · have hmod := and_one_eq_zero_iff.mp hr
    rw [shiftBit, if_pos hr, toNat_shiftRight_one]
    omega
  · -- the polynomial has its highest bit set, and nothing that is shifted down has
    rw [shiftBit, if_neg hr, UInt32.toNat_xor] at h
    have hpoly := Nat.xor_lt_two_pow hhalf h
    rw [← Nat.xor_assoc, Nat.xor_self, Nat.zero_xor] at hpoly
    exact absurd hpoly (by decide)

/-- As long as nothing has been fed back, so many shifts are a division. -/
theorem toNat_of_iterate_shiftBit_lt {n : Nat} (hn : n ≤ 32)
    (h : (shiftBit^[n] r).toNat < 2 ^ (32 - n)) :
    r.toNat = 2 ^ n * (shiftBit^[n] r).toNat := by
  induction n generalizing r with
  | zero => simp
  | succ n ih =>
    rw [Function.iterate_succ_apply] at h ⊢
    have hrest := ih (by omega) (h.trans (Nat.pow_lt_pow_right Nat.one_lt_two (by omega)))
    have hlt : (shiftBit r).toNat < 2 ^ 31 := by
      calc (shiftBit r).toNat
          = 2 ^ n * (shiftBit^[n] (shiftBit r)).toNat := hrest
        _ < 2 ^ n * 2 ^ (32 - (n + 1)) := Nat.mul_lt_mul_of_pos_left h (Nat.two_pow_pos n)
        _ = 2 ^ 31 := by rw [← Nat.pow_add]; congr 1; omega
    rw [toNat_of_shiftBit_lt hlt, hrest, Nat.pow_succ', Nat.mul_assoc]

theorem shiftByte_xor (r s : UInt32) : shiftByte (r ^^^ s) = shiftByte r ^^^ shiftByte s := by
  simp only [shiftByte, shiftBit_xor]

theorem toNat_of_shiftByte_lt (h : (shiftByte r).toNat < 2 ^ 24) :
    r.toNat = 256 * (shiftByte r).toNat :=
  toNat_of_iterate_shiftBit_lt (n := 8) (by decide) h

/-- As long as nothing has been fed back, two bytes move the difference between the registers down
by a byte, after they have been added to it. -/
theorem toNat_xor_of_absorb_lt {b c : UInt8} (h : (absorb r b ^^^ absorb s c).toNat < 2 ^ 24) :
    (r ^^^ s ^^^ (b ^^^ c).toUInt32).toNat = 256 * (absorb r b ^^^ absorb s c).toNat := by
  have hxor : absorb r b ^^^ absorb s c = shiftByte (r ^^^ s ^^^ (b ^^^ c).toUInt32) := by
    rw [absorb, absorb, ← shiftByte_xor, UInt8.toUInt32_xor]
    congr 1
    ac_rfl
  rw [hxor] at h ⊢
  exact toNat_of_shiftByte_lt h

theorem absorb_injective (b : UInt8) : Function.Injective (absorb · b) := by
  intro r s h
  have hzero : absorb r b ^^^ absorb s b = 0 := UInt32.xor_eq_zero_iff.mpr h
  have hxor := toNat_xor_of_absorb_lt (r := r) (s := s) (b := b) (c := b) (by rw [hzero]; decide)
  rw [hzero, UInt8.xor_self, show UInt8.toUInt32 0 = 0 from rfl, UInt32.xor_zero] at hxor
  exact UInt32.xor_eq_zero_iff.mp (UInt32.toNat_inj.mp hxor)

/-- The rest of a message does not hide a difference in the register. -/
theorem foldl_absorb_injective (bs : List UInt8) : Function.Injective (bs.foldl absorb) := by
  induction bs with
  | nil => exact fun _ _ h => h
  | cons b bs ih => exact ih.comp (absorb_injective b)

/-- Registers that some bytes bring together differ in as many of their lowest bytes at most. -/
theorem toNat_xor_lt_of_foldl_absorb (hlen : bs.length = cs.length) (hle : bs.length ≤ 4)
    (h : bs.foldl absorb r = cs.foldl absorb s) : (r ^^^ s).toNat < 2 ^ (8 * bs.length) := by
  induction bs generalizing cs r s with
  | nil =>
    obtain rfl := List.length_eq_zero_iff.mp hlen.symm
    obtain rfl : r = s := h
    rw [UInt32.xor_self]
    decide
  | cons b bs ih =>
    obtain ⟨c, cs, rfl⟩ := List.exists_cons_of_length_eq_add_one hlen.symm
    rw [List.length_cons] at hle ⊢
    have hrest := ih (Nat.succ.inj hlen) (by omega) h
    have hfit : 2 ^ (8 * bs.length) ≤ 2 ^ 24 := Nat.pow_le_pow_right Nat.two_pos (by omega)
    have hxor := toNat_xor_of_absorb_lt (hrest.trans_le hfit)
    have hpow : 2 ^ (8 * (bs.length + 1)) = 256 * 2 ^ (8 * bs.length) := by
      rw [Nat.mul_succ, Nat.pow_add, Nat.mul_comm]
    have hdiff : r ^^^ s = r ^^^ s ^^^ (b ^^^ c).toUInt32 ^^^ (b ^^^ c).toUInt32 := by
      rw [UInt32.xor_assoc, UInt32.xor_self, UInt32.xor_zero]
    rw [hdiff, UInt32.toNat_xor, UInt8.toNat_toUInt32]
    refine Nat.xor_lt_two_pow (by omega) ((b ^^^ c).toNat_lt.trans_le ?_)
    exact Nat.pow_le_pow_right Nat.two_pos (by omega)

/-- Up to four bytes are known from the registers before and after them. -/
theorem eq_of_foldl_absorb (hlen : bs.length = cs.length) (hle : bs.length ≤ 4)
    (h : bs.foldl absorb r = cs.foldl absorb r) : bs = cs := by
  induction bs generalizing cs r with
  | nil => exact (List.length_eq_zero_iff.mp hlen.symm).symm
  | cons b bs ih =>
    obtain ⟨c, cs, rfl⟩ := List.exists_cons_of_length_eq_add_one hlen.symm
    rw [List.length_cons] at hle
    have hrest := toNat_xor_lt_of_foldl_absorb (Nat.succ.inj hlen) (by omega) h
    have hfit : 2 ^ (8 * bs.length) ≤ 2 ^ 24 := Nat.pow_le_pow_right Nat.two_pos (by omega)
    -- The register before the two bytes is the same, and they differ in less than a byte.
    have hxor := toNat_xor_of_absorb_lt (hrest.trans_le hfit)
    rw [UInt32.xor_self, UInt32.zero_xor, UInt8.toNat_toUInt32] at hxor
    have hlt := (b ^^^ c).toNat_lt
    have hzero : (b ^^^ c).toNat = 0 := by omega
    obtain rfl := UInt8.xor_eq_zero_iff.mp (UInt8.toNat_inj.mp hzero)
    rw [ih (Nat.succ.inj hlen) (by omega) h]

/-- Messages that differ in a window of up to four bytes have different checksums. -/
theorem crc32_ne_of_window {pre post ws vs : List UInt8} (hlen : ws.length = vs.length)
    (hle : ws.length ≤ 4) (hne : ws ≠ vs) :
    crc32 (pre ++ ws ++ post) ≠ crc32 (pre ++ vs ++ post) := by
  intro h
  rw [crc32, crc32, UInt32.xor_left_inj, List.foldl_append, List.foldl_append, List.foldl_append,
    List.foldl_append] at h
  exact hne (eq_of_foldl_absorb hlen hle (foldl_absorb_injective post h))

end Checksum

/-- Two lists differ at no position before `i` and at none from `j` on. -/
def DifferWithin {α : Type} (i j : Nat) (xs ys : List α) : Prop :=
  ∀ k, xs[k]? ≠ ys[k]? → i ≤ k ∧ k < j

namespace DifferWithin

variable {α : Type} {i j n : Nat} {xs ys : List α}

theorem take_eq (h : DifferWithin i j xs ys) (hn : n ≤ i) : xs.take n = ys.take n := by
  apply List.ext_getElem?
  intro k
  rw [List.getElem?_take, List.getElem?_take]
  split
  · by_contra hk
    have := (h k hk).1
    omega
  · rfl

theorem drop_eq (h : DifferWithin i j xs ys) (hn : j ≤ n) : xs.drop n = ys.drop n := by
  apply List.ext_getElem?
  intro k
  rw [List.getElem?_drop, List.getElem?_drop]
  by_contra hk
  have := (h (n + k) hk).2
  omega

theorem take (h : DifferWithin i j xs ys) (n : Nat) : DifferWithin i j (xs.take n) (ys.take n) := by
  intro k hk
  rw [List.getElem?_take, List.getElem?_take] at hk
  split at hk
  · exact h k hk
  · exact absurd rfl hk

instance [DecidableEq α] : Decidable (DifferWithin i j xs ys) :=
  decidable_of_iff (∀ k < max xs.length ys.length, xs[k]? ≠ ys[k]? → i ≤ k ∧ k < j) <| by
    constructor
    · intro h k hk
      refine h k ?_ hk
      by_contra hlt
      rw [List.getElem?_eq_none (by omega), List.getElem?_eq_none (by omega)] at hk
      exact hk rfl
    · exact fun h k _ => h k

/-- The two lists around the window in which they differ. -/
theorem exists_window (h : DifferWithin i j xs ys) (hij : i ≤ j) (hlen : xs.length = ys.length) :
    ∃ pre ws vs post, xs = pre ++ ws ++ post ∧ ys = pre ++ vs ++ post ∧
      ws.length = vs.length ∧ ws.length ≤ j - i := by
  have hsplit (zs : List α) :
      zs = zs.take i ++ (zs.drop i).take (j - i) ++ zs.drop j := by
    rw [List.append_assoc]
    nth_rewrite 1 [← List.take_append_drop i zs]
    nth_rewrite 1 [← List.take_append_drop (j - i) (zs.drop i)]
    rw [List.drop_drop, Nat.add_sub_cancel' hij]
  refine ⟨xs.take i, (xs.drop i).take (j - i), (ys.drop i).take (j - i), xs.drop j, hsplit xs, ?_,
    ?_, ?_⟩
  · rw [h.take_eq le_rfl, h.drop_eq le_rfl]
    exact hsplit ys
  · simp [hlen]
  · simp

end DifferWithin

namespace Artifact

open Checksum

variable {message message' sum sum' : List UInt8} {b : Bytecode}

theorem crc32_of_decode_append (hsum : sum.length = 4) (h : decode (message ++ sum) = .ok b) :
    (crc32 message).toNat = BigEndian.decode sum := by
  rw [decode, decodeUnder_append message sum hsum] at h
  split at h
  · assumption
  · cases h

theorem decode_of_crc32_ne (hsum : sum.length = 4)
    (h : (crc32 message).toNat ≠ BigEndian.decode sum) :
    decode (message ++ sum) = .error .checksumMismatch := by
  rw [decode, decodeUnder_append message sum hsum, if_neg h]

theorem decode_of_damaged_sum (hsum : sum.length = 4) (hsum' : sum'.length = 4)
    (h : decode (message ++ sum) = .ok b) (hne : sum' ≠ sum) :
    decode (message ++ sum') = .error .checksumMismatch := by
  apply decode_of_crc32_ne hsum'
  rw [crc32_of_decode_append hsum h]
  intro heq
  apply hne
  rw [← BigEndian.encode_decode sum', ← BigEndian.encode_decode sum, hsum, hsum', heq]

theorem decode_of_damaged_body {k : Nat} (hsum : sum.length = 4)
    (hlen : message.length = message'.length) (hdiff : DifferWithin k (k + 4) message message')
    (h : decode (message ++ sum) = .ok b) (hne : message' ≠ message) :
    decode (message' ++ sum) = .error .checksumMismatch := by
  apply decode_of_crc32_ne hsum
  rw [← crc32_of_decode_append hsum h]
  obtain ⟨pre, ws, vs, post, rfl, rfl, hws, hle⟩ := hdiff.exists_window (Nat.le_add_right k 4) hlen
  have hwv : ws ≠ vs := by
    rintro rfl
    exact hne rfl
  intro heq
  exact crc32_ne_of_window hws (by omega) hwv (UInt32.toNat_inj.mp heq).symm

/-- Damage is found where it is confined to four consecutive bytes of the body or to the checksum:
the artifact is refused because its checksum does not fit. -/
theorem decode_of_local_damage {bs cs : List UInt8} {b : Bytecode} (h : decode bs = .ok b)
    (hlen : cs.length = bs.length) (hne : cs ≠ bs)
    (hdiff : (∃ k, k + 4 ≤ bs.length - 4 ∧ DifferWithin k (k + 4) bs cs) ∨
      DifferWithin (bs.length - 4) bs.length bs cs) :
    ∃ f, decode cs = .error f ∧ f.category = .malformedBytecode ∧
      f.note = "CHECKSUM MISMATCH" := by
  refine ⟨.checksumMismatch, ?_, rfl, rfl⟩
  obtain ⟨message, sum, rfl, hsum⟩ : ∃ message sum, bs = message ++ sum ∧ sum.length = 4 := by
    apply exists_append_of_length_le
    by_contra hlt
    rw [decode, decodeUnder_of_length_lt (Nat.lt_of_not_le hlt)] at h
    cases h
  obtain ⟨message', sum', rfl, hsum'⟩ :
      ∃ message' sum', cs = message' ++ sum' ∧ sum'.length = 4 := by
    apply exists_append_of_length_le
    rw [hlen, List.length_append]
    omega
  have hbody : message'.length = message.length := by
    rw [List.length_append, List.length_append] at hlen
    omega
  rw [List.length_append, hsum, Nat.add_sub_cancel] at hdiff
  rcases hdiff with ⟨k, hk, hdiff⟩ | hdiff
  · obtain rfl : sum = sum' := by
      simpa [hbody] using hdiff.drop_eq hk
    have hdiff' : DifferWithin k (k + 4) message message' := by
      simpa [hbody] using hdiff.take message.length
    refine decode_of_damaged_body hsum hbody.symm hdiff' h ?_
    rintro rfl
    exact hne rfl
  · obtain rfl : message = message' := by
      simpa [hbody] using hdiff.take_eq le_rfl
    refine decode_of_damaged_sum hsum hsum' h ?_
    rintro rfl
    exact hne rfl

/-- Four bytes of code overwritten, so that the body is still that of some bytecode. -/
theorem decode_of_local_damage_in_code :
    decode (sign crc32 (body ⟨#[0, 0, 1, 1], #[]⟩)) = .ok ⟨#[0, 0, 1, 1], #[]⟩ ∧
    ∃ f, decode (body ⟨#[1, 2, 3, 4], #[]⟩ ++
        BigEndian.encode 4 (crc32 (body ⟨#[0, 0, 1, 1], #[]⟩)).toNat) = .error f ∧
      f.category = .malformedBytecode ∧ f.note = "CHECKSUM MISMATCH" := by
  have h : decode (sign crc32 (body ⟨#[0, 0, 1, 1], #[]⟩)) = .ok ⟨#[0, 0, 1, 1], #[]⟩ :=
    (decodeUnder_sign _).trans (decodeBody_body (by decide) (by decide))
  exact ⟨h, decode_of_local_damage h rfl (by decide +kernel)
    (.inl ⟨13, by decide +kernel, by decide +kernel⟩)⟩

end Artifact

end ByteCalc
