/-! # Big-endian numbers

Numbers as bytes, the most significant byte first.
-/

namespace ByteCalc.BigEndian

/-- The lowest `width` bytes of a number. -/
def encode : Nat → Nat → List UInt8
  | 0, _ => []
  | width + 1, n => encode width (n / 256) ++ [UInt8.ofNat n]

/-- The number that a list of bytes stands for. -/
def decode (bytes : List UInt8) : Nat := bytes.foldl (fun n b => 256 * n + b.toNat) 0

/-- Like `decode`, but in a register of 64 bits, so that only the last eight bytes count. -/
def word (bytes : List UInt8) : UInt64 := bytes.foldl (fun n b => 256 * n + b.toUInt64) 0

/-- The first number that does not fit in so many bytes. -/
def limit (width : Nat) : Nat := 1 <<< (8 * width)

@[simp] theorem limit_zero : limit 0 = 1 := rfl

theorem limit_succ (width : Nat) : limit (width + 1) = 256 * limit width := by
  rw [limit, limit, Nat.mul_succ, Nat.shiftLeft_add, Nat.shiftLeft_eq _ 8, Nat.mul_comm]

@[simp] theorem length_encode (width n : Nat) : (encode width n).length = width := by
  induction width generalizing n with
  | zero => rfl
  | succ width ih => simp [encode, ih]

@[simp] theorem decode_nil : decode [] = 0 := rfl

theorem decode_concat (bytes : List UInt8) (b : UInt8) :
    decode (bytes ++ [b]) = 256 * decode bytes + b.toNat := by
  simp [decode]

theorem decode_encode (width n : Nat) : decode (encode width n) = n % limit width := by
  induction width generalizing n with
  | zero => simp [encode, Nat.mod_one]
  | succ width ih =>
    rw [encode, decode_concat, ih, limit_succ, Nat.mod_mul]
    simp [Nat.add_comm]

theorem decode_lt (bytes : List UInt8) : decode bytes < limit bytes.length := by
  suffices h : ∀ (bs : List UInt8) n, bs.foldl (fun n b => 256 * n + b.toNat) n
      < (n + 1) * limit bs.length by simpa [decode] using h bytes 0
  intro bs
  induction bs with
  | nil => simp
  | cons b bs ih =>
    intro n
    refine Nat.lt_of_lt_of_le (ih _) ?_
    rw [List.length_cons, limit_succ, ← Nat.mul_assoc]
    exact Nat.mul_le_mul_right _ (by have := b.toNat_lt; dsimp only; omega)

theorem encode_decode (bytes : List UInt8) : encode bytes.length (decode bytes) = bytes := by
  generalize hwidth : bytes.length = width
  induction width generalizing bytes with
  | zero =>
    obtain rfl := List.length_eq_zero_iff.1 hwidth
    rfl
  | succ width ih =>
    have hne : bytes ≠ [] := List.ne_nil_of_length_eq_add_one hwidth
    have hlast := List.dropLast_concat_getLast hne
    generalize bytes.dropLast = front, bytes.getLast hne = b at hlast
    subst hlast
    have hfront : front.length = width := by simpa using hwidth
    have hb : b.toNat < 256 := b.toNat_lt
    have hdiv : (256 * decode front + b.toNat) / 256 = decode front := by omega
    have hmod : UInt8.ofNat (256 * decode front + b.toNat) = b := by
      rw [← UInt8.toNat_inj, UInt8.toNat_ofNat']
      omega
    rw [decode_concat, encode, hdiv, hmod, ih front hfront]

/-- The bytes of a number that fits are the only ones of their length that stand for it. -/
theorem eq_encode_iff {width n : Nat} {bytes : List UInt8} :
    n < limit width ∧ bytes = encode width n ↔ bytes.length = width ∧ decode bytes = n := by
  constructor
  · rintro ⟨hn, rfl⟩
    rw [length_encode, decode_encode]
    exact ⟨rfl, Nat.mod_eq_of_lt hn⟩
  · rintro ⟨rfl, rfl⟩
    exact ⟨decode_lt bytes, (encode_decode bytes).symm⟩

theorem toNat_word (bytes : List UInt8) : (word bytes).toNat = decode bytes % UInt64.size := by
  suffices h : ∀ (bs : List UInt8) (w : UInt64) (n : Nat), w.toNat = n % UInt64.size →
      (bs.foldl (fun w b => 256 * w + b.toUInt64) w).toNat
        = bs.foldl (fun n b => 256 * n + b.toNat) n % UInt64.size by
    exact h bytes 0 0 rfl
  intro bs
  induction bs with
  | nil => exact fun _ _ h => h
  | cons b bs ih =>
    intro w n h
    refine ih _ _ ?_
    simp only [UInt64.toNat_add, UInt64.toNat_mul, UInt8.toNat_toUInt64, h]
    simp

end ByteCalc.BigEndian
