import Mathlib.Algebra.Order.Ring.Int
import Mathlib.Data.List.Induction
import ByteCalc.Bytecode.Artifact

/-! # The format of artifacts

The parts of an artifact, and how they lie in its bytes. Reading accepts the
bytes of all parts and no others. Writing gives the same bytes again, except
that a truth value is written as zero or one. None of this depends on how the
checksum is computed.
-/

namespace ByteCalc

namespace Artifact

/-- The integer that eight bytes stand for. -/
def twosComplement (bytes : List UInt8) : Int :=
  if BigEndian.decode bytes < 2 ^ 63 then BigEndian.decode bytes
  else BigEndian.decode bytes - 2 ^ 64

/-- A constant as it stands in an artifact, without its tag. -/
inductive Field where
  | integer (payload : List UInt8) (length_payload : payload.length = 8)
  | boolean (payload : UInt8)

namespace Field

def bytes : Field → List UInt8
  | integer payload _ => 0 :: payload
  | boolean payload => [1, payload]

def value : Field → Val
  | integer payload _ => .integer (.ofInt (twosComplement payload))
  | boolean payload => .boolean (payload != 0)

end Field

/-- What an artifact consists of, apart from its checksum. -/
structure Parts where
  fields : List Field
  code : List UInt8
  length_fields : fields.length < 2 ^ 32
  length_code : code.length < 2 ^ 32

namespace Parts

def body (a : Parts) : List UInt8 :=
  [0x4D, 0x4B, 0x42, 0x43] ++ [1] ++ BigEndian.encode 4 a.fields.length
    ++ a.fields.flatMap Field.bytes ++ BigEndian.encode 4 a.code.length ++ a.code

/-- The body and its checksum. -/
def bytes (checksum : List UInt8 → UInt32) (a : Parts) : List UInt8 :=
  a.body ++ BigEndian.encode 4 (checksum a.body).toNat

def bytecode (a : Parts) : Bytecode := ⟨a.code.toArray, (a.fields.map Field.value).toArray⟩

end Parts

section Payload

variable {bytes : List UInt8} (h : bytes.length = 8)

include h

theorem decode_payload_lt : BigEndian.decode bytes < 2 ^ 64 := by
  have hlt := BigEndian.decode_lt bytes
  rwa [h] at hlt

theorem ofInt_twosComplement :
    Int64.ofInt (twosComplement bytes) = (UInt64.ofNat (BigEndian.decode bytes)).toInt64 := by
  have hlt := decode_payload_lt h
  rw [← Int64.toBitVec_inj, Int64.toBitVec_ofInt, UInt64.toBitVec_toInt64, UInt64.toBitVec_ofNat']
  apply BitVec.eq_of_toNat_eq
  rw [BitVec.toNat_ofInt, BitVec.toNat_ofNat, twosComplement]
  split <;> omega

theorem encode_ofInt_twosComplement :
    BigEndian.encode 8 (Int64.ofInt (twosComplement bytes)).toUInt64.toNat = bytes := by
  rw [ofInt_twosComplement h, UInt64.toUInt64_toInt64, UInt64.toNat_ofNat',
    Nat.mod_eq_of_lt (decode_payload_lt h), ← h]
  exact BigEndian.encode_decode bytes

end Payload

/-! ## Reading -/

variable {checksum : List UInt8 → UInt32} {bs rest : List UInt8} {n : Nat}

theorem take_eq_ok_iff {xs : List UInt8} :
    take n bs = .ok (xs, rest) ↔ bs = xs ++ rest ∧ xs.length = n := by
  simp only [take]
  constructor
  · intro h
    split at h
    · next hn =>
      cases h
      exact ⟨(List.take_append_drop n bs).symm, hn⟩
    · cases h
  · rintro ⟨rfl, rfl⟩
    simp

theorem takeByte_eq_ok_iff {b : UInt8} : takeByte bs = .ok (b, rest) ↔ bs = b :: rest := by
  cases bs <;> simp [takeByte]

theorem takeNumber_eq_ok_iff {width : Nat} :
    takeNumber width bs = .ok (n, rest) ↔
      n < BigEndian.limit width ∧ bs = BigEndian.encode width n ++ rest := by
  simp only [takeNumber, Fault.bind_eq_ok_iff, Prod.exists, take_eq_ok_iff]
  constructor
  · rintro ⟨xs, _, ⟨rfl, hw⟩, h⟩
    cases h
    obtain ⟨hn, hxs⟩ := BigEndian.eq_encode_iff.mpr ⟨hw, rfl⟩
    exact ⟨hn, by rw [← hxs]⟩
  · rintro ⟨hn, rfl⟩
    obtain ⟨hw, hd⟩ := BigEndian.eq_encode_iff.mp ⟨hn, rfl⟩
    exact ⟨_, rest, ⟨rfl, hw⟩, by rw [hd]; rfl⟩

theorem takeMagic_eq_ok_iff : takeMagic bs = .ok rest ↔ bs = magic ++ rest := by
  simp only [takeMagic, Fault.bind_eq_ok_iff, Prod.exists, take_eq_ok_iff]
  constructor
  · rintro ⟨xs, _, ⟨rfl, -⟩, h⟩
    split at h
    · next hxs =>
      cases h
      rw [hxs]
    · cases h
  · rintro rfl
    exact ⟨magic, rest, ⟨rfl, rfl⟩, if_pos rfl⟩

theorem takeVersion_eq_ok_iff : takeVersion bs = .ok rest ↔ bs = version :: rest := by
  simp only [takeVersion, Fault.bind_eq_ok_iff, Prod.exists, takeByte_eq_ok_iff]
  constructor
  · rintro ⟨b, _, rfl, h⟩
    split at h
    · next hb =>
      cases h
      rw [hb]
    · cases h
  · rintro rfl
    exact ⟨version, rest, rfl, if_pos rfl⟩

/-- A constant is read from the bytes of a field. -/
theorem takeConstant_eq_ok_iff {v : Val} :
    takeConstant bs = .ok (v, rest) ↔ ∃ f : Field, bs = f.bytes ++ rest ∧ f.value = v := by
  simp only [takeConstant, Fault.bind_eq_ok_iff, Prod.exists, takeByte_eq_ok_iff]
  constructor
  · rintro ⟨tag, bs', rfl, h⟩
    split at h
    · next ht =>
      simp only [Fault.bind_eq_ok_iff, Prod.exists, takeNumber_eq_ok_iff] at h
      obtain ⟨n, _, ⟨hn, rfl⟩, h⟩ := h
      cases h
      refine ⟨.integer (BigEndian.encode 8 n) (BigEndian.length_encode 8 n), ?_, ?_⟩
      · rw [ht]
        rfl
      · rw [Field.value, ofInt_twosComplement (BigEndian.length_encode 8 n),
          BigEndian.decode_encode, Nat.mod_eq_of_lt hn]
    · split at h
      · next ht =>
        simp only [Fault.bind_eq_ok_iff, Prod.exists, takeByte_eq_ok_iff] at h
        obtain ⟨b, _, rfl, h⟩ := h
        cases h
        refine ⟨.boolean b, ?_, rfl⟩
        rw [ht]
        rfl
      · cases h
  · rintro ⟨f, rfl, rfl⟩
    cases f with
    | integer payload hp =>
      obtain ⟨hn, hb⟩ := BigEndian.eq_encode_iff.mpr ⟨hp, rfl⟩
      have ht : takeNumber 8 (payload ++ rest) = .ok (BigEndian.decode payload, rest) :=
        takeNumber_eq_ok_iff.mpr ⟨hn, by rw [← hb]⟩
      refine ⟨integerTag, payload ++ rest, rfl, (if_pos rfl).trans ?_⟩
      rw [ht, Field.value, ofInt_twosComplement hp]
      rfl
    | boolean payload => exact ⟨booleanTag, payload :: rest, rfl, rfl⟩

theorem takeConstants_eq_ok_iff {vs vs' : Array Val} :
    takeConstants n vs bs = .ok (vs', rest) ↔ ∃ fs : List Field, fs.length = n ∧
      bs = fs.flatMap Field.bytes ++ rest ∧ vs' = vs ++ fs.map Field.value := by
  induction n generalizing vs bs with
  | zero =>
    simp only [takeConstants, Except.ok.injEq, Prod.mk.injEq, List.length_eq_zero_iff,
      exists_eq_left, List.flatMap_nil, List.nil_append, List.map_nil]
    simp [eq_comm, and_comm]
  | succ n ih =>
    rw [takeConstants]
    constructor
    · intro h
      split at h
      · next v bs' hv =>
        obtain ⟨f, rfl, rfl⟩ := takeConstant_eq_ok_iff.mp hv
        obtain ⟨fs, rfl, rfl, rfl⟩ := ih.mp h
        exact ⟨f :: fs, rfl, by simp, by simp⟩
      · cases h
    · rintro ⟨fs, hfs, rfl, rfl⟩
      obtain ⟨f, fs, rfl⟩ := List.exists_cons_of_length_eq_add_one hfs
      have hf : takeConstant (f.bytes ++ (fs.flatMap Field.bytes ++ rest)) =
          .ok (f.value, fs.flatMap Field.bytes ++ rest) :=
        takeConstant_eq_ok_iff.mpr ⟨f, rfl, rfl⟩
      rw [List.flatMap_cons, List.append_assoc, hf]
      exact ih.mpr ⟨fs, Nat.succ.inj hfs, rfl, by simp⟩

theorem Parts.body_eq (a : Parts) :
    a.body = magic ++ version :: (BigEndian.encode 4 a.fields.length ++
      (a.fields.flatMap Field.bytes ++ (BigEndian.encode 4 a.code.length ++ a.code))) := by
  simp [body, magic, version]

theorem decodeBody_eq_ok_iff {b : Bytecode} :
    decodeBody bs = .ok b ↔ ∃ a : Parts, a.body = bs ∧ a.bytecode = b := by
  simp only [decodeBody, Fault.bind_eq_ok_iff, Prod.exists, takeMagic_eq_ok_iff,
    takeVersion_eq_ok_iff, takeNumber_eq_ok_iff, takeConstants_eq_ok_iff, take_eq_ok_iff]
  constructor
  · rintro ⟨_, rfl, _, rfl, k, _, ⟨hk, rfl⟩, vs, _, ⟨fs, rfl, rfl, rfl⟩, n, _, ⟨hn, rfl⟩, code, bs,
      ⟨rfl, rfl⟩, h⟩
    split at h
    · next hbs =>
      cases h
      subst hbs
      exact ⟨⟨fs, code, hk, hn⟩, by simp [Parts.body_eq], by simp [Parts.bytecode]⟩
    · cases h
  · rintro ⟨a, rfl, rfl⟩
    refine ⟨_, a.body_eq, _, rfl, _, _, ⟨a.length_fields, rfl⟩, _, _, ⟨a.fields, rfl, rfl, rfl⟩,
      _, _, ⟨a.length_code, rfl⟩, _, _, ⟨(List.append_nil _).symm, rfl⟩, ?_⟩
    simp [Parts.bytecode, pure, Except.pure]

theorem decodeUnder_append (body sum : List UInt8) (h : sum.length = 4) :
    decodeUnder checksum (body ++ sum) = if (checksum body).toNat = BigEndian.decode sum then
      decodeBody body else .error .checksumMismatch := by
  have hlen : (body ++ sum).length - 4 = body.length := by simp [h]
  have hlt : ¬ (body ++ sum).length < 4 := by simp [h]
  simp only [decodeUnder, if_neg hlt, hlen, List.take_left, List.drop_left]

theorem decodeUnder_of_length_lt (h : bs.length < 4) :
    decodeUnder checksum bs = .error .artifactTruncated :=
  if_pos h

theorem exists_append_of_length_le (h : 4 ≤ bs.length) :
    ∃ body sum, bs = body ++ sum ∧ sum.length = 4 :=
  ⟨bs.take (bs.length - 4), bs.drop (bs.length - 4), (List.take_append_drop _ _).symm, by
    rw [List.length_drop]
    omega⟩

theorem exists_body_of_decodeUnder {b : Bytecode} (h : decodeUnder checksum bs = .ok b) :
    ∃ body sum, bs = body ++ sum ∧ sum.length = 4 ∧ (checksum body).toNat = BigEndian.decode sum ∧
      decodeBody body = .ok b := by
  rcases Nat.lt_or_ge bs.length 4 with hlt | hle
  · rw [decodeUnder_of_length_lt hlt] at h
    cases h
  · obtain ⟨body, sum, rfl, hsum⟩ := exists_append_of_length_le hle
    rw [decodeUnder_append body sum hsum] at h
    split at h
    · next hcheck => exact ⟨body, sum, rfl, hsum, hcheck, h⟩
    · cases h

theorem decodeUnder_sign (body : List UInt8) :
    decodeUnder checksum (sign checksum body) = decodeBody body := by
  have hlt : (checksum body).toNat < BigEndian.limit 4 := UInt32.toNat_lt _
  obtain ⟨hlen, hsum⟩ := BigEndian.eq_encode_iff.mp ⟨hlt, rfl⟩
  rw [sign, decodeUnder_append _ _ hlen, if_pos hsum.symm]

/-- An artifact is read from the bytes of its parts and from nothing else. -/
theorem decodeUnder_eq_ok_iff {b : Bytecode} :
    decodeUnder checksum bs = .ok b ↔ ∃ a : Parts, a.bytes checksum = bs ∧ a.bytecode = b := by
  constructor
  · intro h
    obtain ⟨body, sum, rfl, hsum, hcheck, h⟩ := exists_body_of_decodeUnder h
    obtain ⟨a, rfl, rfl⟩ := decodeBody_eq_ok_iff.mp h
    obtain ⟨-, hs⟩ := BigEndian.eq_encode_iff.mpr ⟨hsum, hcheck.symm⟩
    exact ⟨a, by rw [Parts.bytes, hs], rfl⟩
  · rintro ⟨a, rfl, rfl⟩
    exact (decodeUnder_sign a.body).trans (decodeBody_eq_ok_iff.mpr ⟨a, rfl, rfl⟩)

/-! ## Faults -/

/-- A computation that can fail only because its input is malformed. -/
def RefusesMalformed {α : Type} (x : Except Fault α) : Prop :=
  ∀ f, x = .error f → f.category = .malformedBytecode

namespace RefusesMalformed

variable {α β : Type}

theorem ok (a : α) : RefusesMalformed (.ok a) := nofun

theorem error {f : Fault} (h : f.category = .malformedBytecode) :
    RefusesMalformed (.error f : Except Fault α) := by
  intro g hg
  cases hg
  exact h

theorem bind {x : Except Fault α} {k : α → Except Fault β} (hx : RefusesMalformed x)
    (hk : ∀ a, RefusesMalformed (k a)) : RefusesMalformed (x >>= k) := by
  cases x with
  | error f => exact error (hx f rfl)
  | ok a => exact hk a

theorem ite {c : Prop} [Decidable c] {x y : Except Fault α} (hx : RefusesMalformed x)
    (hy : RefusesMalformed y) : RefusesMalformed (if c then x else y) := by
  split
  · exact hx
  · exact hy

theorem take (n : Nat) (bs : List UInt8) : RefusesMalformed (take n bs) :=
  ite (ok _) (error rfl)

theorem takeByte (bs : List UInt8) : RefusesMalformed (takeByte bs) := by
  cases bs with
  | nil => exact error rfl
  | cons b bs => exact ok _

theorem takeNumber (width : Nat) (bs : List UInt8) : RefusesMalformed (takeNumber width bs) :=
  (take width bs).bind fun _ => ok _

theorem takeConstant (bs : List UInt8) : RefusesMalformed (takeConstant bs) :=
  (takeByte bs).bind fun _ => ite ((takeNumber 8 _).bind fun _ => ok _)
    (ite ((takeByte _).bind fun _ => ok _) (error rfl))

theorem takeConstants (n : Nat) (vs : Array Val) (bs : List UInt8) :
    RefusesMalformed (takeConstants n vs bs) := by
  induction n generalizing vs bs with
  | zero => exact ok _
  | succ n ih =>
    rw [Artifact.takeConstants]
    split
    · exact ih _ _
    · next f hf => exact error (takeConstant bs f hf)

theorem decodeBody (bs : List UInt8) : RefusesMalformed (decodeBody bs) := by
  have hmagic : RefusesMalformed (takeMagic bs) :=
    (take _ _).bind fun _ => ite (ok _) (error rfl)
  have hversion (bs : List UInt8) : RefusesMalformed (takeVersion bs) :=
    (takeByte bs).bind fun _ => ite (ok _) (error rfl)
  exact hmagic.bind fun _ => (hversion _).bind fun _ => (takeNumber 4 _).bind fun _ =>
    (takeConstants _ _ _).bind fun _ => (takeNumber 4 _).bind fun _ => (take _ _).bind fun _ =>
    ite (ok _) (error rfl)

theorem decodeUnder (checksum : List UInt8 → UInt32) (bs : List UInt8) :
    RefusesMalformed (decodeUnder checksum bs) :=
  ite (error rfl) (ite (decodeBody _) (error rfl))

end RefusesMalformed

/-! ## Writing -/

variable {a : Parts}

theorem encodeUnder_bytecode (checksum : List UInt8 → UInt32) (a : Parts) :
    encodeUnder checksum a.bytecode = .ok (sign checksum (body a.bytecode)) := by
  apply if_pos
  simpa [Parts.bytecode] using ⟨a.length_fields, a.length_code⟩

theorem body_bytecode (a : Parts) :
    body a.bytecode = magic ++ version :: (BigEndian.encode 4 a.fields.length ++
      (a.fields.flatMap (fun f => encodeConstant f.value) ++
        (BigEndian.encode 4 a.code.length ++ a.code))) := by
  simp [body, Parts.bytecode, List.flatMap_map]

theorem length_encodeConstant_value (f : Field) :
    (encodeConstant f.value).length = f.bytes.length := by
  cases f with
  | integer payload hp => simp [Field.value, Field.bytes, encodeConstant, hp]
  | boolean payload => rfl

/-- Integers are written as they were, truth values only if they were zero or one. -/
theorem encodeConstant_value_eq_iff {f : Field} :
    encodeConstant f.value = f.bytes ↔ ∀ x, f = .boolean x → x = 0 ∨ x = 1 := by
  cases f with
  | integer payload hp =>
    simp [Field.value, Field.bytes, encodeConstant, encode_ofInt_twosComplement hp, integerTag]
  | boolean payload =>
    simp only [Field.value, Field.bytes, encodeConstant, booleanTag, Field.boolean.injEq,
      forall_eq', List.cons.injEq, true_and, and_true]
    by_cases h : payload = 0
    · subst h
      simp [Bool.toUInt8]
    · simp [bne_iff_ne.mpr h, h, Bool.toUInt8, eq_comm]

theorem flatMap_eq_flatMap_iff {α : Type} {g h : α → List UInt8}
    (hlen : ∀ x, (g x).length = (h x).length) (xs : List α) :
    xs.flatMap g = xs.flatMap h ↔ ∀ x ∈ xs, g x = h x := by
  induction xs with
  | nil => simp
  | cons x xs ih =>
    rw [List.flatMap_cons, List.flatMap_cons, List.forall_mem_cons, ← ih]
    constructor
    · exact fun he => List.append_inj he (hlen x)
    · rintro ⟨hx, hxs⟩
      rw [hx, hxs]

theorem length_body_bytecode (a : Parts) : (body a.bytecode).length = a.body.length := by
  simp [body_bytecode, Parts.body_eq, List.length_flatMap, length_encodeConstant_value]

theorem body_bytecode_eq_iff :
    body a.bytecode = a.body ↔ ∀ x, .boolean x ∈ a.fields → x = 0 ∨ x = 1 := by
  have hfields : (∀ f ∈ a.fields, encodeConstant f.value = f.bytes) ↔
      ∀ x, .boolean x ∈ a.fields → x = 0 ∨ x = 1 := by
    simp only [encodeConstant_value_eq_iff]
    exact ⟨fun h x hx => h _ hx x rfl, fun h f hf x hx => h x (hx ▸ hf)⟩
  rw [← hfields, ← flatMap_eq_flatMap_iff length_encodeConstant_value, body_bytecode,
    Parts.body_eq]
  simp

theorem sign_injective (checksum : List UInt8 → UInt32) : Function.Injective (sign checksum) := by
  intro x y h
  exact (List.append_inj' h (by simp)).1

theorem length_sign (body : List UInt8) : (sign checksum body).length = body.length + 4 := by
  simp [sign]

namespace Field

/-- The field that a constant is written as. -/
def ofVal : Val → Field
  | .integer n => integer (BigEndian.encode 8 n.toUInt64.toNat) (BigEndian.length_encode 8 _)
  | .boolean b => boolean b.toUInt8

theorem value_ofVal (v : Val) : (ofVal v).value = v := by
  cases v with
  | boolean b => cases b <;> rfl
  | integer n =>
    have hlt : n.toUInt64.toNat < BigEndian.limit 8 := n.toUInt64.toNat_lt
    rw [ofVal, value, ofInt_twosComplement (BigEndian.length_encode 8 _), BigEndian.decode_encode,
      Nat.mod_eq_of_lt hlt, UInt64.ofNat_toNat, Int64.toInt64_toUInt64]

theorem ofVal_boolean {v : Val} {x : UInt8} (h : ofVal v = boolean x) : x = 0 ∨ x = 1 := by
  cases v with
  | integer n => cases h
  | boolean b =>
    cases h
    cases b <;> decide

end Field

/-- The same bytecode is read from the body that is written. -/
theorem decodeBody_body {b : Bytecode} (hk : b.constants.size < 2 ^ 32)
    (hn : b.code.size < 2 ^ 32) : decodeBody (body b) = .ok b := by
  obtain ⟨a, ha, hfields⟩ : ∃ a : Parts, a.bytecode = b ∧
      ∀ x, .boolean x ∈ a.fields → x = 0 ∨ x = 1 := by
    refine ⟨⟨b.constants.toList.map .ofVal, b.code.toList, by simpa using hk, by simpa using hn⟩,
      ?_, ?_⟩
    · simp [Parts.bytecode, Function.comp_def, Field.value_ofVal]
    · intro x hx
      obtain ⟨v, -, hv⟩ := List.mem_map.mp hx
      exact Field.ofVal_boolean hv
  refine decodeBody_eq_ok_iff.mpr ⟨a, ?_, ha⟩
  rw [← ha, body_bytecode_eq_iff.mpr hfields]

/-- Artifacts and bytecode, whatever is taken as the checksum: what is written is read back; what is
read is the bytes of some parts and all else is malformed; and what was read is written again in as
many bytes, which are the same as before unless a truth value had another byte than zero or one. -/
theorem decode_format (checksum : List UInt8 → UInt32) :
    (∀ b : Bytecode, b.constants.size < 2 ^ 32 → b.code.size < 2 ^ 32 →
      ∃ bs, encodeUnder checksum b = .ok bs ∧ decodeUnder checksum bs = .ok b) ∧
    (∀ bs b, decodeUnder checksum bs = .ok b ↔
      ∃ a : Parts, a.bytes checksum = bs ∧ a.bytecode = b) ∧
    (∀ bs, (¬ ∃ a : Parts, a.bytes checksum = bs) →
      ∃ f, decodeUnder checksum bs = .error f ∧ f.category = .malformedBytecode) ∧
    (∀ a : Parts, ∃ bs, encodeUnder checksum a.bytecode = .ok bs ∧
      bs.length = (a.bytes checksum).length ∧
      (bs = a.bytes checksum ↔ ∀ x, .boolean x ∈ a.fields → x = 0 ∨ x = 1)) ∧
    encode = encodeUnder Checksum.crc32 ∧ decode = decodeUnder Checksum.crc32 := by
  refine ⟨?_, fun _ _ => decodeUnder_eq_ok_iff, ?_, ?_, rfl, rfl⟩
  · intro b hk hn
    refine ⟨sign checksum (body b), if_pos ⟨hk, hn⟩, ?_⟩
    rw [decodeUnder_sign, decodeBody_body hk hn]
  · intro bs hbs
    cases h : decodeUnder checksum bs with
    | ok b =>
      obtain ⟨a, ha, -⟩ := decodeUnder_eq_ok_iff.mp h
      exact absurd ⟨a, ha⟩ hbs
    | error f => exact ⟨f, rfl, RefusesMalformed.decodeUnder checksum bs f h⟩
  · intro a
    refine ⟨_, encodeUnder_bytecode checksum a, ?_, ?_⟩
    · rw [length_sign, length_body_bytecode, ← length_sign]
      rfl
    · rw [← body_bytecode_eq_iff]
      exact (sign_injective checksum).eq_iff

/-- An artifact with the byte seven for true is read, and written with another byte. -/
theorem decode_format_seven :
    ∃ bs, decode (Parts.bytes Checksum.crc32 ⟨[.boolean 7, .integer (List.replicate 8 0xFF) rfl],
        [1], by decide, by decide⟩) = .ok ⟨#[1], #[.boolean true, .integer (-1)]⟩ ∧
      encode ⟨#[1], #[.boolean true, .integer (-1)]⟩ = .ok bs ∧
      decode bs = .ok ⟨#[1], #[.boolean true, .integer (-1)]⟩ ∧
      bs ≠ Parts.bytes Checksum.crc32 ⟨[.boolean 7, .integer (List.replicate 8 0xFF) rfl], [1],
        by decide, by decide⟩ := by
  obtain ⟨hwrite, hread, -, hagain, hencode, hdecode⟩ := decode_format Checksum.crc32
  rw [hencode, hdecode]
  obtain ⟨bs, hbs, hback⟩ :=
    hwrite ⟨#[1], #[.boolean true, .integer (-1)]⟩ (by decide) (by decide)
  refine ⟨bs, (hread _ _).mpr ⟨_, rfl, by decide⟩, hbs, hback, ?_⟩
  obtain ⟨bs', hbs', -, heq⟩ := hagain ⟨[.boolean 7, .integer (List.replicate 8 0xFF) rfl], [1],
    by decide, by decide⟩
  obtain rfl := Except.ok.inj (hbs.symm.trans hbs')
  intro h
  exact absurd (heq.mp h 7 List.mem_cons_self) (by decide)

end Artifact

end ByteCalc
