import ByteCalc.Proofs.ArtifactFormat

/-! # Artifacts are self-delimiting

A body says itself where it ends: the counts in it fix how many bytes follow
them. So no artifact is the beginning of another one, and bytes cut off or
added are noticed even where the checksum fits by chance.
-/

namespace ByteCalc.Artifact

variable {checksum : List UInt8 → UInt32} {bs cs : List UInt8} {b c : Bytecode}

/-! ## Bodies -/

/-- Reading a body consumes its own bytes and then asks for the end. -/
theorem decodeBody_append (a : Parts) (rest : List UInt8) :
    decodeBody (a.body ++ rest) =
      if rest = [] then .ok a.bytecode else .error .trailingBytes := by
  have hmagic (xs : List UInt8) : takeMagic (magic ++ xs) = .ok xs :=
    takeMagic_eq_ok_iff.mpr rfl
  have hversion (xs : List UInt8) : takeVersion (version :: xs) = .ok xs :=
    takeVersion_eq_ok_iff.mpr rfl
  have hnumber {n : Nat} (hn : n < 2 ^ 32) (xs : List UInt8) :
      takeNumber 4 (BigEndian.encode 4 n ++ xs) = .ok (n, xs) :=
    takeNumber_eq_ok_iff.mpr ⟨hn, rfl⟩
  have hconstants (xs : List UInt8) :
      takeConstants a.fields.length #[] (a.fields.flatMap Field.bytes ++ xs) =
        .ok ((a.fields.map Field.value).toArray, xs) :=
    takeConstants_eq_ok_iff.mpr ⟨a.fields, rfl, rfl, by simp⟩
  have hcode : take a.code.length (a.code ++ rest) = .ok (a.code, rest) :=
    take_eq_ok_iff.mpr ⟨rfl, rfl⟩
  have hbody : a.body ++ rest = magic ++ version :: (BigEndian.encode 4 a.fields.length ++
      (a.fields.flatMap Field.bytes ++ (BigEndian.encode 4 a.code.length ++
        (a.code ++ rest)))) := by
    simp [Parts.body_eq]
  simp only [decodeBody, hbody, hmagic, hversion, hnumber a.length_fields, hconstants,
    hnumber a.length_code, hcode, bind, Except.bind]
  rfl

theorem eq_of_decodeBody (hb : decodeBody bs = .ok b) (hc : decodeBody cs = .ok c)
    (h : bs <+: cs) : bs = cs := by
  obtain ⟨a, rfl, -⟩ := decodeBody_eq_ok_iff.mp hb
  obtain ⟨rest, rfl⟩ := h
  rw [decodeBody_append] at hc
  split at hc
  · next hrest => rw [hrest, List.append_nil]
  · cases hc

/-! ## Whole artifacts -/

theorem decodeUnder_of_encodeUnder (h : encodeUnder checksum b = .ok bs) :
    decodeUnder checksum bs = .ok b := by
  unfold encodeUnder at h
  split at h
  · next hsize =>
    cases h
    rw [decodeUnder_sign, decodeBody_body hsize.1 hsize.2]
  · cases h

/-- Bytes that begin alike and are both accepted end alike. -/
theorem eq_of_decodeUnder (hb : decodeUnder checksum bs = .ok b)
    (hc : decodeUnder checksum cs = .ok c) (h : bs <+: cs) : bs = cs := by
  obtain ⟨body, sum, rfl, hsum, -, hbody⟩ := exists_body_of_decodeUnder hb
  obtain ⟨body', sum', rfl, hsum', -, hbody'⟩ := exists_body_of_decodeUnder hc
  have hlen := h.length_le
  rw [List.length_append, List.length_append] at hlen
  -- Both sums have four bytes, so the shorter body is the beginning of the longer one.
  have hprefix : body <+: body' :=
    List.prefix_of_prefix_length_le ((List.prefix_append body sum).trans h)
      (List.prefix_append body' sum') (by omega)
  obtain rfl := eq_of_decodeBody hbody hbody' hprefix
  apply h.eq_of_length
  rw [List.length_append, List.length_append, hsum, hsum']

theorem decodeUnder_eq_error (h : ∀ c, decodeUnder checksum cs ≠ .ok c) :
    ∃ f, decodeUnder checksum cs = .error f ∧ f.category = .malformedBytecode := by
  cases hc : decodeUnder checksum cs with
  | ok c => exact absurd hc (h c)
  | error f => exact ⟨f, rfl, RefusesMalformed.decodeUnder checksum cs f hc⟩

/-- Whatever is taken as the checksum, no artifact is the beginning of a longer one. An artifact
that was cut off or continued is therefore refused, also where its last four bytes fit. -/
theorem decode_refuses_cut_or_continued (checksum : List UInt8 → UInt32) :
    (∀ bs cs b c, decodeUnder checksum bs = .ok b → decodeUnder checksum cs = .ok c →
      bs <+: cs → bs = cs) ∧
    (∀ b bs cs, encodeUnder checksum b = .ok bs → cs <+: bs ∨ bs <+: cs → cs ≠ bs →
      ∃ f, decodeUnder checksum cs = .error f ∧ f.category = .malformedBytecode) ∧
    encodeUnder Checksum.crc32 = encode ∧ decodeUnder Checksum.crc32 = decode := by
  refine ⟨fun _ _ _ _ => eq_of_decodeUnder, ?_, rfl, rfl⟩
  intro b bs cs hbs h hne
  have hb := decodeUnder_of_encodeUnder hbs
  refine decodeUnder_eq_error fun c hc => hne ?_
  rcases h with h | h
  · exact eq_of_decodeUnder hc hb h
  · exact (eq_of_decodeUnder hb hc h).symm

/-- Five zeros as code, with a checksum that is always zero: without its last byte the artifact
still ends in the right checksum, and is refused. -/
theorem decode_refuses_cut_or_continued_zeros :
    ∃ bs f, encodeUnder (fun _ => 0) ⟨#[0, 0, 0, 0, 0], #[]⟩ = .ok bs ∧
      bs.dropLast.drop (bs.dropLast.length - 4) = BigEndian.encode 4 0 ∧
      decodeUnder (fun _ => 0) bs.dropLast = .error f ∧ f.category = .malformedBytecode := by
  obtain ⟨-, hrefuse, -⟩ := decode_refuses_cut_or_continued fun _ => 0
  have hbs : encodeUnder (fun _ => 0) ⟨#[0, 0, 0, 0, 0], #[]⟩ =
      .ok (magic ++ version :: List.replicate 4 0 ++ [0, 0, 0, 5] ++ List.replicate 9 0) := rfl
  obtain ⟨f, hf, hcat⟩ := hrefuse _ _ _ hbs (.inl (List.dropLast_prefix _)) (by decide)
  exact ⟨_, f, hbs, rfl, hf, hcat⟩

end ByteCalc.Artifact
