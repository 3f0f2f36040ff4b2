import QuadIndex.Proofs.Text.Utf8
import QuadIndex.Quad.Record

/-! # Records read back as the quads they were written from

Each reader undoes its writer whatever follows, and accepts nothing that its writer does not
write. -/

namespace QuadIndex

/-! ## Steps that can fail -/

theorem bind_eq_ok_iff {ε α β : Type} {x : Except ε α} {f : α → Except ε β} {b : β} :
    (x >>= f) = .ok b ↔ ∃ a, x = .ok a ∧ f a = .ok b := by
  cases x <;> simp [bind, Except.bind]

theorem bind_eq_error_iff {ε α β : Type} {x : Except ε α} {f : α → Except ε β} {e : ε} :
    (x >>= f) = .error e ↔ x = .error e ∨ ∃ a, x = .ok a ∧ f a = .error e := by
  cases x <;> simp [bind, Except.bind]

theorem map_eq_ok_iff {ε α β : Type} {f : α → β} {x : Except ε α} {b : β} :
    f <$> x = .ok b ↔ ∃ a, x = .ok a ∧ f a = b := by
  cases x <;> simp [Functor.map, Except.map]

namespace Record

/-! ## Numbers -/

/-- Four bytes hold every number below 2^32, whatever follows them. -/
theorem readWord?_wordBytes {n : Nat} (h : n < 0x100000000) (rest : Bytes) :
    readWord? (wordBytes n ++ rest) = some (n, rest) := by
  simp only [wordBytes, List.cons_append, List.nil_append, readWord?, UInt8.toNat_ofNat',
    Option.some.injEq, Prod.mk.injEq, and_true]
  omega

theorem wordBytes_toNat (a b c d : UInt8) :
    wordBytes (a.toNat + b.toNat * 0x100 + c.toNat * 0x10000 + d.toNat * 0x1000000) =
      [a, b, c, d] := by
  have ha := a.toNat_lt
  have hb := b.toNat_lt
  have hc := c.toNat_lt
  have hd := d.toNat_lt
  simp only [wordBytes, List.cons.injEq, and_true, ← UInt8.toNat_inj, UInt8.toNat_ofNat']
  omega

theorem eq_wordBytes_of_readWord? {bs rest : Bytes} {n : Nat} (h : readWord? bs = some (n, rest)) :
    n < 0x100000000 ∧ bs = wordBytes n ++ rest := by
  unfold readWord? at h
  split at h
  · next a b c d rest' =>
    obtain ⟨rfl, rfl⟩ := Prod.mk.inj (Option.some.inj h)
    have ha := a.toNat_lt
    have hb := b.toNat_lt
    have hc := c.toNat_lt
    have hd := d.toNat_lt
    refine ⟨by omega, ?_⟩
    rw [wordBytes_toNat]
    rfl
  · contradiction

/-! ## Fields -/

theorem length_encodeField (value : String) :
    (encodeField value).length = 4 + (Text.Utf8.encode value).length := by
  rw [encodeField, List.length_append]
  rfl

/-- A field is read off the front, and nothing more. -/
theorem readField_encodeField {value : String} (h : fitsField value.utf8ByteSize = true)
    (t : Term) (rest : Bytes) :
    readField t (encodeField value ++ rest) = .ok (value, rest) := by
  have hn : (Text.Utf8.encode value).length < 0x100000000 := by
    rw [Text.Utf8.length_encode]
    exact Nat.lt_succ_of_le (of_decide_eq_true h)
  rw [readField, encodeField, List.append_assoc, readWord?_wordBytes hn]
  have hl : ¬ (Text.Utf8.encode value ++ rest).length < (Text.Utf8.encode value).length := by
    simp
  simp only [if_neg hl, List.take_left, List.drop_left, Text.Utf8.decode_encode]

/-- What is read off the front is a written field. -/
theorem eq_encodeField_of_readField {t : Term} {bs rest : Bytes} {value : String}
    (h : readField t bs = .ok (value, rest)) :
    fitsField value.utf8ByteSize = true ∧ bs = encodeField value ++ rest := by
  rw [readField] at h
  split at h
  · contradiction
  · next n after hw =>
    obtain ⟨hn, rfl⟩ := eq_wordBytes_of_readWord? hw
    split at h
    · contradiction
    · next hlen =>
      split at h
      · contradiction
      · next value' hd =>
        obtain ⟨rfl, rfl⟩ := Prod.mk.inj (Except.ok.inj h)
        have htake := Text.Utf8.eq_encode_of_decode hd
        have hsize : (Text.Utf8.encode value').length = n := by
          rw [← htake, List.length_take, Nat.min_eq_left (Nat.not_lt.1 hlen)]
        constructor
        · rw [← Text.Utf8.length_encode, hsize]
          exact decide_eq_true (Nat.le_of_lt_succ hn)
        · rw [encodeField, hsize, ← htake, List.append_assoc, List.take_append_drop]

/-- The fault lies in one field. -/
inductive FieldFault (t : Term) : Fault → Prop where
  | lengthCut : FieldFault t (.lengthCut t)
  | fieldCut : FieldFault t (.fieldCut t)
  | notUtf8 (u : Text.Utf8.Fault) : FieldFault t (.notUtf8 t u)

theorem fieldFault_of_readField {t : Term} {bs : Bytes} {f : Fault}
    (h : readField t bs = .error f) : FieldFault t f := by
  rw [readField] at h
  split at h
  · exact Except.error.inj h ▸ .lengthCut
  · split at h
    · exact Except.error.inj h ▸ .fieldCut
    · split at h
      · exact Except.error.inj h ▸ .notUtf8 _
      · contradiction

/-! ## Payloads -/

theorem payload_eq (q : Quad) :
    payload q = encodeField (q.get .subject) ++ (encodeField (q.get .predicate) ++
      (encodeField (q.get .object) ++ encodeField (q.get .context))) := by
  simp [payload, Term.all]

theorem le_length_payload (q : Quad) : 16 ≤ (payload q).length := by
  rw [payload_eq]
  simp only [List.length_append, length_encodeField]
  omega

/-- A quad is read exactly if its four fields are read one after the other and use up all
bytes. -/
theorem readPayload_eq_ok_iff {q : Quad} {bs : Bytes} :
    readPayload bs = .ok q ↔
      ∃ bs1 bs2 bs3, readField .subject bs = .ok (q.subject, bs1) ∧
        readField .predicate bs1 = .ok (q.predicate, bs2) ∧
        readField .object bs2 = .ok (q.object, bs3) ∧
        readField .context bs3 = .ok (q.context, []) := by
  constructor
  · intro h
    simp only [readPayload, bind_eq_ok_iff, Prod.exists] at h
    obtain ⟨s, bs1, hs, p, bs2, hp, o, bs3, ho, c, bs4, hc, h⟩ := h
    split at h
    · next hnil =>
      obtain rfl := Except.ok.inj h
      obtain rfl := List.isEmpty_iff.1 hnil
      exact ⟨bs1, bs2, bs3, hs, hp, ho, hc⟩
    · contradiction
  · rintro ⟨bs1, bs2, bs3, hs, hp, ho, hc⟩
    simp [readPayload, hs, hp, ho, hc, bind, Except.bind]

/-- Payloads fail within a field, or behind the last one. -/
theorem fault_of_readPayload {bs : Bytes} {f : Fault} (h : readPayload bs = .error f) :
    (∃ t, FieldFault t f) ∨ ∃ n, f = .trailing n := by
  simp only [readPayload, bind_eq_error_iff, Prod.exists] at h
  rcases h with hs | ⟨_, _, -, hp | ⟨_, _, -, ho | ⟨_, _, -, hc | ⟨_, _, -, h⟩⟩⟩⟩
  · exact .inl ⟨_, fieldFault_of_readField hs⟩
  · exact .inl ⟨_, fieldFault_of_readField hp⟩
  · exact .inl ⟨_, fieldFault_of_readField ho⟩
  · exact .inl ⟨_, fieldFault_of_readField hc⟩
  · split at h
    · contradiction
    · exact .inr ⟨_, (Except.error.inj h).symm⟩

theorem readPayload_payload {q : Quad} (h : ∀ t, fitsField (q.get t).utf8ByteSize = true) :
    readPayload (payload q) = .ok q := by
  have hc := readField_encodeField (h .context) .context []
  rw [List.append_nil] at hc
  rw [payload_eq, readPayload_eq_ok_iff]
  exact ⟨_, _, _, readField_encodeField (h .subject) _ _,
    readField_encodeField (h .predicate) _ _, readField_encodeField (h .object) _ _, hc⟩

theorem eq_payload_of_readPayload {q : Quad} {bs : Bytes} (h : readPayload bs = .ok q) :
    (∀ t, fitsField (q.get t).utf8ByteSize = true) ∧ bs = payload q := by
  obtain ⟨bs1, bs2, bs3, hs, hp, ho, hc⟩ := readPayload_eq_ok_iff.1 h
  obtain ⟨hfs, rfl⟩ := eq_encodeField_of_readField hs
  obtain ⟨hfp, rfl⟩ := eq_encodeField_of_readField hp
  obtain ⟨hfo, rfl⟩ := eq_encodeField_of_readField ho
  obtain ⟨hfc, rfl⟩ := eq_encodeField_of_readField hc
  constructor
  · intro t
    cases t with
    | subject => exact hfs
    | predicate => exact hfp
    | object => exact hfo
    | context => exact hfc
  · rw [payload_eq, List.append_nil]
    rfl

/-! ## Records -/

theorem exists_append_wordBytes {bs : Bytes} (h : minLength ≤ bs.length) :
    ∃ body n, 16 ≤ body.length ∧ n < 0x100000000 ∧ bs = body ++ wordBytes n := by
  have hmin : 20 ≤ bs.length := h
  have hword : ∃ n, readWord? (bs.drop (bs.length - 4)) = some (n, []) := by
    have hlen : (bs.drop (bs.length - 4)).length = 4 := by
      rw [List.length_drop]
      omega
    match bs.drop (bs.length - 4), hlen with
    | [a, b, c, d], _ => exact ⟨_, rfl⟩
  obtain ⟨n, hn⟩ := hword
  obtain ⟨hlt, hdrop⟩ := eq_wordBytes_of_readWord? hn
  refine ⟨bs.take (bs.length - 4), n, ?_, hlt, ?_⟩
  · rw [List.length_take]
    omega
  · rw [← List.append_nil (wordBytes n), ← hdrop, List.take_append_drop]

/-- The last word of enough bytes is compared with the checksum of the others, which are then
read. -/
theorem decode_append_wordBytes {body : Bytes} {n : Nat} (hbody : 16 ≤ body.length)
    (hn : n < 0x100000000) :
    decode (body ++ wordBytes n) =
      if n = (Checksum.crc32 body).toNat then readPayload body
      else .error (.checksum n (Checksum.crc32 body).toNat) := by
  have hword : (wordBytes n).length = 4 := rfl
  have hlen : (body ++ wordBytes n).length = body.length + 4 := by
    rw [List.length_append, hword]
  have hmin : ¬ (body ++ wordBytes n).length < minLength := by
    rw [hlen, minLength]
    omega
  have hread := readWord?_wordBytes hn []
  rw [List.append_nil] at hread
  rw [decode, if_neg hmin, hlen, Nat.add_sub_cancel]
  simp only [List.take_left, List.drop_left, hread]

theorem decode_of_length_lt {bs : Bytes} (h : bs.length < minLength) :
    decode bs = .error (.tooShort bs.length) := if_pos h

theorem decode_encode {q : Quad} (h : ∀ t, fitsField (q.get t).utf8ByteSize = true) :
    decode (encode q) = .ok q := by
  rw [encode, decode_append_wordBytes (le_length_payload q) (UInt32.toNat_lt _), if_pos rfl,
    readPayload_payload h]

theorem decode_encode_of_storable {q : Quad} (h : q.fault? = none) :
    decode (encode q) = .ok q :=
  decode_encode fun t => (Quad.fault?_eq_none_iff.1 h t).1

theorem eq_encode_of_decode {q : Quad} {bs : Bytes} (h : decode bs = .ok q) :
    (∀ t, fitsField (q.get t).utf8ByteSize = true) ∧ bs = encode q := by
  by_cases hmin : bs.length < minLength
  · rw [decode_of_length_lt hmin] at h
    contradiction
  · obtain ⟨body, n, hbody, hn, rfl⟩ := exists_append_wordBytes (Nat.not_lt.1 hmin)
    rw [decode_append_wordBytes hbody hn] at h
    split at h
    · next hsum =>
      obtain ⟨hfits, rfl⟩ := eq_payload_of_readPayload h
      exact ⟨hfits, by rw [encode, hsum]⟩
    · contradiction

/-- Records are too short by their length alone: in all others there is a checksum to read. -/
theorem length_lt_of_tooShort {bs : Bytes} {n : Nat} (h : decode bs = .error (.tooShort n)) :
    bs.length < minLength := by
  apply Nat.lt_of_not_le
  intro hmin
  obtain ⟨body, m, hbody, hm, rfl⟩ := exists_append_wordBytes hmin
  rw [decode_append_wordBytes hbody hm] at h
  split at h
  · rcases fault_of_readPayload h with ⟨t, hf⟩ | ⟨k, hf⟩
    · cases hf
    · contradiction
  · have hf := Except.error.inj h
    contradiction

/-- Exactly the records of quads whose fields fit their lengths are decoded, each to its own quad.
All other bytes have a fault, and only those without room for a checksum and four lengths are too
short. -/
theorem decode_accepts_records :
    (∀ (bs : Bytes) (q : Quad), decode bs = .ok q ↔
      (∀ t, (q.get t).utf8ByteSize ≤ maxFieldLength) ∧ bs = encode q) ∧
    (∀ q : Quad, (∀ t, (q.get t).utf8ByteSize ≤ maxFieldLength) → decode (encode q) = .ok q) ∧
    (∀ (bs bs' : Bytes) (q : Quad), decode bs = .ok q → decode bs' = .ok q → bs = bs') ∧
    (∀ (bs : Bytes) (q : Quad), decode bs = .ok q → encode q = bs) ∧
    (∀ bs : Bytes, (¬ ∃ q : Quad, (∀ t, (q.get t).utf8ByteSize ≤ maxFieldLength) ∧
      bs = encode q) → ∃ f, decode bs = .error f) ∧
    ∀ bs : Bytes, (∃ n, decode bs = .error (.tooShort n)) ↔ bs.length < minLength := by
  have hfits {q : Quad} : (∀ t, fitsField (q.get t).utf8ByteSize = true) ↔
      ∀ t, (q.get t).utf8ByteSize ≤ maxFieldLength := by
    simp [fitsField]
  refine ⟨?_, ?_, ?_, ?_, ?_, ?_⟩
  · intro bs q
    rw [← hfits]
    constructor
    · exact eq_encode_of_decode
    · rintro ⟨hq, rfl⟩
      exact decode_encode hq
  · exact fun q hq => decode_encode (hfits.2 hq)
  · intro bs bs' q h h'
    exact (eq_encode_of_decode h).2.trans (eq_encode_of_decode h').2.symm
  · exact fun bs q h => (eq_encode_of_decode h).2.symm
  · intro bs hno
    cases h : decode bs with
    | error f => exact ⟨f, rfl⟩
    | ok q =>
        obtain ⟨hq, heq⟩ := eq_encode_of_decode h
        exact absurd ⟨q, hfits.1 hq, heq⟩ hno
  · intro bs
    constructor
    · rintro ⟨n, h⟩
      exact length_lt_of_tooShort h
    · exact fun h => ⟨bs.length, decode_of_length_lt h⟩

/-- An empty field and one with a reserved character are read back, from these bytes only. -/
theorem decode_accepts_records_reserved :
    (∀ t, (Quad.get ⟨"s", "", "\x00é", "g"⟩ t).utf8ByteSize ≤ maxFieldLength) ∧
    decode (encode ⟨"s", "", "\x00é", "g"⟩) = .ok ⟨"s", "", "\x00é", "g"⟩ ∧
    ∀ bs, decode bs = .ok ⟨"s", "", "\x00é", "g"⟩ → bs = encode ⟨"s", "", "\x00é", "g"⟩ := by
  have hfits : ∀ t, (Quad.get ⟨"s", "", "\x00é", "g"⟩ t).utf8ByteSize ≤ maxFieldLength := by
    intro t
    cases t <;> decide
  have hread := decode_accepts_records.2.1 _ hfits
  exact ⟨hfits, hread, fun bs h => decode_accepts_records.2.2.1 _ _ _ h hread⟩

end Record
end QuadIndex
