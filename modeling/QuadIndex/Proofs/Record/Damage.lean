import QuadIndex.Proofs.Record.Remainder
import QuadIndex.Proofs.Record.RoundTrip

/-! # Damaged records are refused

No record begins another one, so bytes that are cut off or added are found by the lengths alone. A
change within four bytes is found by the checksum, wherever it is. -/

namespace QuadIndex.Record

variable {p q : Quad}

/-! ## Too few or too many bytes -/

theorem encodeField_append_inj {u v : String} (hu : fitsField u.utf8ByteSize = true)
    (hv : fitsField v.utf8ByteSize = true) {xs ys : Bytes}
    (h : encodeField u ++ xs = encodeField v ++ ys) : u = v ∧ xs = ys := by
  -- Which place the field belongs to shows in faults only.
  have hread := readField_encodeField hu .subject xs
  rw [h, readField_encodeField hv] at hread
  obtain ⟨hvalue, hrest⟩ := Prod.mk.inj (Except.ok.inj hread)
  exact ⟨hvalue.symm, hrest.symm⟩

/-- The fields tell where they end. -/
theorem payload_append_inj (hp : ∀ t, fitsField (p.get t).utf8ByteSize = true)
    (hq : ∀ t, fitsField (q.get t).utf8ByteSize = true) {xs ys : Bytes}
    (h : payload p ++ xs = payload q ++ ys) : p = q ∧ xs = ys := by
  rw [payload_eq, payload_eq] at h
  simp only [List.append_assoc] at h
  obtain ⟨hs, h⟩ := encodeField_append_inj (hp .subject) (hq .subject) h
  obtain ⟨hpred, h⟩ := encodeField_append_inj (hp .predicate) (hq .predicate) h
  obtain ⟨ho, h⟩ := encodeField_append_inj (hp .object) (hq .object) h
  obtain ⟨hc, h⟩ := encodeField_append_inj (hp .context) (hq .context) h
  refine ⟨Quad.ext_get fun t => ?_, h⟩
  cases t with
  | subject => exact hs
  | predicate => exact hpred
  | object => exact ho
  | context => exact hc

theorem encode_append_inj (hp : ∀ t, fitsField (p.get t).utf8ByteSize = true)
    (hq : ∀ t, fitsField (q.get t).utf8ByteSize = true) {xs ys : Bytes}
    (h : encode p ++ xs = encode q ++ ys) : p = q ∧ xs = ys := by
  rw [encode, encode, List.append_assoc, List.append_assoc] at h
  obtain ⟨rfl, -⟩ := payload_append_inj hp hq h
  simp only [List.append_cancel_left_eq] at h
  exact ⟨rfl, h⟩

/-- Of bytes that go on from one another at most one is a record. -/
theorem decode_eq_error_of_append (hq : ∀ t, fitsField (q.get t).utf8ByteSize = true)
    {bs xs ys : Bytes} (h : bs ++ xs = encode q ++ ys) (hne : bs ≠ encode q) :
    ∃ f, decode bs = .error f := by
  cases hd : decode bs with
  | error f => exact ⟨f, rfl⟩
  | ok p =>
      obtain ⟨hp, rfl⟩ := eq_encode_of_decode hd
      exact absurd (congrArg encode (encode_append_inj hp hq h).1) hne

/-! ## Changed bytes -/

/-- Bytes that end with a checksum of their own come to a remainder that every record has. -/
theorem decode_eq_checksum_or_foldl_absorb {bs : Bytes} (h : minLength ≤ bs.length) :
    (∃ stored computed, decode bs = .error (.checksum stored computed)) ∨
      bs.foldl Checksum.absorb 0xFFFFFFFF = Checksum.shift^[32] 0xFFFFFFFF := by
  obtain ⟨body, n, hbody, hn, rfl⟩ := exists_append_wordBytes h
  rw [decode_append_wordBytes hbody hn]
  split
  · next hsum =>
    rw [hsum]
    exact .inr (Checksum.foldl_absorb_crc32 body)
  · exact .inl ⟨_, _, rfl⟩

/-- Bytes that agree outside a window differ by what stands in it. -/
theorem exists_window {bs cs : Bytes} (hl : bs.length = cs.length) {start width : Nat}
    (h : ∀ n, n < start ∨ start + width ≤ n → bs[n]? = cs[n]?) :
    ∃ before xs ys after, bs = before ++ xs ++ after ∧ cs = before ++ ys ++ after ∧
      xs.length = ys.length ∧ xs.length ≤ width := by
  have hbefore : bs.take start = cs.take start := by
    apply List.ext_getElem?
    intro n
    simp only [List.getElem?_take]
    split
    · next hn => exact h n (.inl hn)
    · rfl
  have hafter : bs.drop (start + width) = cs.drop (start + width) := by
    apply List.ext_getElem?
    intro n
    rw [List.getElem?_drop, List.getElem?_drop]
    exact h _ (.inr (Nat.le_add_right _ _))
  have hsplit (ds : Bytes) :
      ds = ds.take start ++ (ds.drop start).take width ++ ds.drop (start + width) := by
    rw [List.append_assoc, ← List.drop_drop, List.take_append_drop, List.take_append_drop]
  refine ⟨bs.take start, (bs.drop start).take width, (cs.drop start).take width,
    bs.drop (start + width), hsplit bs, ?_, ?_, List.length_take_le _ _⟩
  · rw [hbefore, hafter]
    exact hsplit cs
  · simp only [List.length_take, List.length_drop, hl]

theorem decode_eq_checksum_of_window {bs : Bytes} (hl : bs.length = (encode q).length)
    (hne : bs ≠ encode q) {start width : Nat} (hw : width ≤ 4)
    (h : ∀ n, n < start ∨ start + width ≤ n → bs[n]? = (encode q)[n]?) :
    ∃ stored computed, decode bs = .error (.checksum stored computed) := by
  have hmin : minLength ≤ bs.length := by
    have hpayload := le_length_payload q
    have hword : (wordBytes (Checksum.crc32 (payload q)).toNat).length = 4 := rfl
    rw [hl, encode, List.length_append, hword, minLength]
    omega
  refine (decode_eq_checksum_or_foldl_absorb hmin).resolve_right fun hsame => hne ?_
  have hrecord : (encode q).foldl Checksum.absorb 0xFFFFFFFF = Checksum.shift^[32] 0xFFFFFFFF :=
    Checksum.foldl_absorb_crc32 (payload q)
  obtain ⟨before, xs, ys, after, hbs, hcs, hlength, hshort⟩ := exists_window hl h
  rw [← hrecord, hbs, hcs] at hsame
  rw [hbs, hcs, Checksum.eq_of_window hlength (Nat.le_trans hshort hw) hsame]

/-! ## Both together -/

/-- Nothing that comes of a record by cutting it short, by adding to it, or by changing it within
four bytes is decoded. A change leaves a checksum that does not fit. -/
theorem decode_refuses_damage (q : Quad) (hq : ∀ t, (q.get t).utf8ByteSize ≤ maxFieldLength) :
    (∀ bs, bs <+: encode q → bs ≠ encode q → ∃ f, decode bs = .error f) ∧
    (∀ more, more ≠ [] → ∃ f, decode (encode q ++ more) = .error f) ∧
    ∀ (bs : Bytes) (start width : Nat), bs.length = (encode q).length → bs ≠ encode q →
      width ≤ 4 → (∀ n, n < start ∨ start + width ≤ n → bs[n]? = (encode q)[n]?) →
      ∃ stored computed, decode bs = .error (.checksum stored computed) := by
  have hfits : ∀ t, fitsField (q.get t).utf8ByteSize = true := fun t => decide_eq_true (hq t)
  refine ⟨?_, ?_, ?_⟩
  · rintro bs ⟨rest, hrest⟩ hne
    have happend : bs ++ rest = encode q ++ [] := by rw [hrest, List.append_nil]
    exact decode_eq_error_of_append hfits happend hne
  · intro more hmore
    refine decode_eq_error_of_append hfits (List.append_nil _) ?_
    simp [hmore]
  · exact fun bs start width hl hne hw h => decode_eq_checksum_of_window hl hne hw h

/-- A record without its last byte, one with a byte more, and one whose last field and checksum are
both changed. -/
theorem decode_refuses_damage_at_end :
    (∀ t, (Quad.get ⟨"s", "p", "o", "g"⟩ t).utf8ByteSize ≤ maxFieldLength) ∧
    (∃ f, decode ((encode ⟨"s", "p", "o", "g"⟩).take 23) = .error f) ∧
    (∃ f, decode (encode ⟨"s", "p", "o", "g"⟩ ++ [0]) = .error f) ∧
    ∃ stored computed, decode (((encode ⟨"s", "p", "o", "g"⟩).set 19 0).set 20 0) =
      .error (.checksum stored computed) := by
  have hfits : ∀ t, (Quad.get ⟨"s", "p", "o", "g"⟩ t).utf8ByteSize ≤ maxFieldLength := by
    intro t
    cases t <;> decide
  obtain ⟨hcut, hmore, hchange⟩ := decode_refuses_damage _ hfits
  have hshort : (encode ⟨"s", "p", "o", "g"⟩).take 23 ≠ encode ⟨"s", "p", "o", "g"⟩ :=
    fun h => absurd (congrArg List.length h) (by decide)
  refine ⟨hfits, hcut _ (List.take_prefix _ _) hshort, hmore _ (by decide), ?_⟩
  refine hchange _ 19 2 (by simp) (by decide) (by decide) ?_
  intro n hn
  rw [List.getElem?_set_ne (by omega), List.getElem?_set_ne (by omega)]

end QuadIndex.Record
