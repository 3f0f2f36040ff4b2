import Mathlib.Data.Nat.Digits.Lemmas
import Mathlib.Logic.Function.Iterate
import QuadIndex.Quad.Record

/-! # The remainder of a checksum

A shift is linear in exclusive or and loses nothing. So bytes that go in one after the other go in
as one number, as long as the remainder has room for them, and what goes in later never brings two
different remainders together again. -/

namespace QuadIndex.Checksum

/-! ## One bit -/

theorem and_one_eq_one_iff (c : UInt32) : c &&& 1 = 1 ↔ c.toNat % 2 = 1 := by
  rw [← UInt32.toNat_inj, UInt32.toNat_and]
  exact Nat.and_one_is_mod c.toNat ▸ Iff.rfl

theorem shift_of_even {c : UInt32} (h : c.toNat % 2 = 0) : shift c = c >>> 1 := by
  have hodd : ¬ c &&& 1 = 1 := by
    rw [and_one_eq_one_iff, h]
    decide
  rw [shift, if_neg hodd]

theorem shift_of_odd {c : UInt32} (h : c.toNat % 2 = 1) :
    shift c = (c >>> 1) ^^^ 0xEDB88320 := by
  rw [shift, if_pos ((and_one_eq_one_iff c).2 h)]

theorem toNat_half (c : UInt32) : (c >>> 1).toNat = c.toNat / 2 := by
  rw [UInt32.toNat_shiftRight, Nat.shiftRight_eq_div_pow]
  rfl

theorem shift_xor (a b : UInt32) : shift (a ^^^ b) = shift a ^^^ shift b := by
  have hmod : (a ^^^ b).toNat % 2 = (a.toNat % 2) ^^^ (b.toNat % 2) := by
    rw [UInt32.toNat_xor]
    exact Nat.xor_mod_two_pow (n := 1)
  have hhalf : (a ^^^ b) >>> 1 = (a >>> 1) ^^^ (b >>> 1) := UInt32.shiftRight_xor
  rcases Nat.mod_two_eq_zero_or_one a.toNat with ha | ha <;>
    rcases Nat.mod_two_eq_zero_or_one b.toNat with hb | hb <;> rw [ha, hb] at hmod
  · rw [shift_of_even hmod, shift_of_even ha, shift_of_even hb, hhalf]
  · rw [shift_of_odd hmod, shift_of_even ha, shift_of_odd hb, hhalf, UInt32.xor_assoc]
  · rw [shift_of_odd hmod, shift_of_odd ha, shift_of_even hb, hhalf]
    ac_rfl
  · -- Both take in the polynomial, and the two cancel.
    have hcancel (p : UInt32) : ((a >>> 1) ^^^ p) ^^^ ((b >>> 1) ^^^ p) =
        ((a >>> 1) ^^^ (b >>> 1)) ^^^ (p ^^^ p) := by ac_rfl
    rw [shift_of_even hmod, shift_of_odd ha, shift_of_odd hb, hhalf, hcancel, UInt32.xor_self,
      UInt32.xor_zero]

/-- The polynomial has the highest bit, which is clear after a shift, so it cannot take away what
the shift leaves. -/
theorem eq_zero_of_shift {c : UInt32} (h : shift c = 0) : c = 0 := by
  have hlt := c.toNat_lt
  rw [← UInt32.toNat_inj, UInt32.toNat_zero]
  rcases Nat.mod_two_eq_zero_or_one c.toNat with hc | hc
  · rw [shift_of_even hc, ← UInt32.toNat_inj, toNat_half, UInt32.toNat_zero] at h
    omega
  · rw [shift_of_odd hc, UInt32.xor_eq_zero_iff, ← UInt32.toNat_inj, toNat_half] at h
    change c.toNat / 2 = 0xEDB88320 at h
    omega

theorem shift_injective : Function.Injective shift := by
  intro a b h
  rw [← UInt32.xor_eq_zero_iff] at h ⊢
  exact eq_zero_of_shift (shift_xor a b ▸ h)

theorem shift_double {n : Nat} (h : 2 * n < UInt32.size) :
    shift (UInt32.ofNat (2 * n)) = UInt32.ofNat n := by
  have hdouble : (UInt32.ofNat (2 * n)).toNat = 2 * n := UInt32.toNat_ofNat_of_lt' h
  have hn : (UInt32.ofNat n).toNat = n := UInt32.toNat_ofNat_of_lt' (by omega)
  rw [shift_of_even (by omega), ← UInt32.toNat_inj, toNat_half, hdouble, hn]
  omega

/-! ## Several bits -/

theorem iterate_shift_xor (k : Nat) (a b : UInt32) :
    shift^[k] (a ^^^ b) = shift^[k] a ^^^ shift^[k] b := by
  induction k generalizing a b with
  | zero => rfl
  | succ k ih => simp only [Function.iterate_succ_apply, shift_xor, ih]

theorem iterate_shift_mul (k : Nat) {n : Nat} (h : 2 ^ k * n < UInt32.size) :
    shift^[k] (UInt32.ofNat (2 ^ k * n)) = UInt32.ofNat n := by
  induction k with
  | zero => rw [Nat.pow_zero, Nat.one_mul, Function.iterate_zero_apply]
  | succ k ih =>
      rw [Nat.pow_succ', Nat.mul_assoc] at h ⊢
      rw [Function.iterate_succ_apply, shift_double h]
      exact ih (by omega)

theorem absorb_eq (c : UInt32) (b : UInt8) : absorb c b = shift^[8] (c ^^^ b.toUInt32) := rfl

/-! ## Bytes as a number -/

/-- The number that bytes spell, lowest byte first. -/
def number (bs : Bytes) : Nat := Nat.ofDigits 0x100 (bs.map UInt8.toNat)

theorem number_cons (b : UInt8) (bs : Bytes) : number (b :: bs) = b.toNat + 0x100 * number bs := by
  rw [number, List.map_cons, Nat.ofDigits_cons]
  rfl

theorem digit_lt {bs : Bytes} {d : Nat} (h : d ∈ bs.map UInt8.toNat) : d < 0x100 := by
  obtain ⟨b, -, rfl⟩ := List.mem_map.1 h
  exact b.toNat_lt

theorem number_lt (bs : Bytes) : number bs < 0x100 ^ bs.length := by
  rw [← List.length_map UInt8.toNat]
  exact Nat.ofDigits_lt_base_pow_length (by decide) fun _ => digit_lt

theorem eq_of_number_eq {bs cs : Bytes} (hl : bs.length = cs.length)
    (h : number bs = number cs) : bs = cs := by
  have hmap : (bs.map UInt8.toNat).length = (cs.map UInt8.toNat).length := by
    rw [List.length_map, List.length_map, hl]
  have hdigits := Nat.ofDigits_inj_of_len_eq (by decide) hmap (fun _ => digit_lt)
    (fun _ => digit_lt) h
  exact List.map_injective_iff.2 (fun _ _ => UInt8.toNat_inj.1) hdigits

theorem number_wordBytes {n : Nat} (h : n < 0x100000000) : number (Record.wordBytes n) = n := by
  simp only [number, Record.wordBytes, List.map_cons, List.map_nil, Nat.ofDigits_cons,
    Nat.ofDigits_nil, UInt8.toNat_ofNat']
  omega

/-- A byte and a number above it have no bits in common. -/
theorem toUInt32_xor_ofNat (b : UInt8) (n : Nat) :
    b.toUInt32 ^^^ UInt32.ofNat (0x100 * n) = UInt32.ofNat (b.toNat + 0x100 * n) := by
  have hb : b.toNat < 0x100 := b.toNat_lt
  have hdiv : (b.toNat ^^^ (0x100 * n)) / 2 ^ 8 = n := by
    rw [Nat.xor_div_two_pow, Nat.div_eq_of_lt hb, Nat.zero_xor]
    omega
  have hmod : (b.toNat ^^^ (0x100 * n)) % 2 ^ 8 = b.toNat := by
    rw [Nat.xor_mod_two_pow, Nat.mod_eq_of_lt hb, Nat.mul_mod_right, Nat.xor_zero]
  have hsum : b.toNat ^^^ (0x100 * n) = b.toNat + 0x100 * n := by omega
  have hword : b.toUInt32 = UInt32.ofNat b.toNat := by
    rw [← UInt8.toNat_toUInt32, UInt32.ofNat_toNat]
  rw [← hsum, UInt32.ofNat_xor, hword]

/-! ## Several bytes -/

/-- As many bytes as the remainder holds go in as one number. -/
theorem foldl_absorb {bs : Bytes} (h : bs.length ≤ 4) (c : UInt32) :
    bs.foldl absorb c = shift^[8 * bs.length] (c ^^^ UInt32.ofNat (number bs)) := by
  induction bs generalizing c with
  | nil => exact UInt32.xor_zero.symm
  | cons b bs ih =>
      have hroom : 0x100 * number bs < UInt32.size := by
        have hlt := number_lt bs
        have hpow : 0x100 ^ bs.length ≤ 0x100 ^ 3 :=
          Nat.pow_le_pow_right (by decide) (Nat.le_of_succ_le_succ h)
        have hsize : UInt32.size = 0x100 * 0x100 ^ 3 := rfl
        omega
      -- What comes after the first byte would go in before it if it stood eight bits higher.
      have hearlier : UInt32.ofNat (number bs) = shift^[8] (UInt32.ofNat (0x100 * number bs)) :=
        (iterate_shift_mul 8 hroom).symm
      calc (b :: bs).foldl absorb c
          = shift^[8 * bs.length] (absorb c b ^^^ UInt32.ofNat (number bs)) :=
            ih (Nat.le_of_succ_le h) (absorb c b)
        _ = shift^[8 * bs.length] (shift^[8]
              (c ^^^ b.toUInt32 ^^^ UInt32.ofNat (0x100 * number bs))) := by
            rw [iterate_shift_xor 8, hearlier, absorb_eq]
        _ = shift^[8 * (b :: bs).length] (c ^^^ UInt32.ofNat (number (b :: bs))) := by
            rw [UInt32.xor_assoc, toUInt32_xor_ofNat, ← number_cons,
              ← Function.iterate_add_apply, List.length_cons, Nat.mul_succ]

/-- Later bytes keep different remainders apart. -/
theorem foldl_absorb_injective (bs : Bytes) : Function.Injective (bs.foldl absorb) := by
  induction bs with
  | nil => exact Function.injective_id
  | cons b bs ih =>
      intro c d h
      have habsorb : absorb c b = absorb d b := ih h
      exact (UInt32.xor_left_inj _).1 (shift_injective.iterate 8 habsorb)

theorem eq_of_foldl_absorb_eq {bs cs : Bytes} (hl : bs.length = cs.length) (h : bs.length ≤ 4)
    {c : UInt32} (heq : bs.foldl absorb c = cs.foldl absorb c) : bs = cs := by
  rw [foldl_absorb h, foldl_absorb (hl ▸ h), hl] at heq
  have hword := (UInt32.xor_right_inj _).1 (shift_injective.iterate _ heq)
  have hsize {ds : Bytes} (hd : ds.length ≤ 4) : number ds < UInt32.size :=
    Nat.lt_of_lt_of_le (number_lt ds) (Nat.pow_le_pow_right (by decide) hd)
  refine eq_of_number_eq hl ?_
  rw [← UInt32.toNat_ofNat_of_lt' (hsize h), hword, UInt32.toNat_ofNat_of_lt' (hsize (hl ▸ h))]

/-- Bytes that go in with the same effect do not differ within four bytes only. -/
theorem eq_of_window {before bs cs after : Bytes} (hl : bs.length = cs.length)
    (h : bs.length ≤ 4) {c : UInt32}
    (heq : (before ++ bs ++ after).foldl absorb c = (before ++ cs ++ after).foldl absorb c) :
    bs = cs := by
  simp only [List.foldl_append] at heq
  exact eq_of_foldl_absorb_eq hl h (foldl_absorb_injective after heq)

/-- A remainder that its own bytes follow comes to the same end, whatever it is. -/
theorem foldl_absorb_crc32 (bs : Bytes) :
    (bs ++ Record.wordBytes (crc32 bs).toNat).foldl absorb 0xFFFFFFFF =
      shift^[32] 0xFFFFFFFF := by
  have hlength : (Record.wordBytes (crc32 bs).toNat).length = 4 := rfl
  rw [List.foldl_append, foldl_absorb (Nat.le_of_eq hlength),
    number_wordBytes (crc32 bs).toNat_lt, UInt32.ofNat_toNat, hlength, crc32, ← UInt32.xor_assoc,
    UInt32.xor_self, UInt32.zero_xor]

end QuadIndex.Checksum
