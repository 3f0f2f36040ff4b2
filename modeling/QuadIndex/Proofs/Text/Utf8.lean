import QuadIndex.Proofs.Text.Lex
import QuadIndex.Text.Utf8

/-! # The order of encoded text, and reading it back

Bytes compare as code points do, so an encoded text sorts as the text itself. -/

namespace QuadIndex.Text.Utf8

/-! ## One character -/

/-- The ways to spell a code point in bytes, by its size. -/
inductive Spelled (n : Nat) : List UInt8 → Prop where
  | one (h : n < 0x80) : Spelled n [UInt8.ofNat n]
  | two (hl : 0x80 ≤ n) (hu : n < 0x800) :
      Spelled n [UInt8.ofNat (n / 64 + 0xC0), UInt8.ofNat (n % 64 + 0x80)]
  | three (hl : 0x800 ≤ n) (hu : n < 0x10000) (hs : n < 0xD800 ∨ 0xDFFF < n) :
      Spelled n [UInt8.ofNat (n / 4096 + 0xE0), UInt8.ofNat (n / 64 % 64 + 0x80),
        UInt8.ofNat (n % 64 + 0x80)]
  | four (hl : 0x10000 ≤ n) (hu : n < 0x110000) :
      Spelled n [UInt8.ofNat (n / 262144 + 0xF0), UInt8.ofNat (n / 4096 % 64 + 0x80),
        UInt8.ofNat (n / 64 % 64 + 0x80), UInt8.ofNat (n % 64 + 0x80)]

/-- Code points leave out the surrogates and end at 0x10FFFF. -/
theorem toNat_valid (c : Char) : c.toNat < 0xD800 ∨ 0xDFFF < c.toNat ∧ c.toNat < 0x110000 :=
  c.valid

theorem spelled_utf8EncodeChar (c : Char) : Spelled c.toNat (String.utf8EncodeChar c) := by
  have hv := toNat_valid c
  simp only [String.utf8EncodeChar, Char.toNat_val]
  split
  · next h => exact .one (by omega)
  · split
    · next h1 h2 =>
      rw [Nat.mod_eq_of_lt (by omega : c.toNat / 64 < 0x20)]
      exact .two (by omega) (by omega)
    · split
      · next h1 h2 h3 =>
        rw [Nat.mod_eq_of_lt (by omega : c.toNat / 4096 < 0x10)]
        exact .three (by omega) (by omega) (by omega)
      · next h1 h2 h3 =>
        rw [Nat.mod_eq_of_lt (by omega : c.toNat / 262144 < 0x08)]
        exact .four (by omega) (by omega)

theorem ofNat_lt_ofNat {a b : Nat} (ha : a < 256) (hb : b < 256) :
    UInt8.ofNat a < UInt8.ofNat b ↔ a < b := by
  rw [UInt8.lt_iff_toNat_lt, UInt8.toNat_ofNat', UInt8.toNat_ofNat', Nat.mod_eq_of_lt ha,
    Nat.mod_eq_of_lt hb]

theorem ofNat_inj {a b : Nat} (ha : a < 256) (hb : b < 256) :
    UInt8.ofNat a = UInt8.ofNat b ↔ a = b := by
  rw [← UInt8.toNat_inj, UInt8.toNat_ofNat', UInt8.toNat_ofNat', Nat.mod_eq_of_lt ha,
    Nat.mod_eq_of_lt hb]

/-- The spelling of a smaller code point comes first, whatever follows either of them. -/
theorem Spelled.append_lt {m n : Nat} {xs ys : List UInt8} (hm : Spelled m xs)
    (hn : Spelled n ys) (h : m < n) (as bs : List UInt8) : xs ++ as < ys ++ bs := by
  cases hm <;> cases hn <;>
    simp (disch := omega) only [List.cons_append, List.nil_append, List.cons_lt_cons_iff,
      ofNat_lt_ofNat, ofNat_inj] <;> omega

theorem length_encode (s : String) : (encode s).length = s.utf8ByteSize := by
  have h : s.toByteArray = (encode s).toByteArray := by
    rw [← String.ofList_toList (s := s), String.toByteArray_ofList, String.ofList_toList]
    rfl
  rw [← String.size_toByteArray, h, List.size_toByteArray]

/-! ## Order -/

theorem encodeChar_append_lt {c d : Char} (h : c < d) (as bs : List UInt8) :
    String.utf8EncodeChar c ++ as < String.utf8EncodeChar d ++ bs := by
  have hn : c.toNat < d.toNat := UInt32.lt_iff_toNat_lt.1 h
  exact (spelled_utf8EncodeChar c).append_lt (spelled_utf8EncodeChar d) hn as bs

theorem flatMap_encodeChar_lt_iff (cs ds : List Char) :
    cs.flatMap String.utf8EncodeChar < ds.flatMap String.utf8EncodeChar ↔ cs < ds := by
  induction cs generalizing ds with
  | nil =>
      cases ds with
      | nil => simp
      | cons d ds =>
          obtain ⟨b, bs, hd⟩ := List.exists_cons_of_ne_nil (String.utf8EncodeChar_ne_nil (c := d))
          simp [hd]
  | cons c cs ih =>
      cases ds with
      | nil => simp
      | cons d ds =>
          rw [List.flatMap_cons, List.flatMap_cons, List.cons_lt_cons_iff]
          rcases Std.lt_trichotomy c d with hcd | rfl | hdc
          · exact iff_of_true (encodeChar_append_lt hcd _ _) (.inl hcd)
          · rw [Lex.append_lt_append_iff, ih]
            simp
          · refine iff_of_false ?_ ?_
            · exact List.lt_asymm (encodeChar_append_lt hdc _ _)
            · rintro (hlt | ⟨rfl, -⟩)
              · exact Char.lt_asymm hdc hlt
              · exact Char.lt_irrefl _ hdc

/-! ## Reading back -/

theorem toNat_ofNat_of_lt {a : Nat} (h : a < 256) : (UInt8.ofNat a).toNat = a := by
  rw [UInt8.toNat_ofNat', Nat.mod_eq_of_lt h]

/-- A byte that announces more bytes leaves the decoder within a character. -/
theorem decodeFrom_lead {b : Nat} {l : Lead} (hb : b < 256) (hl : lead? b = some l)
    (hf : l.following ≠ 0) (cs : List Char) (k : Nat) (bs : List UInt8) :
    decodeFrom ⟨cs, k, 0, none⟩ (UInt8.ofNat b :: bs) = decodeFrom ⟨cs, k, 1, some l⟩ bs := by
  simp [decodeFrom, -UInt8.toNat_ofNat', toNat_ofNat_of_lt hb, hl, hf]

theorem decodeFrom_middle {m : Nat} {l : Lead} (hm : m < 64) (hl : l.low ≤ m + 0x80)
    (hh : m + 0x80 ≤ l.high) (hf : l.following ≠ 1) (cs : List Char) (k n : Nat)
    (bs : List UInt8) :
    decodeFrom ⟨cs, k, n, some l⟩ (UInt8.ofNat (m + 0x80) :: bs) =
      decodeFrom ⟨cs, k, n + 1, some ⟨l.bits * 64 + m, l.following - 1, 0x80, 0xBF⟩⟩ bs := by
  have hb : (UInt8.ofNat (m + 0x80)).toNat = m + 0x80 := toNat_ofNat_of_lt (by omega)
  simp only [decodeFrom, hb, if_pos (And.intro hl hh), if_neg hf, Nat.add_sub_cancel]

theorem decodeFrom_last {m : Nat} {l : Lead} (hm : m < 64) (hl : l.low ≤ m + 0x80)
    (hh : m + 0x80 ≤ l.high) (hf : l.following = 1) (cs : List Char) (k n : Nat)
    (bs : List UInt8) :
    decodeFrom ⟨cs, k, n, some l⟩ (UInt8.ofNat (m + 0x80) :: bs) =
      decodeFrom ⟨Char.ofNat (l.bits * 64 + m) :: cs, k + n + 1, 0, none⟩ bs := by
  have hb : (UInt8.ofNat (m + 0x80)).toNat = m + 0x80 := toNat_ofNat_of_lt (by omega)
  simp only [decodeFrom, hb, if_pos (And.intro hl hh), if_pos hf, Nat.add_sub_cancel]

theorem lead?_two {m : Nat} (hl : 2 ≤ m) (hu : m < 0x20) :
    lead? (m + 0xC0) = some ⟨m, 1, 0x80, 0xBF⟩ := by
  unfold lead?
  rw [if_neg (by omega), if_neg (by omega), if_pos (by omega), Nat.add_sub_cancel]

theorem lead?_three {m : Nat} (hu : m < 0x10) :
    lead? (m + 0xE0) =
      some ⟨m, 2, if m = 0 then 0xA0 else 0x80, if m = 0x0D then 0x9F else 0xBF⟩ := by
  unfold lead?
  rw [if_neg (by omega), if_neg (by omega), if_neg (by omega), if_pos (by omega),
    Nat.add_sub_cancel]
  simp

theorem lead?_four {m : Nat} (hu : m < 5) :
    lead? (m + 0xF0) =
      some ⟨m, 3, if m = 0 then 0x90 else 0x80, if m = 4 then 0x8F else 0xBF⟩ := by
  unfold lead?
  rw [if_neg (by omega), if_neg (by omega), if_neg (by omega), if_neg (by omega),
    if_pos (by omega), Nat.add_sub_cancel]
  simp

/-- The decoder reads a spelled code point as a whole. -/
theorem Spelled.decodeFrom_append {n : Nat} {xs : List UInt8} (h : Spelled n xs)
    (cs : List Char) (k : Nat) (bs : List UInt8) :
    decodeFrom ⟨cs, k, 0, none⟩ (xs ++ bs) =
      decodeFrom ⟨Char.ofNat n :: cs, k + xs.length, 0, none⟩ bs := by
  cases h with
  | one h =>
      have hn : (UInt8.ofNat n).toNat = n := toNat_ofNat_of_lt (by omega)
      simp [decodeFrom, lead?, hn, h]
  | two hl hu =>
      have hv : n / 64 * 64 + n % 64 = n := by omega
      simp only [List.cons_append, List.nil_append]
      rw [decodeFrom_lead (by omega) (lead?_two (by omega) (by omega)) (by simp),
        decodeFrom_last (by omega) (by dsimp only; omega) (by dsimp only; omega) rfl, hv]
      rfl
  | three hl hu hs =>
      have hv : (n / 4096 * 64 + n / 64 % 64) * 64 + n % 64 = n := by omega
      simp only [List.cons_append, List.nil_append]
      rw [decodeFrom_lead (by omega) (lead?_three (by omega)) (by simp),
        decodeFrom_middle (by omega) (by dsimp only; split <;> omega)
          (by dsimp only; split <;> omega) (by simp),
        decodeFrom_last (by omega) (by dsimp only; omega) (by dsimp only; omega) rfl, hv]
      rfl
  | four hl hu =>
      have hv : ((n / 262144 * 64 + n / 4096 % 64) * 64 + n / 64 % 64) * 64 + n % 64 = n := by
        omega
      simp only [List.cons_append, List.nil_append]
      rw [decodeFrom_lead (by omega) (lead?_four (by omega)) (by simp),
        decodeFrom_middle (by omega) (by dsimp only; split <;> omega)
          (by dsimp only; split <;> omega) (by simp),
        decodeFrom_middle (by omega) (by dsimp only; omega) (by dsimp only; omega) (by simp),
        decodeFrom_last (by omega) (by dsimp only; omega) (by dsimp only; omega) rfl, hv]
      rfl

theorem decodeFrom_flatMap (ds cs : List Char) (k : Nat) :
    decodeFrom ⟨cs, k, 0, none⟩ (ds.flatMap String.utf8EncodeChar) = .ok (cs.reverse ++ ds) := by
  induction ds generalizing cs k with
  | nil => simp [decodeFrom]
  | cons d ds ih =>
      rw [List.flatMap_cons, (spelled_utf8EncodeChar d).decodeFrom_append, ih]
      simp [Char.ofNat_toNat]

theorem decode_encode (s : String) : decode (encode s) = .ok s := by
  rw [decode, encode, decodeFrom_flatMap]
  simp [Except.map]

/-! ## Nothing else is read -/

theorem Spelled.eq {n : Nat} {xs ys : List UInt8} (hx : Spelled n xs) (hy : Spelled n ys) :
    xs = ys := by
  cases hx <;> cases hy
  any_goals omega
  all_goals rfl

theorem Spelled.isValidChar {n : Nat} {xs : List UInt8} (h : Spelled n xs) :
    n.isValidChar := by
  cases h with
  | one h => exact .inl (by omega)
  | two hl hu => exact .inl (by omega)
  | three hl hu hs =>
      rcases hs with hs | hs
      · exact .inl hs
      · exact .inr ⟨hs, by omega⟩
  | four hl hu => exact .inr ⟨by omega, hu⟩

theorem toNat_charOfNat {n : Nat} (h : n.isValidChar) : (Char.ofNat n).toNat = n := by
  rw [Char.ofNat, dif_pos h]
  rfl

theorem Spelled.eq_encodeChar {n : Nat} {xs : List UInt8} (h : Spelled n xs) :
    xs = String.utf8EncodeChar (Char.ofNat n) := by
  have henc := spelled_utf8EncodeChar (Char.ofNat n)
  rw [toNat_charOfNat h.isValidChar] at henc
  exact h.eq henc

theorem eq_ofNat_add {b : UInt8} {k : Nat} (h : k ≤ b.toNat) :
    b = UInt8.ofNat (b.toNat - k + k) := by
  rw [Nat.sub_add_cancel h, UInt8.ofNat_toNat]

/-- A byte that leads no more than itself, or announces one, two or three bytes. -/
theorem lead?_cases {b : UInt8} {l : Lead} (h : lead? b.toNat = some l) :
    b.toNat < 0x80 ∧ l = ⟨b.toNat, 0, 0x80, 0xBF⟩ ∨
    (∃ m, 2 ≤ m ∧ m < 0x20 ∧ b = UInt8.ofNat (m + 0xC0) ∧ l = ⟨m, 1, 0x80, 0xBF⟩) ∨
    (∃ m, m < 0x10 ∧ b = UInt8.ofNat (m + 0xE0) ∧
      l = ⟨m, 2, if m = 0 then 0xA0 else 0x80, if m = 0x0D then 0x9F else 0xBF⟩) ∨
    ∃ m, m < 5 ∧ b = UInt8.ofNat (m + 0xF0) ∧
      l = ⟨m, 3, if m = 0 then 0x90 else 0x80, if m = 4 then 0x8F else 0xBF⟩ := by
  have leads {k : Nat} (hk : k ≤ b.toNat) {l' : Lead} (hl : lead? (b.toNat - k + k) = some l') :
      l = l' := by
    rw [Nat.sub_add_cancel hk, h] at hl
    exact Option.some.inj hl
  by_cases h1 : b.toNat < 0x80
  · rw [lead?, if_pos h1] at h
    exact .inl ⟨h1, (Option.some.inj h).symm⟩
  · by_cases h2 : b.toNat < 0xC2
    · rw [lead?, if_neg h1, if_pos h2] at h
      contradiction
    · by_cases h3 : b.toNat < 0xE0
      · exact .inr (.inl ⟨b.toNat - 0xC0, by omega, by omega, eq_ofNat_add (by omega),
          leads (by omega) (lead?_two (by omega) (by omega))⟩)
      · by_cases h4 : b.toNat < 0xF0
        · exact .inr (.inr (.inl ⟨b.toNat - 0xE0, by omega, eq_ofNat_add (by omega),
            leads (by omega) (lead?_three (by omega))⟩))
        · by_cases h5 : b.toNat < 0xF5
          · exact .inr (.inr (.inr ⟨b.toNat - 0xF0, by omega, eq_ofNat_add (by omega),
              leads (by omega) (lead?_four (by omega))⟩))
          · rw [lead?, if_neg h1, if_neg h2, if_neg h3, if_neg h4, if_neg h5] at h
            contradiction

/-- A byte that announces no other stands for itself. -/
theorem lead?_of_following_eq_zero {b : UInt8} {l : Lead} (h : lead? b.toNat = some l)
    (hf : l.following = 0) : b.toNat < 0x80 ∧ l = ⟨b.toNat, 0, 0x80, 0xBF⟩ := by
  rcases lead?_cases h with hb | ⟨_, -, -, -, rfl⟩ | ⟨_, -, -, rfl⟩ | ⟨_, -, -, rfl⟩
  · exact hb
  · simp at hf
  · simp at hf
  · simp at hf

/-- Bytes that a character still needs after its lead, and the code point that they complete. -/
inductive Completes : Lead → Nat → List UInt8 → Prop where
  | last {l : Lead} {b : UInt8} (hf : l.following = 1) (hl : l.low ≤ b.toNat)
      (hh : b.toNat ≤ l.high) : Completes l (l.bits * 64 + (b.toNat - 0x80)) [b]
  | more {l : Lead} {b : UInt8} {n : Nat} {xs : List UInt8} (hf : l.following ≠ 1)
      (hl : l.low ≤ b.toNat) (hh : b.toNat ≤ l.high)
      (h : Completes ⟨l.bits * 64 + (b.toNat - 0x80), l.following - 1, 0x80, 0xBF⟩ n xs) :
      Completes l n (b :: xs)

theorem Completes.one {l : Lead} {n : Nat} {xs : List UInt8} (h : Completes l n xs)
    (hf : l.following = 1) (hlow : 0x80 ≤ l.low) :
    ∃ m, xs = [UInt8.ofNat (m + 0x80)] ∧ l.low ≤ m + 0x80 ∧ m + 0x80 ≤ l.high ∧
      n = l.bits * 64 + m := by
  cases h with
  | @last _ b _ hl hh =>
      have hb := Nat.le_trans hlow hl
      exact ⟨b.toNat - 0x80, congrArg (fun b => [b]) (eq_ofNat_add hb), by omega, by omega, rfl⟩
  | more hne => exact absurd hf hne

theorem Completes.succ {l : Lead} {n : Nat} {xs : List UInt8} (h : Completes l n xs)
    (hf : l.following ≠ 1) (hlow : 0x80 ≤ l.low) :
    ∃ (m : Nat) (ys : List UInt8), xs = UInt8.ofNat (m + 0x80) :: ys ∧ l.low ≤ m + 0x80 ∧
      m + 0x80 ≤ l.high ∧ Completes ⟨l.bits * 64 + m, l.following - 1, 0x80, 0xBF⟩ n ys := by
  cases h with
  | last he => exact absurd he hf
  | @more _ b _ ys _ hl hh h =>
      have hb := Nat.le_trans hlow hl
      exact ⟨b.toNat - 0x80, ys, congrArg (· :: ys) (eq_ofNat_add hb), by omega, by omega, h⟩

theorem Completes.spelled {b : UInt8} {l : Lead} {n : Nat} {xs : List UInt8}
    (h : Completes l n xs) (hl : lead? b.toNat = some l) (hf : l.following ≠ 0) :
    Spelled n (b :: xs) := by
  rcases lead?_cases hl with ⟨-, rfl⟩ | ⟨a, ha, ha', rfl, rfl⟩ | ⟨a, ha, rfl, rfl⟩ |
    ⟨a, ha, rfl, rfl⟩
  · exact absurd rfl hf
  · obtain ⟨c, rfl, hc, hc', rfl⟩ := h.one rfl (Nat.le_refl _)
    dsimp only at hc hc' ⊢
    have h1 : (a * 64 + c) / 64 = a := by omega
    have h2 : (a * 64 + c) % 64 = c := by omega
    have hs := Spelled.two (n := a * 64 + c) (by omega) (by omega)
    rwa [h1, h2] at hs
  · obtain ⟨c, _, rfl, hc, hc', h⟩ := h.succ (by simp) (by dsimp only; split <;> omega)
    obtain ⟨d, rfl, hd, hd', rfl⟩ := h.one rfl (Nat.le_refl _)
    dsimp only at hc hc' hd hd' ⊢
    have hc0 : a = 0 → 0x20 ≤ c := fun h0 => by rw [if_pos h0] at hc; omega
    have hcD : a = 0x0D → c < 0x20 := fun h0 => by rw [if_pos h0] at hc'; omega
    have hcl : c < 64 := by split at hc' <;> omega
    have h1 : ((a * 64 + c) * 64 + d) / 4096 = a := by omega
    have h2 : ((a * 64 + c) * 64 + d) / 64 % 64 = c := by omega
    have h3 : ((a * 64 + c) * 64 + d) % 64 = d := by omega
    have hs := Spelled.three (n := (a * 64 + c) * 64 + d) (by omega) (by omega) (by omega)
    rwa [h1, h2, h3] at hs
  · obtain ⟨c, _, rfl, hc, hc', h⟩ := h.succ (by simp) (by dsimp only; split <;> omega)
    obtain ⟨d, _, rfl, hd, hd', h⟩ := h.succ (by simp) (Nat.le_refl _)
    obtain ⟨e, rfl, he, he', rfl⟩ := h.one rfl (Nat.le_refl _)
    dsimp only at hc hc' hd hd' he he' ⊢
    have hc0 : a = 0 → 0x10 ≤ c := fun h0 => by rw [if_pos h0] at hc; omega
    have hc4 : a = 4 → c < 0x10 := fun h0 => by rw [if_pos h0] at hc'; omega
    have hcl : c < 64 := by split at hc' <;> omega
    have h1 : (((a * 64 + c) * 64 + d) * 64 + e) / 262144 = a := by omega
    have h2 : (((a * 64 + c) * 64 + d) * 64 + e) / 4096 % 64 = c := by omega
    have h3 : (((a * 64 + c) * 64 + d) * 64 + e) / 64 % 64 = d := by omega
    have h4 : (((a * 64 + c) * 64 + d) * 64 + e) % 64 = e := by omega
    have hs := Spelled.four (n := ((a * 64 + c) * 64 + d) * 64 + e) (by omega) (by omega)
    rwa [h1, h2, h3, h4] at hs

/-- What the bytes that are left spell, between two characters or within one. -/
def Remaining (pending : Option Lead) (cs : List Char) (bs : List UInt8) : Prop :=
  match pending with
  | none => bs = cs.flatMap String.utf8EncodeChar
  | some l => ∃ n xs ds, Completes l n xs ∧ cs = Char.ofNat n :: ds ∧
      bs = xs ++ ds.flatMap String.utf8EncodeChar

/-- A code point and what follows it, between two characters. -/
theorem Spelled.remaining {n : Nat} {xs bs : List UInt8} {cs : List Char} (h : Spelled n xs)
    (hr : Remaining none cs bs) : Remaining none (Char.ofNat n :: cs) (xs ++ bs) := by
  rw [Remaining] at hr ⊢
  rw [List.flatMap_cons, ← h.eq_encodeChar, hr]

/-- The decoder accepts nothing but encoded characters. -/
theorem remaining_of_decodeFrom {st : State} {bs : List UInt8} {cs : List Char}
    (h : decodeFrom st bs = .ok cs) :
    ∃ ds, cs = st.chars.reverse ++ ds ∧ Remaining st.pending ds bs := by
  induction bs generalizing st with
  | nil =>
      rw [decodeFrom] at h
      split at h
      · next hp =>
        rw [hp]
        exact ⟨[], by rw [List.append_nil, Except.ok.inj h], rfl⟩
      · contradiction
  | cons b bs ih =>
      rw [decodeFrom] at h
      split at h
      · next hp =>
        rw [hp]
        split at h
        · contradiction
        · next l hl =>
          split at h
          · next hf =>
            obtain ⟨ds, rfl, hds⟩ := ih h
            obtain ⟨hb, rfl⟩ := lead?_of_following_eq_zero hl hf
            have hs : Spelled b.toNat [b] := by
              simpa using Spelled.one hb
            exact ⟨Char.ofNat b.toNat :: ds, by simp, hs.remaining hds⟩
          · next hf =>
            obtain ⟨ds, rfl, n, xs, es, hc, rfl, rfl⟩ := ih h
            exact ⟨_, rfl, (hc.spelled hl hf).remaining rfl⟩
      · next l hp =>
        rw [hp]
        split at h
        · next hb =>
          dsimp only at h
          split at h
          · next hf =>
            obtain ⟨ds, rfl, hds⟩ := ih h
            rw [Remaining] at hds
            subst hds
            exact ⟨_, by simp, _, [b], ds, .last hf hb.1 hb.2, rfl, rfl⟩
          · next hf =>
            obtain ⟨ds, rfl, n, xs, es, hc, rfl, rfl⟩ := ih h
            exact ⟨_, rfl, n, b :: xs, es, .more hf hb.1 hb.2 hc, rfl, rfl⟩
        · contradiction

theorem eq_encode_of_decode {bs : List UInt8} {s : String} (h : decode bs = .ok s) :
    bs = encode s := by
  rw [decode] at h
  cases hd : decodeFrom ⟨[], 0, 0, none⟩ bs with
  | error f =>
      rw [hd] at h
      contradiction
  | ok cs =>
      obtain ⟨ds, rfl, hr⟩ := remaining_of_decodeFrom hd
      rw [hd] at h
      obtain rfl := Except.ok.inj h
      rw [encode, String.toList_ofList]
      exact hr

end QuadIndex.Text.Utf8
