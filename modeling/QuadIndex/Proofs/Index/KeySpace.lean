import QuadIndex.Proofs.Index.KeyOrder

/-! # The key space of an index

The keys that begin with the name of an index lie together, and no key begins with two names. -/

namespace QuadIndex

/-! ## Names within keys -/

namespace Text.Utf8

/-- Only NUL is spelled with a zero. -/
theorem Spelled.zero_notMem {n : Nat} {xs : List UInt8} (h : Spelled n xs) (hn : n ≠ 0) :
    0 ∉ xs := by
  have hne {m : Nat} (hm : m < 256) (hpos : 0 < m) : (0 : UInt8) ≠ UInt8.ofNat m :=
    fun he => Nat.ne_of_lt hpos ((ofNat_inj (by decide) hm).1 he)
  cases h <;>
    simp only [List.mem_cons, List.not_mem_nil, or_false, not_or] <;>
    simp (disch := omega) only [not_false_eq_true, hne, and_self]

theorem zero_notMem_encode {s : String} (h : '\x00' ∉ s.toList) : 0 ∉ encode s := by
  rw [encode, List.mem_flatMap]
  rintro ⟨c, hc, hzero⟩
  have hn : c.toNat ≠ ('\x00' : Char).toNat := fun he => h (Char.toNat_inj.1 he ▸ hc)
  exact (spelled_utf8EncodeChar c).zero_notMem hn hzero

theorem encode_inj {s t : String} (h : encode s = encode t) : s = t := by
  have hs := decode_encode s
  rw [h, decode_encode] at hs
  exact (Except.ok.inj hs).symm

end Text.Utf8

namespace Index

variable {i j : Index} {k : Bytes}

/-- The key begins with the name of the index. -/
def Owns (i : Index) (k : Bytes) : Prop := i.keyStart <+: k

theorem owns_boundKey (i : Index) (components : List String) (suffix : String) :
    i.Owns (i.boundKey components suffix) :=
  ⟨components.flatMap component ++ Text.Utf8.encode suffix, by rw [boundKey, List.append_assoc]⟩

theorem owns_key (i : Index) (q : Quad) : i.Owns (i.key q) := i.owns_boundKey _ _

/-- What comes before the first zero of a key is the name. -/
theorem takeWhile_of_owns (h : i.Owns k) : k.takeWhile (· ≠ 0) = Text.Utf8.encode i.name := by
  obtain ⟨x, rfl⟩ := h
  have hfree : ∀ b ∈ Text.Utf8.encode i.name, decide (b ≠ 0) = true := by
    intro b hb
    have hzero := Text.Utf8.zero_notMem_encode (isReserved_eq_false_iff.1 i.name_free).1
    exact decide_eq_true fun he => hzero (he ▸ hb)
  have hseparator : Text.Utf8.encode separator = [0, 0] := by decide
  rw [keyStart, component, hseparator, List.append_assoc, List.takeWhile_append_of_pos hfree]
  simp

theorem name_eq_of_owns (hi : i.Owns k) (hj : j.Owns k) : i.name = j.name :=
  Text.Utf8.encode_inj ((takeWhile_of_owns hi).symm.trans (takeWhile_of_owns hj))

/-- Between two lists with a common beginning all lists have it. -/
theorem prefix_of_between {p x y : Bytes} (hl : p ++ x ≤ k) (hu : k ≤ p ++ y) : p <+: k := by
  induction p generalizing k with
  | nil => exact List.nil_prefix
  | cons b p ih =>
      cases k with
      | nil => simp at hl
      | cons c k =>
          rw [List.cons_append, List.cons_le_cons_iff] at hl hu
          rcases hl with hlt | ⟨rfl, hl⟩
          · rcases hu with hgt | ⟨rfl, -⟩
            · exact absurd (Std.lt_trans hlt hgt) Std.lt_irrefl
            · exact absurd hlt Std.lt_irrefl
          · have hu : k ≤ p ++ y := by
              rcases hu with hlt | ⟨-, hu⟩
              · exact absurd hlt Std.lt_irrefl
              · exact hu
            exact List.cons_prefix_cons.2 ⟨rfl, ih hl hu⟩

end Index
end QuadIndex
