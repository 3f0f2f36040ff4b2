import QuadIndex.Table.Basic

/-! # What a table holds after a batch -/

namespace QuadIndex

namespace Entries

theorem mem_insert_iff {k v : Bytes} {es : List Entry} (h : Ascending es) {e : Entry} :
    e ∈ insert k v es ↔ e = (k, v) ∨ e ∈ es ∧ e.1 ≠ k := by
  induction es with
  | nil => simp [insert]
  | cons a es ih =>
      rw [Ascending, List.pairwise_cons] at h
      have later (x : Entry) (hx : x ∈ es) : x.1 ≠ a.1 := (Std.ne_of_lt (h.1 x hx)).symm
      rw [insert]
      split
      · next hk =>
        have hne : ∀ x ∈ a :: es, x.1 ≠ k := by
          intro x hx
          rcases List.mem_cons.1 hx with rfl | hx
          · exact (Std.ne_of_lt hk).symm
          · exact (Std.ne_of_lt (Std.lt_trans hk (h.1 x hx))).symm
        rw [List.mem_cons]
        exact or_congr_right ⟨fun he => ⟨he, hne e he⟩, And.left⟩
      · split
        · next hk =>
          subst hk
          rw [List.mem_cons, List.mem_cons]
          constructor
          · rintro (he | he)
            · exact .inl he
            · exact .inr ⟨.inr he, later e he⟩
          · rintro (he | ⟨rfl | he, hne⟩)
            · exact .inl he
            · exact absurd rfl hne
            · exact .inr he
        · next hk =>
          rw [List.mem_cons, ih h.2, List.mem_cons]
          constructor
          · rintro (rfl | he | ⟨he, hne⟩)
            · exact .inr ⟨.inl rfl, fun hc => hk hc.symm⟩
            · exact .inl he
            · exact .inr ⟨.inr he, hne⟩
          · rintro (he | ⟨rfl | he, hne⟩)
            · exact .inr (.inl he)
            · exact .inl rfl
            · exact .inr (.inr ⟨he, hne⟩)

theorem mem_erase_iff {k : Bytes} {es : List Entry} {e : Entry} :
    e ∈ erase k es ↔ e ∈ es ∧ e.1 ≠ k := by
  simp [erase]

end Entries

namespace Table

theorem apply_nil (t : Table) : t.apply [] = t := rfl

theorem apply_cons (t : Table) (c : Change) (b : Batch) :
    t.apply (c :: b) = (t.change c).apply b := rfl

theorem apply_append (t : Table) (a b : Batch) : t.apply (a ++ b) = (t.apply a).apply b :=
  List.foldl_append

theorem mem_apply_erasures_iff (t : Table) (ks : List Bytes) {e : Entry} :
    e ∈ (t.apply (ks.map .erase)).entries ↔ e ∈ t.entries ∧ e.1 ∉ ks := by
  induction ks generalizing t with
  | nil => rw [List.map_nil, apply_nil, and_iff_left List.not_mem_nil]
  | cons k ks ih =>
      rw [List.map_cons, apply_cons, ih, change, erase, Entries.mem_erase_iff, List.mem_cons,
        not_or, and_assoc]

/-- Insertions that give each key one value add these entries to those under other keys. -/
theorem mem_apply_insertions_iff (t : Table) {xs : List Entry}
    (hx : ∀ x ∈ xs, ∀ y ∈ xs, x.1 = y.1 → x = y) {e : Entry} :
    e ∈ (t.apply (xs.map fun x => .put x.1 x.2)).entries ↔
      e ∈ xs ∨ e ∈ t.entries ∧ ∀ x ∈ xs, e.1 ≠ x.1 := by
  induction xs generalizing t with
  | nil =>
      rw [List.map_nil, apply_nil]
      simp
  | cons x xs ih =>
      have hx' : ∀ y ∈ xs, ∀ z ∈ xs, y.1 = z.1 → y = z := fun y hy z hz =>
        hx y (List.mem_cons_of_mem x hy) z (List.mem_cons_of_mem x hz)
      rw [List.map_cons, apply_cons, ih (t.change _) hx', change, insert,
        Entries.mem_insert_iff t.ascending, List.mem_cons, List.forall_mem_cons]
      constructor
      · rintro (he | ⟨rfl | ⟨he, hne⟩, hlater⟩)
        · exact .inl (.inr he)
        · exact .inl (.inl rfl)
        · exact .inr ⟨he, hne, hlater⟩
      · rintro ((rfl | he) | ⟨he, hne, hlater⟩)
        · by_cases hm : e ∈ xs
          · exact .inl hm
          · refine .inr ⟨.inl rfl, fun y hy hc => hm ?_⟩
            exact hx e List.mem_cons_self y (List.mem_cons_of_mem e hy) hc ▸ hy
        · exact .inl he
        · exact .inr ⟨.inr ⟨he, hne⟩, hlater⟩

end Table
end QuadIndex
