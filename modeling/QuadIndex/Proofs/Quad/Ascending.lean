import QuadIndex.Quad.Basic

/-! # Lists in strictly ascending order

Such a list is determined by its members, so it stands for a set. -/

namespace QuadIndex

theorem nodup_of_ascending {α : Type} {r : α → α → Prop} (asymm : ∀ a b, r a b → ¬ r b a)
    {as : List α} (h : as.Pairwise r) : as.Nodup := by
  refine h.imp fun {a b} hr => ?_
  rintro rfl
  exact asymm a a hr hr

/-- Lists that are ordered in the same way and have the same members are the same. -/
theorem eq_of_ascending {α : Type} {r : α → α → Prop} (asymm : ∀ a b, r a b → ¬ r b a)
    {as bs : List α} (ha : as.Pairwise r) (hb : bs.Pairwise r) (h : ∀ a, a ∈ as ↔ a ∈ bs) :
    as = bs := by
  have hperm : as.Perm bs :=
    (List.perm_ext_iff_of_nodup (nodup_of_ascending asymm ha) (nodup_of_ascending asymm hb)).2 h
  exact hperm.eq_of_pairwise (fun a b _ _ hab hba => absurd hba (asymm a b hab)) ha hb

namespace Quad

variable {p q r : Quad}

theorem lt_irrefl (q : Quad) : ¬ q < q := List.lt_irrefl (q.tuple Term.all)

theorem lt_trans (h : p < q) (h' : q < r) : p < r := List.lt_trans h h'

theorem lt_asymm (p q : Quad) (h : p < q) : ¬ q < p := fun h' => lt_irrefl p (lt_trans h h')

theorem lt_of_not_lt_of_ne (h : ¬ q < p) (hne : q ≠ p) : p < q := by
  have ht : p.tuple Term.all ≠ q.tuple Term.all := fun he =>
    hne (ext_get fun t => List.map_inj_left.1 he.symm t t.mem_all)
  exact (List.le_iff_lt_or_eq.1 (List.not_lt.1 h)).resolve_right ht

/-- The list is the set of its members, in order. -/
abbrev Ascending (qs : List Quad) : Prop := qs.Pairwise (· < ·)

theorem Ascending.eq_of_mem_iff {ps qs : List Quad} (hp : Ascending ps) (hq : Ascending qs)
    (h : ∀ q, q ∈ ps ↔ q ∈ qs) : ps = qs :=
  eq_of_ascending lt_asymm hp hq h

theorem Ascending.nodup {qs : List Quad} (h : Ascending qs) : qs.Nodup :=
  nodup_of_ascending lt_asymm h

theorem mem_insertAscending_iff {qs : List Quad} :
    p ∈ insertAscending q qs ↔ p = q ∨ p ∈ qs := by
  induction qs with
  | nil => simp [insertAscending]
  | cons a qs ih =>
      rw [insertAscending]
      split
      · exact List.mem_cons
      · split
        · next he =>
          subst he
          rw [List.mem_cons, ← or_assoc, or_self]
        · rw [List.mem_cons, ih, List.mem_cons, or_left_comm]

theorem ascending_insertAscending (q : Quad) {qs : List Quad} (h : Ascending qs) :
    Ascending (insertAscending q qs) := by
  induction qs with
  | nil => simp [insertAscending]
  | cons a qs ih =>
      have hqs := List.pairwise_cons.1 h
      rw [insertAscending]
      split
      · next hlt =>
        refine List.pairwise_cons.2 ⟨?_, h⟩
        intro x hx
        rcases List.mem_cons.1 hx with rfl | hx
        · exact hlt
        · exact lt_trans hlt (hqs.1 x hx)
      · next hlt =>
        split
        · exact h
        · next hne =>
          refine List.pairwise_cons.2 ⟨?_, ih hqs.2⟩
          intro x hx
          rcases mem_insertAscending_iff.1 hx with rfl | hx
          · exact lt_of_not_lt_of_ne hlt hne
          · exact hqs.1 x hx

theorem mem_ascending_iff {qs : List Quad} : q ∈ ascending qs ↔ q ∈ qs := by
  induction qs with
  | nil => rfl
  | cons a qs ih =>
      change q ∈ insertAscending a (ascending qs) ↔ _
      rw [mem_insertAscending_iff, ih, List.mem_cons]

theorem ascending_ascending (qs : List Quad) : Ascending (ascending qs) := by
  induction qs with
  | nil => exact .nil
  | cons a qs ih => exact ascending_insertAscending a ih

end Quad
end QuadIndex
