import QuadIndex.Proofs.Quad.Ascending
import QuadIndex.Trial.Model

/-! # The set of quads that a model moves through -/

namespace QuadIndex.Model

variable {m : Model} {q : Quad}

theorem stored_stored (m : Model) (q : Quad) : m.stored (m.stored q) = m.stored q := by
  by_cases h : q.context = "" <;> by_cases hd : m.defaultContext = "" <;> simp [stored, h, hd]

@[simp] theorem stored_put (m : Model) (qs : List Quad) : (m.put qs).stored = m.stored := rfl

@[simp] theorem stored_erase (m : Model) (qs : List Quad) : (m.erase qs).stored = m.stored := rfl

theorem put_cons (m : Model) (q : Quad) (qs : List Quad) :
    m.put (q :: qs) = (m.put [q]).put qs := rfl

theorem erase_cons (m : Model) (q : Quad) (qs : List Quad) :
    m.erase (q :: qs) = (m.erase [q]).erase qs := rfl

theorem mem_put_iff {qs : List Quad} :
    q ∈ (m.put qs).quads ↔ q ∈ qs.map m.stored ∨ q ∈ m.quads := by
  induction qs generalizing m with
  | nil => simp [put]
  | cons a qs ih =>
      have hone : q ∈ (m.put [a]).quads ↔ q = m.stored a ∨ q ∈ m.quads :=
        Quad.mem_insertAscending_iff
      rw [put_cons, ih, hone, stored_put, List.map_cons, List.mem_cons, or_left_comm, or_assoc]

theorem mem_erase_iff {qs : List Quad} :
    q ∈ (m.erase qs).quads ↔ q ∈ m.quads ∧ q ∉ qs.map m.stored := by
  induction qs generalizing m with
  | nil => simp [erase]
  | cons a qs ih =>
      have hone : q ∈ (m.erase [a]).quads ↔ q ∈ m.quads ∧ q ≠ m.stored a := by
        simp [erase]
      rw [erase_cons, ih, hone, stored_erase, List.map_cons, List.mem_cons, not_or, and_assoc]

theorem ascending_put (h : Quad.Ascending m.quads) (qs : List Quad) :
    Quad.Ascending (m.put qs).quads := by
  induction qs generalizing m with
  | nil => exact h
  | cons a qs ih => exact ih (m := m.put [a]) (Quad.ascending_insertAscending (m.stored a) h)

theorem ascending_erase (h : Quad.Ascending m.quads) (qs : List Quad) :
    Quad.Ascending (m.erase qs).quads := by
  induction qs generalizing m with
  | nil => exact h
  | cons a qs ih => exact ih (m := m.erase [a]) (h.filter _)

theorem mem_expected_iff {p : Pattern} :
    q ∈ m.expected p ↔ q ∈ m.quads ∧ q.matchesPattern p = true := List.mem_filter

theorem expected_subset (m : Model) {p : Pattern} : m.expected p ⊆ m.quads := fun _ hq =>
  (mem_expected_iff.1 hq).1

theorem ascending_expected (h : Quad.Ascending m.quads) (p : Pattern) :
    Quad.Ascending (m.expected p) := h.filter _

end QuadIndex.Model
