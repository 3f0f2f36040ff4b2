import Mathlib.Tactic.SplitIfs
import QuadIndex.Pattern.Basic

/-! # Patterns without fault

A check of a pattern finds nothing exactly if every part of it is well formed. -/

namespace QuadIndex

theorem Interval.fault?_eq_none_iff {r : Interval} {t : Term} :
    r.fault? t = none ↔ ¬ (r.gt.isSome ∧ r.gte.isSome) ∧ ¬ (r.lt.isSome ∧ r.lte.isSome) ∧
      r.values ≠ [] ∧ ∀ v ∈ r.values, isReserved v = false := by
  rw [fault?]
  split_ifs with hlower hupper hvalues hreserved
  · exact iff_of_false nofun fun h => h.1 hlower
  · exact iff_of_false nofun fun h => h.2.1 hupper
  · exact iff_of_false nofun fun h => h.2.2.1 hvalues
  · refine iff_of_false nofun fun h => ?_
    obtain ⟨v, hv, hr⟩ := List.any_eq_true.1 hreserved
    rw [h.2.2.2 v hv] at hr
    contradiction
  · rw [Bool.not_eq_true, List.any_eq_false] at hreserved
    exact iff_of_true rfl ⟨hlower, hupper, hvalues, fun v hv => by simpa using hreserved v hv⟩

theorem Constraint.fault?_exact_eq_none_iff {t : Term} {v : String} :
    (exact v).fault? t = none ↔ isReserved v = false := by
  cases hv : isReserved v <;> simp [fault?, hv]

theorem Selector.fault?_anyOf_eq_none_iff {t : Term} {cs : List Constraint} :
    (anyOf cs).fault? t = none ↔ cs ≠ [] ∧ ∀ c ∈ cs, c.fault? t = none := by
  cases cs with
  | nil => exact iff_of_false nofun fun h => h.1 rfl
  | cons c cs =>
      have hfold : (anyOf (c :: cs)).fault? t = (c :: cs).findSome? (·.fault? t) := rfl
      rw [hfold, List.findSome?_eq_none_iff]
      exact (and_iff_right (List.cons_ne_nil c cs)).symm

theorem Pattern.fault?_eq_none_iff {p : Pattern} :
    p.fault? = none ↔ ∀ e ∈ p.entries, e.2.fault? e.1 = none :=
  List.findSome?_eq_none_iff

end QuadIndex
