import QuadIndex.Index.Registry
import QuadIndex.Proofs.Index.KeySpace
import QuadIndex.Proofs.Pattern.Division
import QuadIndex.Scan.Basic

/-! # Key ranges and filters together express a branch -/

namespace QuadIndex

/-! ## Key ranges -/

namespace Scan

variable {i j : Index} {s : Side} {q : Quad}

theorem below_lowerBound_iff (hq : q.fault? = none) (hs : s.Fits 4) :
    (lowerBound i s).below (i.key q) = true ↔ s.Below (i.tuple q) := by
  rw [lowerBound, Side.Below]
  cases s.inclusive with
  | true =>
      simp only [if_true, Bound.below, decide_eq_true_eq]
      rw [← List.not_lt, Index.key_lt_boundKey_iff hq hs.free hs.length, Index.leading]
  | false =>
      simp only [Bool.false_eq_true, if_false, Bound.below, decide_eq_true_eq]
      exact Index.boundKey_boundary_lt_key_iff hq hs.free hs.length

theorem above_upperBound_iff (hq : q.fault? = none) (hs : s.Fits 4) :
    (upperBound i s).above (i.key q) = true ↔ s.Above (i.tuple q) := by
  rw [upperBound, Side.Above]
  cases s.inclusive with
  | true =>
      simp only [if_true, Bound.above, decide_eq_true_eq]
      rw [← List.not_lt]
      exact not_congr (Index.boundKey_boundary_lt_key_iff hq hs.free hs.length)
  | false =>
      simp only [Bool.false_eq_true, if_false, Bound.above, decide_eq_true_eq]
      exact Index.key_lt_boundKey_iff hq hs.free hs.length

/-- A key above the lower end comes after a key that begins with the name of the index. -/
theorem exists_le_of_below {k : Bytes} (h : (lowerBound i s).below k = true) :
    ∃ x, i.keyStart ++ x ≤ k := by
  rw [lowerBound] at h
  split at h
  · obtain ⟨x, hx⟩ := i.owns_boundKey s.values ""
    exact ⟨x, hx ▸ of_decide_eq_true h⟩
  · obtain ⟨x, hx⟩ := i.owns_boundKey s.values boundaryText
    exact ⟨x, hx ▸ Std.le_of_lt (of_decide_eq_true h)⟩

theorem exists_ge_of_above {k : Bytes} (h : (upperBound i s).above k = true) :
    ∃ x, k ≤ i.keyStart ++ x := by
  rw [upperBound] at h
  split at h
  · obtain ⟨x, hx⟩ := i.owns_boundKey s.values boundaryText
    exact ⟨x, hx ▸ of_decide_eq_true h⟩
  · obtain ⟨x, hx⟩ := i.owns_boundKey s.values ""
    exact ⟨x, hx ▸ Std.le_of_lt (of_decide_eq_true h)⟩

end Scan

/-! ## Filters -/

theorem Comparison.holds_ofLower (e : Endpoint) (value : String) :
    (Predicate.ofLower e).holds value = e.below value := by
  obtain ⟨v, inc⟩ := e
  cases inc <;> rfl

theorem Comparison.holds_ofUpper (e : Endpoint) (value : String) :
    (Predicate.ofUpper e).holds value = e.above value := by
  obtain ⟨v, inc⟩ := e
  cases inc <;> rfl

theorem Predicate.admits_ofConstraint (t : Term) (c : Constraint) (q : Quad) :
    (ofConstraint t c).admits q = c.admits (q.get t) := by
  cases c with
  | exact v => simp [ofConstraint, admits, Comparison.holds, Constraint.admits]
  | within r =>
      cases hl : r.lower <;> cases hu : r.upper <;>
        simp [ofConstraint, admits, Constraint.admits, Interval.contains, hl, hu,
          Comparison.holds_ofLower, Comparison.holds_ofUpper]

namespace Strategy

theorem passes_scan_filter (s : Strategy) (q : Quad) :
    Scan.passes s.scan.filter q = s.predicates.all (·.admits q) := by
  cases h : s.predicates <;> simp [scan, Scan.passes, h]

/-! ## Both together -/

variable {b : Branch} {i j : Index} {q : Quad}

theorem fits_ofBranch (hb : b.Plannable) (i : Index) : (ofBranch b i).span.Fits 4 := by
  have hall : Span.all.Fits 0 := ⟨⟨Nat.le_refl 0, nofun⟩, ⟨Nat.le_refl 0, nofun⟩⟩
  have h := hall.bindLeading hb i.terms
  rwa [i.length_terms, Nat.zero_add] at h

theorem contains_key_iff (hb : b.Plannable) (hq : q.fault? = none) :
    (ofBranch b i).scan.range.contains (i.key q) = true ↔
      (ofBranch b i).span.Admits (i.tuple q) := by
  have hf := fits_ofBranch hb i
  rw [KeyRange.contains, Bool.and_eq_true]
  exact and_congr (Scan.below_lowerBound_iff hq hf.lower) (Scan.above_upperBound_iff hq hf.upper)

/-- The places that the span does not bind are left to predicates. -/
theorem passes_iff (b : Branch) (i : Index) (q : Quad) :
    Scan.passes (ofBranch b i).scan.filter q = true ↔
      ∀ e ∈ b.entries, e.1 ∉ (Span.bindLeading b .all i.terms).2 →
        e.2.admits (q.get e.1) = true := by
  rw [passes_scan_filter]
  simp only [ofBranch, List.all_eq_true, List.mem_map, List.mem_filter, decide_eq_true_eq]
  constructor
  · intro h e he hn
    rw [← Predicate.admits_ofConstraint]
    exact h _ ⟨e, ⟨he, hn⟩, rfl⟩
  · rintro h _ ⟨e, ⟨he, hn⟩, rfl⟩
    rw [Predicate.admits_ofConstraint]
    exact h e he hn

/-- A row of the index lies in the range and passes the filter exactly if the branch admits it. -/
theorem selects_iff (hb : b.Plannable) (hq : q.fault? = none) :
    (ofBranch b i).scan.range.contains (i.key q) = true ∧
        Scan.passes (ofBranch b i).scan.filter q = true ↔ b.admits q = true := by
  have hnil : ([] : List String).length = ([] : List String).length := rfl
  have hspan := Span.admits_bindLeading hb q i.terms hnil
  rw [contains_key_iff hb hq, passes_iff, Branch.admits, List.all_eq_true]
  change (Span.bindLeading b (.pinned []) i.terms).1.Admits ([] ++ q.tuple i.terms) ∧ _ ↔ _
  rw [hspan]
  constructor
  · rintro ⟨⟨-, hbound⟩, hrest⟩ e he
    by_cases hm : e.1 ∈ (Span.bindLeading b .all i.terms).2
    · exact hbound e.1 hm e.2 ((Branch.get?_eq_some_iff hb.distinct).2 he)
    · exact hrest e he hm
  · intro h
    refine ⟨⟨rfl, ?_⟩, fun e he _ => h e he⟩
    intro t _ c hc
    exact h (t, c) ((Branch.get?_eq_some_iff hb.distinct).1 hc)

/-- The range holds only keys that begin with the name of its index. -/
theorem owns_of_contains {b : Branch} {k : Bytes}
    (h : (ofBranch b i).scan.range.contains k = true) : i.Owns k := by
  rw [KeyRange.contains, Bool.and_eq_true] at h
  obtain ⟨x, hx⟩ := Scan.exists_le_of_below h.1
  obtain ⟨y, hy⟩ := Scan.exists_ge_of_above h.2
  exact Index.prefix_of_between hx hy

theorem contains_key_of_name_ne (h : j.name ≠ i.name) (b : Branch) (q : Quad) :
    (ofBranch b i).scan.range.contains (j.key q) = false := by
  rw [Bool.eq_false_iff]
  intro hc
  exact h (Index.name_eq_of_owns (j.owns_key q) (owns_of_contains hc))

/-- Division leaves plannable branches only, and the scan of a plannable branch on an index holds
exactly the keys of the quads that satisfy it: no constraint is lost between range and filter, and
no other index is touched. -/
theorem scan_expresses_branch :
    (∀ (p : Pattern) (bs : List Branch), p.divide = .ok bs → ∀ b ∈ bs, b.Plannable) ∧
    ∀ (i : Index) (b : Branch), b.Plannable → ∀ q : Quad, q.fault? = none →
      (((ofBranch b i).scan.range.contains (i.key q) = true ∧
          Scan.passes (ofBranch b i).scan.filter q = true) ↔
        ∀ e ∈ b.entries, e.2.admits (q.get e.1) = true) ∧
      ∀ j : Index, j.name ≠ i.name → (ofBranch b i).scan.range.contains (j.key q) = false := by
  constructor
  · intro p bs hbs b hb
    obtain ⟨hp, rfl⟩ := Pattern.divide_eq_ok_iff.1 hbs
    exact Pattern.plannable_of_mem_branches hp hb
  · intro i b hb q hq
    constructor
    · rw [selects_iff hb hq, Branch.admits, List.all_eq_true]
    · intro j hj
      exact contains_key_of_name_ne hj b q

/-- A pinned subject, a free predicate and an open interval of objects on the order SPOG. -/
theorem scan_expresses_branch_spog :
    Branch.Plannable ⟨[(.subject, .exact "s"), (.object, .within { gt := some "o" })]⟩ ∧
    Quad.fault? ⟨"s", "p", "oo", "g"⟩ = none ∧
    (ofBranch ⟨[(.subject, .exact "s"), (.object, .within { gt := some "o" })]⟩
      Registry.standard.first).scan.range.contains
        (Registry.standard.first.key ⟨"s", "p", "oo", "g"⟩) = true := by
  have hb : Branch.Plannable
      ⟨[(.subject, .exact "s"), (.object, .within { gt := some "o" })]⟩ := by
    refine ⟨by decide, ?_⟩
    intro e he
    rcases List.mem_cons.1 he with rfl | he
    · exact ⟨by decide, by decide⟩
    · rw [List.mem_singleton.1 he]
      exact ⟨by decide, by decide⟩
  have hq : Quad.fault? ⟨"s", "p", "oo", "g"⟩ = none := by decide
  exact ⟨hb, hq, ((scan_expresses_branch.2 _ _ hb _ hq).1.2 (by decide)).1⟩

end Strategy
end QuadIndex
