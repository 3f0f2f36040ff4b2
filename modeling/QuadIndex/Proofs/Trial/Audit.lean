import QuadIndex.Proofs.Pattern.Division
import QuadIndex.Proofs.Store.Content
import QuadIndex.Trial.Audit

/-! # What audits find

The results of a query are compared as a set. Of what they should be, this checks that they are the
quads that match, but not that only quads that satisfy several branches are repeated. -/

namespace QuadIndex.Audit

/-- What the results of a query without paging should be: the expected quads, repeated only where
branches overlap. -/
structure Faithful (branches : List Branch) (expected results : List Quad) : Prop where
  mem_iff : ∀ q, q ∈ results ↔ q ∈ expected
  overlaps : ∀ q, 1 < results.count q → 1 < branches.countP (·.admits q)

variable {p : Pattern} {bs : List Branch} {results others : List Quad} {m : Model}

theorem query_eq_nil_iff (hm : Quad.Ascending m.quads) :
    query p results m = [] ↔ ∀ q, q ∈ results ↔ q ∈ m.expected p := by
  have hset : Quad.ascending results = m.expected p ↔ ∀ q, q ∈ results ↔ q ∈ m.expected p := by
    constructor
    · intro h q
      rw [← h, Quad.mem_ascending_iff]
    · intro h
      refine (Quad.ascending_ascending results).eq_of_mem_iff (Model.ascending_expected hm p) ?_
      intro q
      rw [Quad.mem_ascending_iff, h q]
  rw [query, ← hset]
  split
  · next h => exact iff_of_true rfl h
  · next h => exact iff_of_false (List.cons_ne_nil _ _) h

theorem paging_eq_nil_iff {page : Paging} {full paged : List Quad} :
    paging page full paged = [] ↔ paged = page.slice full := by
  rw [paging]
  split
  · next h => exact iff_of_true rfl h
  · next h => exact iff_of_false (List.cons_ne_nil _ _) h

theorem cursors_eq_nil_iff {c : Counters} :
    cursors c = [] ↔ c.openCursors = 0 ∧ c.maxOpenCursors ≤ 1 := by
  by_cases hopen : c.openCursors = 0 <;> by_cases hmax : c.maxOpenCursors ≤ 1 <;>
    simp [cursors, hopen, hmax]

/-- Only the members of the results count, not their order or how often they occur. -/
theorem query_congr (h : ∀ q, q ∈ others ↔ q ∈ results) : query p others m = query p results m := by
  have hset : Quad.ascending others = Quad.ascending results := by
    refine (Quad.ascending_ascending others).eq_of_mem_iff (Quad.ascending_ascending results) ?_
    intro q
    rw [Quad.mem_ascending_iff, Quad.mem_ascending_iff, h]
  rw [query, query, hset]

theorem countP_branches_pos (hp : p.divide = .ok bs) {q : Quad} (hq : q ∈ m.expected p) :
    0 < bs.countP (·.admits q) := by
  obtain ⟨-, rfl⟩ := Pattern.divide_eq_ok_iff.1 hp
  rw [Pattern.countP_branches, Pattern.multiplicity_pos_iff]
  exact (Model.mem_expected_iff.1 hq).2

/-- The audit finds nothing exactly if the results have the members that are expected, and tells the
difference otherwise. So what it misses are results that repeat a quad with a single branch. -/
theorem query_compares_sets (hp : p.divide = .ok bs) (hm : Quad.Ascending m.quads)
    (results : List Quad) :
    (query p results m = [] ↔ ∀ q, q ∈ results ↔ q ∈ m.expected p) ∧
      (Faithful bs (m.expected p) results → query p results m = []) ∧
      (query p results m = [] → (¬ Faithful bs (m.expected p) results ↔
        ∃ q ∈ results, 1 < results.count q ∧ bs.countP (·.admits q) = 1)) ∧
      (∀ others, (∀ q, q ∈ others ↔ q ∈ results) → query p others m = query p results m) ∧
      (query p results m ≠ [] → ∃ missing unexpected,
        query p results m = [.resultDiffers p missing unexpected] ∧
          Quad.Ascending missing ∧ (∀ q, q ∈ missing ↔ q ∈ m.expected p ∧ q ∉ results) ∧
          Quad.Ascending unexpected ∧ ∀ q, q ∈ unexpected ↔ q ∈ results ∧ q ∉ m.expected p) := by
  refine ⟨query_eq_nil_iff hm, fun h => (query_eq_nil_iff hm).2 h.mem_iff, fun hnil => ?_,
    fun _ => query_congr, fun hne => ?_⟩
  · have hmem := (query_eq_nil_iff hm).1 hnil
    constructor
    · intro hunfaithful
      by_contra hnone
      refine hunfaithful ⟨hmem, fun q hq => ?_⟩
      have hin : q ∈ results := List.count_pos_iff.1 (Nat.lt_trans Nat.zero_lt_one hq)
      have hpos := countP_branches_pos hp ((hmem q).1 hin)
      have hone : bs.countP (·.admits q) ≠ 1 := fun hone => hnone ⟨q, hin, hq, hone⟩
      omega
    · rintro ⟨q, -, hq, hone⟩ hfaithful
      exact Nat.ne_of_gt (hfaithful.overlaps q hq) hone
  · have hdiffer : Quad.ascending results ≠ m.expected p := fun h => hne (if_pos h)
    rw [query, if_neg hdiffer]
    refine ⟨_, _, rfl, (Model.ascending_expected hm p).filter _, fun q => ?_,
      (Quad.ascending_ascending results).filter _, fun q => ?_⟩
    · rw [List.mem_filter, decide_eq_true_eq, Quad.mem_ascending_iff]
    · rw [List.mem_filter, decide_eq_true_eq, Quad.mem_ascending_iff]

theorem query_compares_sets_one_missing :
    let m := (Model.empty "g").put [⟨"s", "p", "o", ""⟩, ⟨"t", "p", "o", ""⟩]
    ∃ missing unexpected,
      query .empty [⟨"s", "p", "o", "g"⟩, ⟨"r", "p", "o", "g"⟩] m =
          [.resultDiffers .empty missing unexpected] ∧
        ⟨"t", "p", "o", "g"⟩ ∈ missing ∧ ⟨"r", "p", "o", "g"⟩ ∈ unexpected := by
  intro m
  have hdivide : Pattern.divide .empty = .ok [⟨[]⟩] := rfl
  have hm : Quad.Ascending m.quads := Model.ascending_put .nil _
  obtain ⟨-, -, -, -, hfound⟩ :=
    query_compares_sets hdivide hm [⟨"s", "p", "o", "g"⟩, ⟨"r", "p", "o", "g"⟩]
  obtain ⟨missing, unexpected, heq, -, hmissing, -, hunexpected⟩ := hfound (by decide)
  exact ⟨missing, unexpected, heq, (hmissing _).2 (by decide), (hunexpected _).2 (by decide)⟩

/-- A quad that has one branch is given twice, and the audit finds nothing. -/
theorem query_misses_repeat :
    let q : Quad := ⟨"s", "p", "o", "g"⟩
    let m := (Model.empty "g").put [q]
    Pattern.divide .empty = .ok [⟨[]⟩] ∧ Quad.Ascending m.quads ∧ query .empty [q, q] m = [] ∧
      ¬ Faithful [⟨[]⟩] (m.expected .empty) [q, q] := by
  intro q m
  refine ⟨rfl, Model.ascending_put .nil _, by decide, fun h => ?_⟩
  have hoverlaps := h.overlaps q (by decide)
  revert hoverlaps
  decide

end QuadIndex.Audit
