import Mathlib.Algebra.BigOperators.Group.List.Basic
import QuadIndex.Pattern.Branch
import QuadIndex.Proofs.Pattern.Faults
import QuadIndex.Proofs.Plan.Span

/-! # The branches of a pattern

A quad satisfies as many branches as there are ways to choose, at each place of the pattern, a
constraint that admits its value. -/

namespace QuadIndex

/-! ## Faultless patterns -/

theorem Constraint.plannable_of_fault?_eq_none {t : Term} {c : Constraint}
    (h : c.fault? t = none) : c.Plannable := by
  cases c with
  | exact v =>
      refine ⟨List.cons_ne_nil v [], ?_⟩
      intro w hw
      rw [List.mem_singleton.1 hw]
      exact fault?_exact_eq_none_iff.1 h
  | within r =>
      obtain ⟨-, -, hne, hfree⟩ := Interval.fault?_eq_none_iff.1 h
      exact ⟨hne, hfree⟩

theorem Selector.plannable_of_fault?_eq_none {t : Term} {s : Selector} (h : s.fault? t = none) :
    ∀ c ∈ s.constraints, c.Plannable := by
  cases s with
  | one c =>
      intro d hd
      rw [List.mem_singleton.1 hd]
      exact Constraint.plannable_of_fault?_eq_none h
  | anyOf cs =>
      intro d hd
      exact Constraint.plannable_of_fault?_eq_none ((fault?_anyOf_eq_none_iff.1 h).2 d hd)

namespace Pattern

/-- A choice binds the places of the entries, each to one of its constraints. -/
theorem of_mem_choices {es : List (Term × Selector)} {bs : List (Term × Constraint)}
    (h : bs ∈ choices es) :
    bs.map Prod.fst = es.map Prod.fst ∧
      ∀ b ∈ bs, ∃ e ∈ es, b.1 = e.1 ∧ b.2 ∈ e.2.constraints := by
  induction es generalizing bs with
  | nil =>
      rw [choices, List.mem_singleton] at h
      simp [h]
  | cons e es ih =>
      simp only [choices, List.mem_flatMap, List.mem_map] at h
      obtain ⟨c, hc, cs, hcs, rfl⟩ := h
      obtain ⟨hmap, hmem⟩ := ih hcs
      refine ⟨by rw [List.map_cons, List.map_cons, hmap], ?_⟩
      intro b hb
      rcases List.mem_cons.1 hb with rfl | hb
      · exact ⟨e, List.mem_cons_self, rfl, hc⟩
      · obtain ⟨e', he', heq⟩ := hmem b hb
        exact ⟨e', List.mem_cons_of_mem e he', heq⟩

variable {p : Pattern}

theorem divide_eq_ok_iff {bs : List Branch} :
    p.divide = .ok bs ↔ p.fault? = none ∧ bs = p.branches := by
  rw [divide]
  cases p.fault? <;> simp [eq_comm]

/-- Division leaves only branches that planning can rely on. -/
theorem plannable_of_mem_branches (hp : p.fault? = none) {b : Branch} (hb : b ∈ p.branches) :
    b.Plannable := by
  obtain ⟨es, hes, rfl⟩ := List.mem_map.1 hb
  obtain ⟨hmap, hmem⟩ := of_mem_choices hes
  refine ⟨hmap ▸ p.distinct, ?_⟩
  intro c hc
  obtain ⟨e, he, -, hce⟩ := hmem c hc
  exact Selector.plannable_of_fault?_eq_none (fault?_eq_none_iff.1 hp e he) c.2 hce

end Pattern

/-! ## How many branches a quad satisfies -/

def Selector.multiplicity (value : String) : Selector → Nat
  | one c => if c.admits value then 1 else 0
  | anyOf cs => cs.countP (·.admits value)

theorem Selector.multiplicity_eq_countP (s : Selector) (value : String) :
    s.multiplicity value = s.constraints.countP (·.admits value) := by
  cases s with
  | one c => rw [multiplicity, constraints, List.countP_singleton]
  | anyOf cs => rfl

/-- In how many ways the quad satisfies the pattern. -/
def Pattern.multiplicity (p : Pattern) (q : Quad) : Nat :=
  (p.entries.map fun e => e.2.multiplicity (q.get e.1)).prod

namespace Pattern

/-- Choosing first among constraints and then among the rest multiplies the counts. -/
theorem countP_flatMap_cons (q : Quad) (t : Term) (cs : List Constraint)
    (rest : List (List (Term × Constraint))) :
    (cs.flatMap fun c => rest.map ((t, c) :: ·)).countP
        (fun bs => bs.all fun b => b.2.admits (q.get b.1)) =
      cs.countP (·.admits (q.get t)) *
        rest.countP (fun bs => bs.all fun b => b.2.admits (q.get b.1)) := by
  induction cs with
  | nil => simp
  | cons c cs ih =>
      rw [List.flatMap_cons, List.countP_append, ih, List.countP_map, List.countP_cons]
      cases hc : c.admits (q.get t) with
      | false => simp [Function.comp_def, hc]
      | true => simp [Function.comp_def, hc, Nat.add_mul, Nat.add_comm]

theorem countP_choices (q : Quad) (es : List (Term × Selector)) :
    (choices es).countP (fun bs => bs.all fun b => b.2.admits (q.get b.1)) =
      (es.map fun e => e.2.multiplicity (q.get e.1)).prod := by
  induction es with
  | nil => rfl
  | cons e es ih =>
      rw [choices, countP_flatMap_cons, ih, List.map_cons, List.prod_cons,
        Selector.multiplicity_eq_countP]

theorem countP_branches (p : Pattern) (q : Quad) :
    p.branches.countP (·.admits q) = p.multiplicity q := by
  rw [branches, List.countP_map, multiplicity, ← countP_choices]
  rfl

theorem multiplicity_pos_iff (p : Pattern) (q : Quad) :
    0 < p.multiplicity q ↔ q.matchesPattern p = true := by
  rw [multiplicity, List.prod_pos_iff_forall_pos_nat, Quad.matchesPattern, List.all_eq_true,
    List.forall_mem_map]
  simp only [Selector.multiplicity_eq_countP, List.countP_pos_iff, Selector.admits,
    List.any_eq_true]

end Pattern
end QuadIndex
