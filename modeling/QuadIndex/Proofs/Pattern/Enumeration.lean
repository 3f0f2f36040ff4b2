import Mathlib.Data.List.Forall2
import QuadIndex.Proofs.Plan.Choice

/-! # Branches in the order of their choices

A branch of a pattern comes of choosing one position in each of its lists. The branches stand in the
lexicographic order of these positions, so the last list varies fastest. -/

namespace QuadIndex

/-! ## Choosing positions -/

def Selector.list? : Selector → Option (List Constraint)
  | one _ => none
  | anyOf cs => some cs

def Pattern.listsOf (es : List (Term × Selector)) : List (List Constraint) :=
  es.filterMap fun e => e.2.list?

def Pattern.lists (p : Pattern) : List (List Constraint) := listsOf p.entries

namespace Pattern

/-- Positions in the lists of selectors choose a constraint for each place. -/
inductive Chosen : List (Term × Selector) → List Nat → List (Term × Constraint) → Prop
  | nil : Chosen [] [] []
  | one {t : Term} {c : Constraint} {es : List (Term × Selector)} {ks : List Nat}
      {bs : List (Term × Constraint)} (later : Chosen es ks bs) :
      Chosen ((t, .one c) :: es) ks ((t, c) :: bs)
  | anyOf {t : Term} {cs : List Constraint} {k : Nat} {c : Constraint}
      {es : List (Term × Selector)} {ks : List Nat} {bs : List (Term × Constraint)}
      (here : cs[k]? = some c) (later : Chosen es ks bs) :
      Chosen ((t, .anyOf cs) :: es) (k :: ks) ((t, c) :: bs)

/-- Every way to choose a position in each list. The last position varies fastest. -/
def positions : List (List Constraint) → List (List Nat)
  | [] => [[]]
  | cs :: css => (List.range cs.length).flatMap fun k => (positions css).map (k :: ·)

theorem mem_positions_iff {css : List (List Constraint)} {ks : List Nat} :
    ks ∈ positions css ↔ List.Forall₂ (fun k cs => k < cs.length) ks css := by
  induction css generalizing ks with
  | nil => simp [positions]
  | cons cs css ih =>
      simp only [positions, List.mem_flatMap, List.mem_range, List.mem_map, ih,
        List.forall₂_cons_right_iff]
      constructor
      · rintro ⟨k, hk, ls, hls, rfl⟩
        exact ⟨k, ls, hk, hls, rfl⟩
      · rintro ⟨k, ls, hk, hls, rfl⟩
        exact ⟨k, hk, ls, hls, rfl⟩

theorem pairwise_positions (css : List (List Constraint)) :
    (positions css).Pairwise (· < ·) := by
  induction css with
  | nil => exact List.pairwise_singleton _ _
  | cons cs css ih =>
      rw [positions, List.pairwise_flatMap]
      constructor
      · intro k _
        rw [List.pairwise_map]
        exact ih.imp fun h => List.cons_lt_cons_iff.2 (.inr ⟨rfl, h⟩)
      · refine List.pairwise_lt_range.imp fun {j k} hjk ls hls ms hms => ?_
        obtain ⟨_, -, rfl⟩ := List.mem_map.1 hls
        obtain ⟨_, -, rfl⟩ := List.mem_map.1 hms
        exact List.cons_lt_cons_iff.2 (.inl hjk)

theorem length_positions (css : List (List Constraint)) :
    (positions css).length = (css.map List.length).prod := by
  induction css with
  | nil => rfl
  | cons cs css ih => simp [positions, List.length_flatMap, ih]

theorem forall₂_range_getElem? (cs : List Constraint) :
    List.Forall₂ (fun k c => cs[k]? = some c) (List.range cs.length) cs := by
  rw [List.forall₂_iff_get]
  simp

/-- Each choice is made by the positions that stand where it stands. -/
theorem forall₂_chosen (es : List (Term × Selector)) :
    List.Forall₂ (Chosen es) (positions (listsOf es)) (choices es) := by
  induction es with
  | nil => exact .cons .nil .nil
  | cons e es ih =>
      obtain ⟨t, s⟩ := e
      cases s with
      | one c =>
          have hchoices : choices ((t, .one c) :: es) = (choices es).map ((t, c) :: ·) :=
            List.flatMap_singleton _ _
          have hlists : listsOf ((t, .one c) :: es) = listsOf es := rfl
          rw [hchoices, hlists, List.forall₂_map_right_iff]
          exact ih.imp fun _ _ h => .one h
      | anyOf cs =>
          have hlists : listsOf ((t, .anyOf cs) :: es) = cs :: listsOf es := rfl
          rw [hlists]
          refine List.rel_flatMap (forall₂_range_getElem? cs) fun k c hk => ?_
          rw [List.forall₂_map_left_iff, List.forall₂_map_right_iff]
          exact ih.imp fun _ _ h => .anyOf hk h

variable {p : Pattern}

theorem length_branches (p : Pattern) : p.branches.length = (p.lists.map List.length).prod := by
  rw [branches, List.length_map, ← (forall₂_chosen p.entries).length_eq, length_positions]
  rfl

theorem terms_of_mem_branches {b : Branch} (hb : b ∈ p.branches) :
    b.entries.map Prod.fst = p.entries.map Prod.fst := by
  obtain ⟨bs, hbs, rfl⟩ := List.mem_map.1 hb
  exact (of_mem_choices hbs).1

theorem matchesPattern_iff (p : Pattern) (q : Quad) :
    q.matchesPattern p = true ↔ ∃ b ∈ p.branches, b.admits q = true := by
  rw [← multiplicity_pos_iff, ← countP_branches, List.countP_pos_iff]

theorem divide_eq_error_iff {f : PatternFault} : p.divide = .error f ↔ p.fault? = some f := by
  rw [divide]
  cases p.fault? <;> simp

/-! ## Division -/

/-- A pattern with a fault is refused as an invalid query. Any other divides into as many branches
as its lists have positions together. Each branch binds the places of the pattern in their order,
and the branches follow the positions that choose them. A quad satisfies as many of them as there
are ways to admit its values, so it matches the pattern if it satisfies any. -/
theorem divide_enumerates_choices (p : Pattern) :
    (∀ f, p.divide = .error f ↔ p.fault? = some f) ∧
    (∀ (f : PatternFault) (r : Registry), p.divide = .error f →
      Plan.ofPattern p r = .error (.invalidQuery f.message)) ∧
    (p.fault? = none → ∃ bs, p.divide = .ok bs ∧
      bs.length = (p.lists.map List.length).prod ∧
      (∀ b ∈ bs, b.entries.map Prod.fst = p.entries.map Prod.fst ∧
        (b.entries.map Prod.fst).Nodup) ∧
      (∃ ways : List (List Nat), ways.Pairwise (· < ·) ∧
        (∀ ks, ks ∈ ways ↔ List.Forall₂ (fun k cs => k < cs.length) ks p.lists) ∧
        List.Forall₂ (fun ks b => Chosen p.entries ks b.entries) ways bs) ∧
      ∀ q : Quad,
        bs.countP (·.admits q) =
          (p.entries.map fun e => e.2.constraints.countP (·.admits (q.get e.1))).prod ∧
        (q.matchesPattern p = true ↔ ∃ b ∈ bs, b.admits q = true)) := by
  refine ⟨fun f => divide_eq_error_iff, ?_, ?_⟩
  · intro f r hf
    exact Plan.ofPattern_eq_error (divide_eq_error_iff.1 hf) r
  · intro hp
    refine ⟨p.branches, divide_eq_ok_iff.2 ⟨hp, rfl⟩, length_branches p, ?_, ?_, ?_⟩
    · intro b hb
      have hterms := terms_of_mem_branches hb
      exact ⟨hterms, hterms ▸ p.distinct⟩
    · refine ⟨positions p.lists, pairwise_positions p.lists, fun ks => mem_positions_iff, ?_⟩
      rw [branches, List.forall₂_map_right_iff]
      exact forall₂_chosen p.entries
    · intro q
      refine ⟨?_, matchesPattern_iff p q⟩
      rw [countP_branches, multiplicity]
      simp only [Selector.multiplicity_eq_countP]

/-- Two lists of two, one of which repeats its element. A quad that has the first value of the other
list satisfies all four branches, and one that has only the second satisfies two. -/
theorem divide_enumerates_four :
    ∃ bs, divide ⟨[(.subject, .anyOf [.exact "s", .exact "s"]), (.predicate, .one (.exact "p")),
        (.object, .anyOf [.exact "o", .within { gte := some "o" }])], by decide⟩ = .ok bs ∧
      bs.length = 4 ∧
      bs.countP (·.admits ⟨"s", "p", "o", "g"⟩) = 4 ∧
      bs.countP (·.admits ⟨"s", "p", "r", "g"⟩) = 2 := by
  obtain ⟨-, -, hok⟩ := divide_enumerates_choices
    ⟨[(.subject, .anyOf [.exact "s", .exact "s"]), (.predicate, .one (.exact "p")),
      (.object, .anyOf [.exact "o", .within { gte := some "o" }])], by decide⟩
  obtain ⟨bs, hbs, hlength, -, -, hcount⟩ := hok (by decide)
  refine ⟨bs, hbs, hlength.trans (by decide), ?_, ?_⟩
  · rw [(hcount _).1]
    decide
  · rw [(hcount _).1]
    decide

end Pattern
end QuadIndex
