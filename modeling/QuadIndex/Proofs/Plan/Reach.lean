import Mathlib.Data.List.Induction
import Mathlib.Order.Bounds.Basic
import QuadIndex.Proofs.Index.Codes
import QuadIndex.Proofs.Plan.Choice
import QuadIndex.Proofs.Plan.Pushdown

/-! # How far an index reaches into a branch

The leading places of an index are bound to keys as long as they are constrained and all before them
are pinned to one value. Every other constraint costs a predicate, so the index that reaches
furthest is the best one. -/

namespace QuadIndex

/-! ## Reach -/

def Constraint.pin? : Constraint → Option String
  | exact v => some v
  | within r => if r.gte = r.lte then r.gte else none

theorem Constraint.pin?_eq_some_iff {c : Constraint} {v : String} :
    c.pin? = some v ↔ c.Pins v := by
  cases c with
  | exact w =>
      rw [pin?, Option.some.injEq]
      constructor
      · rintro rfl
        exact .exact w
      · rintro ⟨⟩
        rfl
  | within r =>
      rw [pin?]
      split
      · next heq =>
        constructor
        · exact fun h => .within h (heq ▸ h)
        · rintro ⟨⟩
          assumption
      · next hne =>
        refine iff_of_false nofun ?_
        rintro ⟨⟩
        simp_all

namespace Branch

/-- The place is constrained to one value. -/
def Pinned (b : Branch) (t : Term) : Prop := ∃ c v, b.get? t = some c ∧ c.Pins v

/-- The first `k` places of an order are constrained, and all of them but the last are pinned. -/
structure Reaches (b : Branch) (ts : List Term) (k : Nat) : Prop where
  length : k ≤ ts.length
  constrained : ∀ t ∈ ts.take k, ∃ c, b.get? t = some c
  pinned : ∀ t ∈ ts.take (k - 1), b.Pinned t

/-- The number of places that a branch lets an order bind. -/
def reach (b : Branch) : List Term → Nat
  | [] => 0
  | t :: ts =>
    match b.get? t with
    | none => 0
    | some c => if c.pin?.isSome then reach b ts + 1 else 1

variable {b : Branch} {t : Term} {ts : List Term} {c : Constraint}

theorem pinned_iff (h : b.get? t = some c) : b.Pinned t ↔ c.pin?.isSome = true := by
  simp only [Pinned, h, Option.some.injEq, Option.isSome_iff_exists,
    Constraint.pin?_eq_some_iff, exists_eq_left', exists_and_left]

theorem reach_of_free (h : b.get? t = none) (ts : List Term) : b.reach (t :: ts) = 0 := by
  simp [reach, h]

theorem reach_of_pinned (h : b.Pinned t) (ts : List Term) :
    b.reach (t :: ts) = b.reach ts + 1 := by
  obtain ⟨c, v, hc, -⟩ := id h
  simp [reach, hc, (pinned_iff hc).1 h]

theorem reach_of_open (hc : b.get? t = some c) (h : ¬ b.Pinned t) (ts : List Term) :
    b.reach (t :: ts) = 1 := by
  rw [pinned_iff hc] at h
  simp [reach, hc, h]

theorem reaches_zero (b : Branch) (ts : List Term) : b.Reaches ts 0 :=
  ⟨Nat.zero_le _, nofun, nofun⟩

theorem reaches_one_iff : b.Reaches (t :: ts) 1 ↔ ∃ c, b.get? t = some c := by
  constructor
  · exact fun h => h.constrained t (by simp)
  · intro h
    exact ⟨by simp, by simpa using h, by simp⟩

theorem reaches_succ_succ_iff {k : Nat} :
    b.Reaches (t :: ts) (k + 2) ↔ b.Pinned t ∧ b.Reaches ts (k + 1) := by
  constructor
  · intro h
    exact ⟨h.pinned t (by simp), Nat.le_of_succ_le_succ h.length,
      fun u hu => h.constrained u (by simp [hu]), fun u hu => h.pinned u (by simp_all)⟩
  · rintro ⟨hp, h⟩
    refine ⟨Nat.succ_le_succ h.length, ?_, ?_⟩
    · intro u hu
      rw [List.take_succ_cons] at hu
      rcases List.mem_cons.1 hu with rfl | hu
      · obtain ⟨c, v, hc, -⟩ := hp
        exact ⟨c, hc⟩
      · exact h.constrained u hu
    · intro u hu
      change u ∈ (t :: ts).take (k + 1) at hu
      rw [List.take_succ_cons] at hu
      rcases List.mem_cons.1 hu with rfl | hu
      · exact hp
      · exact h.pinned u hu

/-- No order reaches further than its leading constrained places, of which the last may be open. -/
theorem isGreatest_reach (b : Branch) (ts : List Term) :
    IsGreatest {k | b.Reaches ts k} (b.reach ts) := by
  induction ts with
  | nil => exact ⟨b.reaches_zero [], fun k hk => hk.length⟩
  | cons t ts ih =>
      obtain ⟨hmem, hmax⟩ := ih
      cases hc : b.get? t with
      | none =>
          rw [reach_of_free hc]
          refine ⟨b.reaches_zero _, ?_⟩
          rintro (_ | k) hk
          · exact Nat.le_refl 0
          · obtain ⟨c, hc'⟩ := hk.constrained t (by simp)
            rw [hc] at hc'
            contradiction
      | some c =>
          by_cases hp : b.Pinned t
          · rw [reach_of_pinned hp]
            constructor
            · cases hr : b.reach ts with
              | zero => exact reaches_one_iff.2 ⟨c, hc⟩
              | succ k => exact reaches_succ_succ_iff.2 ⟨hp, hr ▸ hmem⟩
            · rintro (_ | _ | k) hk
              · exact Nat.zero_le _
              · exact Nat.succ_le_succ (Nat.zero_le _)
              · exact Nat.succ_le_succ (hmax (reaches_succ_succ_iff.1 hk).2)
          · rw [reach_of_open hc hp]
            refine ⟨reaches_one_iff.2 ⟨c, hc⟩, ?_⟩
            rintro (_ | _ | k) hk
            · exact Nat.zero_le _
            · exact Nat.le_refl 1
            · exact absurd (reaches_succ_succ_iff.1 hk).1 hp

/-! ## Key bounds -/

/-- The ends that a branch sets below at places, in their order. -/
def lowerEnds (b : Branch) (ts : List Term) : List Endpoint :=
  ts.filterMap fun t => (b.get? t).bind Constraint.lower?

def upperEnds (b : Branch) (ts : List Term) : List Endpoint :=
  ts.filterMap fun t => (b.get? t).bind Constraint.upper?

end Branch

/-- The side that is made of ends, of which the last may be left out. -/
def Side.ofEnds (es : List Endpoint) : Side :=
  ⟨es.map Endpoint.value, es.getLast?.all Endpoint.inclusive⟩

namespace Span

/-- The span that binds exactly the given places, each by the ends of its constraint. -/
def ofPlaces (b : Branch) (ts : List Term) : Span :=
  ⟨.ofEnds (b.lowerEnds ts), .ofEnds (b.upperEnds ts)⟩

variable {b : Branch} {t : Term} {ts us : List Term} {c : Constraint}

theorem extend_ofEnds (es : List Endpoint) (e : Option Endpoint) :
    extend (.ofEnds es) e = .ofEnds (es ++ e.toList) := by
  cases e <;> simp [extend, Side.ofEnds]

theorem ofPlaces_concat (hc : b.get? t = some c) (us : List Term) :
    ofPlaces b (us ++ [t]) = (ofPlaces b us).bind c := by
  have hone {f : Constraint → Option Endpoint} :
      [t].filterMap (fun t => (b.get? t).bind f) = (f c).toList := by
    cases hf : f c <;> simp [hc, hf]
  rw [bind_eq, ofPlaces, ofPlaces, extend_ofEnds, extend_ofEnds, Branch.lowerEnds,
    Branch.upperEnds, List.filterMap_append, List.filterMap_append, hone, hone]
  rfl

theorem exists_pinned_eq_ofPlaces (h : ∀ u ∈ us, b.Pinned u) :
    ∃ ws, ofPlaces b us = pinned ws := by
  induction us using List.reverseRecOn with
  | nil => exact ⟨[], rfl⟩
  | append_singleton us u ih =>
      obtain ⟨ws, hws⟩ := ih fun w hw => h w (List.mem_append_left _ hw)
      obtain ⟨c, v, hc, hv⟩ := h u (List.mem_append_right _ List.mem_cons_self)
      exact ⟨ws ++ [v], by rw [ofPlaces_concat hc, hws, bind_of_pins hv]⟩

/-- The places that an order lets a branch bind are as many as it reaches. -/
theorem bindLeading_eq (hb : b.Plannable) (ts : List Term) (h : ∀ u ∈ us, b.Pinned u) :
    bindLeading b (ofPlaces b us) ts =
      (ofPlaces b (us ++ ts.take (b.reach ts)), ts.take (b.reach ts)) := by
  obtain ⟨ws, hws⟩ := exists_pinned_eq_ofPlaces h
  have hpinned : (ofPlaces b us).isPinned = true := hws ▸ isPinned_pinned ws
  induction ts generalizing us ws with
  | nil => simp [bindLeading]
  | cons t ts ih =>
      cases hc : b.get? t with
      | none => simp [bindLeading_cons_none hc, Branch.reach_of_free hc]
      | some c =>
          rw [bindLeading_cons_some hc hpinned, ← ofPlaces_concat hc]
          by_cases hp : b.Pinned t
          · have hall : ∀ u ∈ us ++ [t], b.Pinned u := by
              simpa [or_imp, forall_and] using ⟨h, hp⟩
            obtain ⟨ws', hws'⟩ := exists_pinned_eq_ofPlaces hall
            rw [ih hall ws' hws' (hws' ▸ isPinned_pinned ws'), Branch.reach_of_pinned hp,
              List.take_succ_cons, List.append_assoc, List.singleton_append]
          · have hopen : (ofPlaces b (us ++ [t])).isPinned = false := by
              rw [ofPlaces_concat hc, hws, ← Bool.not_eq_true]
              intro hstill
              obtain ⟨v, hv⟩ := pins_of_isPinned_bind (hb.constraint hc) hstill
              exact hp ⟨c, v, hc, hv⟩
            rw [bindLeading_of_not_isPinned hopen, Branch.reach_of_open hc hp,
              List.take_succ_cons, List.take_zero]

end Span

/-! ## Strategies -/

namespace Index

theorem nodup_terms (i : Index) : i.terms.Nodup := i.perm_all.nodup_iff.2 (by decide)

end Index

namespace Strategy

/-- The strategy binds exactly the given places of a branch to keys and leaves every other
constraint to a predicate of its own, in the order of the branch. -/
structure Splits (s : Strategy) (b : Branch) (ts : List Term) : Prop where
  span : s.span = .ofPlaces b ts
  /-- A place that is bound has an end on one side at least. -/
  bound : ∀ t ∈ ts, ∃ c, b.get? t = some c ∧ (c.lower? ≠ none ∨ c.upper? ≠ none)
  predicates : s.predicates =
    (b.entries.filter fun e => e.1 ∉ ts).map fun e => .ofConstraint e.1 e.2

variable {b : Branch} {i j : Index}

def boundPlaces (b : Branch) (i : Index) : List Term := i.terms.take (b.reach i.terms)

theorem splits_ofBranch (hb : b.Plannable) (i : Index) :
    (ofBranch b i).Splits b (boundPlaces b i) := by
  have hnone : ∀ u ∈ ([] : List Term), b.Pinned u := nofun
  have hbind := Span.bindLeading_eq hb i.terms hnone
  have hall : Span.ofPlaces b [] = .all := rfl
  rw [hall, List.nil_append] at hbind
  refine ⟨?_, ?_, ?_⟩
  · rw [ofBranch, hbind]
    rfl
  · intro t ht
    obtain ⟨c, hc⟩ := (b.isGreatest_reach i.terms).1.constrained t ht
    exact ⟨c, hc, (hb.constraint hc).lower?_or_upper?⟩
  · rw [ofBranch, hbind]
    rfl

theorem countP_bound (hb : b.Plannable) (i : Index) :
    b.entries.countP (fun e => e.1 ∈ boundPlaces b i) = b.reach i.terms := by
  have hlength : (boundPlaces b i).length = b.reach i.terms :=
    List.length_take_of_le (b.isGreatest_reach i.terms).1.length
  have hperm : (boundPlaces b i).Perm
      ((b.entries.map Prod.fst).filter (· ∈ boundPlaces b i)) := by
    refine (List.perm_ext_iff_of_nodup (i.nodup_terms.sublist (List.take_sublist _ _))
      (hb.distinct.filter _)).2 fun t => ?_
    rw [List.mem_filter, decide_eq_true_iff]
    refine (and_iff_right_of_imp fun ht => ?_).symm
    obtain ⟨c, hc, -⟩ := (splits_ofBranch hb i).bound t ht
    exact List.mem_map.2 ⟨_, (Branch.get?_eq_some_iff hb.distinct).1 hc, rfl⟩
  rw [← hlength, hperm.length_eq, ← List.countP_eq_length_filter, List.countP_map]
  rfl

theorem length_predicates (hb : b.Plannable) (i : Index) :
    b.reach i.terms + (ofBranch b i).predicates.length = b.size := by
  rw [(splits_ofBranch hb i).predicates, List.length_map, ← List.countP_eq_length_filter,
    ← countP_bound hb i, Branch.size,
    List.length_eq_countP_add_countP (fun e => decide (e.1 ∈ boundPlaces b i))]
  simp only [decide_eq_true_eq]

theorem score_eq (s : Strategy) : s.score = 100 - 10 * (s.predicates.length : Int) := rfl

/-- The further an index reaches, the better is its strategy. -/
theorem score_lt_iff (hb : b.Plannable) :
    (ofBranch b j).score < (ofBranch b i).score ↔ b.reach j.terms < b.reach i.terms := by
  have hi := length_predicates hb i
  have hj := length_predicates hb j
  rw [score_eq, score_eq]
  omega

theorem length_predicates_le (h : (ofBranch b j).score ≤ (ofBranch b i).score) :
    (ofBranch b i).predicates.length ≤ (ofBranch b j).predicates.length := by
  rw [score_eq, score_eq] at h
  omega

/-- What is bound and what is left to predicates is the whole branch. -/
theorem Splits.admits_iff {s : Strategy} {ts : List Term} (h : s.Splits b ts) (q : Quad) :
    b.admits q = true ↔ (∀ e ∈ b.entries, e.1 ∈ ts → e.2.admits (q.get e.1) = true) ∧
      ∀ p ∈ s.predicates, p.admits q = true := by
  rw [Branch.admits, List.all_eq_true, h.predicates, List.forall_mem_map]
  simp only [List.mem_filter, decide_eq_true_eq, and_imp, Predicate.admits_ofConstraint]
  constructor
  · exact fun hall => ⟨fun e he _ => hall e he, fun e he _ => hall e he⟩
  · rintro ⟨hbound, hrest⟩ e he
    by_cases ht : e.1 ∈ ts
    · exact hbound e he ht
    · exact hrest e he ht

end Strategy

namespace Plan

/-- Each branch is answered from the first of the indexes that reach furthest into it. The strategy
binds the places that are reached and has a predicate for every other constraint, so nothing of the
branch is lost, and no other index would leave fewer predicates. -/
theorem choice_reaches_furthest {p : Pattern} (hp : p.fault? = none) (r : Registry) :
    ∃ plan, ofPattern p r = .ok plan ∧ p.divide = .ok (plan.choices.map Choice.branch) ∧
      ∀ c ∈ plan.choices,
        (∀ i ∈ r.indexes,
          IsGreatest {k | c.branch.Reaches i.terms k} (c.branch.reach i.terms)) ∧
        FirstMax (fun i => c.branch.reach i.terms) r.indexes c.strategy.index ∧
        c.strategy.Splits c.branch
          (c.strategy.index.terms.take (c.branch.reach c.strategy.index.terms)) ∧
        (∀ q, c.branch.admits q = true ↔
          (∀ e ∈ c.branch.entries,
            e.1 ∈ c.strategy.index.terms.take (c.branch.reach c.strategy.index.terms) →
              e.2.admits (q.get e.1) = true) ∧
          ∀ p ∈ c.strategy.predicates, p.admits q = true) ∧
        c.strategy.score = 100 - 10 * (c.strategy.predicates.length : Int) ∧
        FirstMax (fun i => (Strategy.ofBranch c.branch i).score) r.indexes c.strategy.index ∧
        c.strategy = .ofBranch c.branch c.strategy.index ∧
        ∀ i ∈ r.indexes,
          c.strategy.predicates.length ≤ (Strategy.ofBranch c.branch i).predicates.length := by
  obtain ⟨plan, hplan, hbranches, hchosen⟩ := ofPattern_eq_ok hp r
  refine ⟨plan, hplan, Pattern.divide_eq_ok_iff.2 ⟨hp, hbranches⟩, ?_⟩
  intro c hc
  have hb : c.branch.Plannable :=
    Pattern.plannable_of_mem_branches hp (hbranches ▸ List.mem_map.2 ⟨c, hc, rfl⟩)
  obtain ⟨i, hi, hs⟩ := hchosen c hc
  have hindex : c.strategy.index = i := by
    rw [hs]
    rfl
  rw [hindex]
  have hsplits := Strategy.splits_ofBranch hb i
  refine ⟨fun j _ => c.branch.isGreatest_reach j.terms, ?_, ?_, ?_, rfl, hi, hs, ?_⟩
  · refine hi.rescale (fun j hj => (Strategy.score_lt_iff hb).1 hj) fun j hj => ?_
    exact Nat.le_of_not_lt fun hlt => not_lt.2 hj ((Strategy.score_lt_iff hb).2 hlt)
  · rw [hs]
    exact hsplits
  · rw [hs]
    exact hsplits.admits_iff
  · intro j hj
    rw [hs]
    exact Strategy.length_predicates_le (hi.le hj)

/-- An interval of subjects and one object: an index that begins with the object reaches both
places, so no predicate is left, and the first index is not chosen. -/
theorem choice_reaches_furthest_second :
    ∃ plan, ofPattern ⟨[(.subject, .one (.within { gte := some "s3", lte := some "s7" })),
        (.object, .one (.exact "o1"))], by decide⟩ .standard = .ok plan ∧
      plan.choices.map Choice.branch =
        [⟨[(.subject, .within { gte := some "s3", lte := some "s7" }), (.object, .exact "o1")]⟩] ∧
      ∀ c ∈ plan.choices,
        c.strategy.predicates = [] ∧ c.strategy.index ≠ Registry.standard.first := by
  obtain ⟨plan, hplan, hdivide, hall⟩ := choice_reaches_furthest
    (p := ⟨[(.subject, .one (.within { gte := some "s3", lte := some "s7" })),
      (.object, .one (.exact "o1"))], by decide⟩) (by decide) .standard
  have hbranches : plan.choices.map Choice.branch =
      [⟨[(.subject, .within { gte := some "s3", lte := some "s7" }), (.object, .exact "o1")]⟩] :=
    (Except.ok.inj hdivide).symm
  refine ⟨plan, hplan, hbranches, ?_⟩
  intro c hc
  have hbranch : c.branch =
      ⟨[(.subject, .within { gte := some "s3", lte := some "s7" }), (.object, .exact "o1")]⟩ :=
    List.mem_singleton.1 (hbranches ▸ List.mem_map.2 ⟨c, hc, rfl⟩)
  obtain ⟨-, -, -, -, -, -, hs, hfew⟩ := hall c hc
  rw [hbranch] at hs hfew
  have hnone : c.strategy.predicates = [] := by
    refine List.length_eq_zero_iff.1 (Nat.le_zero.1 ?_)
    exact hfew ⟨"OSPG", [.object, .subject, .predicate, .context], by decide, by decide, rfl,
      fun t => by cases t <;> decide⟩ (by decide)
  refine ⟨hnone, fun hfirst => ?_⟩
  rw [hs, hfirst] at hnone
  exact absurd hnone (by decide)

end Plan
end QuadIndex
