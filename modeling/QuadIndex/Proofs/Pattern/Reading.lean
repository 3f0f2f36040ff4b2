import Mathlib.Data.List.Forall2
import Mathlib.Data.List.Induction
import QuadIndex.Plan.Basic
import QuadIndex.Proofs.Index.KeyOrder
import QuadIndex.Proofs.Json.Rendering
import QuadIndex.Proofs.Pattern.Faults
import QuadIndex.Proofs.Record.RoundTrip

/-! # The JSON values that are patterns

A value spells at most one pattern, and the reader finds it. The patterns without fault are spelled
by the values of one shape, which is stated here apart from the reader. -/

namespace QuadIndex

open Json (Draft)

namespace Json

/-! ## The shape of a pattern -/

/-- A string that can be looked for. -/
def IsFree (s : String) : Prop := '\x00' ∉ s.toList ∧ Char.ofNat 0x10FFFF ∉ s.toList

/-- The members of a range object. -/
structure IsRange (ms : List (String × Json)) : Prop where
  keys : ∀ m ∈ ms, m.1 ∈ ["gt", "gte", "lt", "lte"]
  nodup : (ms.map Prod.fst).Nodup
  strings : ∀ m ∈ ms, ∃ s, m.2 = string s ∧ IsFree s
  lower : ¬ ("gt" ∈ ms.map Prod.fst ∧ "gte" ∈ ms.map Prod.fst)
  upper : ¬ ("lt" ∈ ms.map Prod.fst ∧ "lte" ∈ ms.map Prod.fst)
  nonempty : ms ≠ []

inductive IsConstraint : Json → Prop
  | string {s : String} (h : IsFree s) : IsConstraint (string s)
  | range {ms : List (String × Json)} (h : IsRange ms) : IsConstraint (object ms)

inductive IsSelector : Json → Prop
  | one {v : Json} (h : IsConstraint v) : IsSelector v
  | list {vs : List Json} (hne : vs ≠ []) (h : ∀ v ∈ vs, IsConstraint v) : IsSelector (array vs)

/-- The place that a key names: a context is a graph as well. -/
inductive NamesTerm : String → Term → Prop
  | subject : NamesTerm "subject" .subject
  | predicate : NamesTerm "predicate" .predicate
  | object : NamesTerm "object" .object
  | context : NamesTerm "context" .context
  | graph : NamesTerm "graph" .context

/-- An object whose keys name places, no place twice. -/
inductive IsPattern : Json → Prop
  | object {ms : List (String × Json)} (keys : ∀ m ∈ ms, ∃ t, NamesTerm m.1 t)
      (distinct : ms.Pairwise fun m n => ∀ t, ¬ (NamesTerm m.1 t ∧ NamesTerm n.1 t))
      (values : ∀ m ∈ ms, IsSelector m.2) : IsPattern (object ms)

theorem namesTerm_iff {key : String} {t : Term} : NamesTerm key t ↔ Term.ofName? key = some t := by
  constructor
  · intro h
    cases h <;> rfl
  · intro h
    rw [Term.ofName?] at h
    split_ifs at h with hs hp ho hc
    · rw [← Option.some.inj h, hs]
      exact .subject
    · rw [← Option.some.inj h, hp]
      exact .predicate
    · rw [← Option.some.inj h, ho]
      exact .object
    · rw [← Option.some.inj h]
      rcases hc with rfl | rfl
      · exact .context
      · exact .graph

theorem NamesTerm.unique {key : String} {t t' : Term} (h : NamesTerm key t)
    (h' : NamesTerm key t') : t = t' :=
  Option.some.inj ((namesTerm_iff.1 h).symm.trans (namesTerm_iff.1 h'))

theorem isFree_iff {s : String} : IsFree s ↔ isReserved s = false :=
  isReserved_eq_false_iff.symm

end Json

/-! ## What a value says -/

/-- The members set exactly the bounds of the interval, each once. -/
structure Interval.SpelledBy (r : Interval) (ms : List (String × Json)) : Prop where
  nodup : (ms.map Prod.fst).Nodup
  bounds : ∀ m ∈ ms, m.1 ∈ ["gt", "gte", "lt", "lte"] ∧ ∃ s, m.2 = .string s
  gt : ∀ s, r.gt = some s ↔ ("gt", .string s) ∈ ms
  gte : ∀ s, r.gte = some s ↔ ("gte", .string s) ∈ ms
  lt : ∀ s, r.lt = some s ↔ ("lt", .string s) ∈ ms
  lte : ∀ s, r.lte = some s ↔ ("lte", .string s) ∈ ms

inductive Constraint.SpelledBy : Constraint → Json → Prop
  | exact (s : String) : SpelledBy (.exact s) (.string s)
  | within {r : Interval} {ms : List (String × Json)} (h : r.SpelledBy ms) :
      SpelledBy (.within r) (.object ms)

/-- A list keeps its order. -/
inductive Selector.SpelledBy : Selector → Json → Prop
  | one {c : Constraint} {v : Json} (h : c.SpelledBy v) : SpelledBy (.one c) v
  | anyOf {cs : List Constraint} {vs : List Json} (h : List.Forall₂ Constraint.SpelledBy cs vs) :
      SpelledBy (.anyOf cs) (.array vs)

def Pattern.EntrySpelledBy (e : Term × Selector) (m : String × Json) : Prop :=
  Json.NamesTerm m.1 e.1 ∧ e.2.SpelledBy m.2

/-- The entries are the members in their order. -/
inductive Pattern.SpelledBy (p : Pattern) : Json → Prop
  | object {ms : List (String × Json)} (h : List.Forall₂ EntrySpelledBy p.entries ms) :
      SpelledBy p (.object ms)

/-! ## Intervals -/

namespace Interval

theorem bound?_eq_none_iff {r : Interval} {key : String} :
    r.bound? key = none ↔ key ∉ ["gt", "gte", "lt", "lte"] := by
  rw [bound?]
  split_ifs <;> simp_all

theorem bound?_setBound {r : Interval} {key : String} (h : key ∈ ["gt", "gte", "lt", "lte"])
    (value k : String) :
    (r.setBound key value).bound? k = if k = key then some (some value) else r.bound? k := by
  simp only [List.mem_cons, List.not_mem_nil, or_false] at h
  rcases h with rfl | rfl | rfl | rfl <;> simp only [setBound, bound?] <;> split_ifs <;> simp_all

variable {r : Interval} {ms : List (String × Json)}

theorem spelledBy_iff : r.SpelledBy ms ↔ (ms.map Prod.fst).Nodup ∧
    (∀ m ∈ ms, m.1 ∈ ["gt", "gte", "lt", "lte"] ∧ ∃ s, m.2 = .string s) ∧
    ∀ k s, r.bound? k = some (some s) ↔ (k, .string s) ∈ ms := by
  constructor
  · intro h
    refine ⟨h.nodup, h.bounds, fun k s => ?_⟩
    by_cases hk : k ∈ ["gt", "gte", "lt", "lte"]
    · simp only [List.mem_cons, List.not_mem_nil, or_false] at hk
      rcases hk with rfl | rfl | rfl | rfl
      · simpa [bound?] using h.gt s
      · simpa [bound?] using h.gte s
      · simpa [bound?] using h.lt s
      · simpa [bound?] using h.lte s
    · rw [bound?_eq_none_iff.2 hk]
      exact iff_of_false nofun fun hm => hk (h.bounds _ hm).1
  · rintro ⟨hnodup, hbounds, hiff⟩
    refine ⟨hnodup, hbounds, fun s => ?_, fun s => ?_, fun s => ?_, fun s => ?_⟩
    · simpa [bound?] using hiff "gt" s
    · simpa [bound?] using hiff "gte" s
    · simpa [bound?] using hiff "lt" s
    · simpa [bound?] using hiff "lte" s

theorem SpelledBy.unique {r' : Interval} (h : r.SpelledBy ms) (h' : r'.SpelledBy ms) : r = r' := by
  have hgt : r.gt = r'.gt := Option.ext fun s => (h.gt s).trans (h'.gt s).symm
  have hgte : r.gte = r'.gte := Option.ext fun s => (h.gte s).trans (h'.gte s).symm
  have hlt : r.lt = r'.lt := Option.ext fun s => (h.lt s).trans (h'.lt s).symm
  have hlte : r.lte = r'.lte := Option.ext fun s => (h.lte s).trans (h'.lte s).symm
  cases r
  cases r'
  simp only at hgt hgte hlt hlte
  rw [hgt, hgte, hlt, hlte]

theorem spelledBy_nil : SpelledBy {} [] := by
  constructor <;> simp

/-- A bound that was not set before is one more member. -/
theorem SpelledBy.setBound {key : String} (h : r.SpelledBy ms) (hkey : r.bound? key = some none)
    (s : String) : (r.setBound key s).SpelledBy (ms ++ [(key, .string s)]) := by
  obtain ⟨hnodup, hbounds, hiff⟩ := spelledBy_iff.1 h
  have hmem : key ∈ ["gt", "gte", "lt", "lte"] := by
    by_contra hk
    rw [bound?_eq_none_iff.2 hk] at hkey
    contradiction
  have hnew : key ∉ ms.map Prod.fst := by
    intro hk
    obtain ⟨⟨k, v⟩, hm, rfl⟩ := List.mem_map.1 hk
    obtain ⟨s', rfl⟩ := (hbounds _ hm).2
    exact absurd ((hiff k s').2 hm ▸ hkey) (by simp)
  refine spelledBy_iff.2 ⟨?_, ?_, fun k s' => ?_⟩
  · rw [List.map_append, List.map_singleton]
    refine List.nodup_append.2 ⟨hnodup, by simp, ?_⟩
    rintro a ha b hb rfl
    obtain rfl : a = key := List.mem_singleton.1 hb
    exact hnew ha
  · intro m hm
    rcases List.mem_append.1 hm with hm | hm
    · exact hbounds m hm
    · rw [List.mem_singleton.1 hm]
      exact ⟨hmem, s, rfl⟩
  · rw [bound?_setBound hmem, List.mem_append, List.mem_singleton]
    by_cases hk : k = key
    · subst hk
      have hnot : (k, Json.string s') ∉ ms := fun hm => hnew (List.mem_map.2 ⟨_, hm, rfl⟩)
      simp [hnot, eq_comm]
    · simp [hk, hiff]

theorem readMembers_cons (r : Interval) (k : String) (d : Draft)
    (ms : List (Option String × Draft)) :
    r.readMembers ((some k, d) :: ms) =
      match r.bound? k with
      | none => .error (.unknownKey k keys)
      | some (some _) => .error (.duplicateBound k)
      | some none => d.asString >>= fun s => (r.setBound k s).readMembers ms :=
  rfl

theorem asString_ofValue_eq_ok_iff {v : Json} {s : String} :
    (Draft.ofValue v).asString = .ok s ↔ v = .string s := by
  cases v <;> simp [Draft.ofValue, Draft.asString]

/-- The reader goes on from the members read so far. -/
theorem readMembers_eq_ok_iff {done : List (String × Json)} (h : r.SpelledBy done)
    {r' : Interval} :
    r.readMembers (Draft.ofMembers ms) = .ok r' ↔ r'.SpelledBy (done ++ ms) := by
  induction ms generalizing r done with
  | nil =>
      rw [List.append_nil, Draft.ofMembers, readMembers, Except.ok.injEq]
      constructor
      · rintro rfl
        exact h
      · exact h.unique
  | cons m ms ih =>
      obtain ⟨k, v⟩ := m
      have hmem : (k, v) ∈ done ++ (k, v) :: ms := List.mem_append_right done List.mem_cons_self
      rw [Draft.ofMembers, readMembers_cons]
      split
      · next hb =>
        refine iff_of_false (by rintro ⟨⟩) fun hr => ?_
        exact bound?_eq_none_iff.1 hb (hr.bounds _ hmem).1
      · next s hb =>
        refine iff_of_false (by rintro ⟨⟩) fun hr => ?_
        have hdone : (k, Json.string s) ∈ done := ((spelledBy_iff.1 h).2.2 k s).1 hb
        have hnodup := hr.nodup
        rw [List.map_append, List.map_cons] at hnodup
        exact (List.nodup_append.1 hnodup).2.2 k (List.mem_map.2 ⟨_, hdone, rfl⟩) k
          List.mem_cons_self rfl
      · next hb =>
        cases hs : (Draft.ofValue v).asString with
        | error e =>
            refine iff_of_false (by rintro ⟨⟩) fun hr => ?_
            obtain ⟨s, hv⟩ := (hr.bounds _ hmem).2
            rw [asString_ofValue_eq_ok_iff.2 hv] at hs
            contradiction
        | ok s =>
            obtain rfl := asString_ofValue_eq_ok_iff.1 hs
            have hnext := ih (h.setBound hb s)
            rw [List.append_assoc] at hnext
            exact hnext

theorem SpelledBy.isSome_iff (h : r.SpelledBy ms) {bound : Option String} {key : String}
    (hb : ∀ s, bound = some s ↔ (key, .string s) ∈ ms) :
    bound.isSome = true ↔ key ∈ ms.map Prod.fst := by
  rw [Option.isSome_iff_exists, List.mem_map]
  constructor
  · rintro ⟨s, hs⟩
    exact ⟨_, (hb s).1 hs, rfl⟩
  · rintro ⟨⟨k, v⟩, hm, rfl⟩
    obtain ⟨s, rfl⟩ := (h.bounds _ hm).2
    exact ⟨s, (hb s).2 hm⟩

theorem SpelledBy.mem_values_iff (h : r.SpelledBy ms) {s : String} :
    s ∈ r.values ↔ ∃ m ∈ ms, m.2 = .string s := by
  simp only [values, List.mem_filterMap, id, List.mem_cons, List.not_mem_nil, or_false]
  constructor
  · rintro ⟨bound, hbound, rfl⟩
    rcases hbound with hb | hb | hb | hb
    · exact ⟨_, (h.gt s).1 hb.symm, rfl⟩
    · exact ⟨_, (h.gte s).1 hb.symm, rfl⟩
    · exact ⟨_, (h.lt s).1 hb.symm, rfl⟩
    · exact ⟨_, (h.lte s).1 hb.symm, rfl⟩
  · rintro ⟨⟨k, v⟩, hm, rfl⟩
    have hk := (h.bounds _ hm).1
    simp only [List.mem_cons, List.not_mem_nil, or_false] at hk
    rcases hk with rfl | rfl | rfl | rfl
    · exact ⟨_, .inl ((h.gt s).2 hm).symm, rfl⟩
    · exact ⟨_, .inr (.inl ((h.gte s).2 hm).symm), rfl⟩
    · exact ⟨_, .inr (.inr (.inl ((h.lt s).2 hm).symm)), rfl⟩
    · exact ⟨_, .inr (.inr (.inr ((h.lte s).2 hm).symm)), rfl⟩

theorem SpelledBy.fault?_eq_none_iff (h : r.SpelledBy ms) {t : Term} :
    r.fault? t = none ↔ Json.IsRange ms := by
  rw [Interval.fault?_eq_none_iff, h.isSome_iff h.gt, h.isSome_iff h.gte, h.isSome_iff h.lt,
    h.isSome_iff h.lte]
  constructor
  · rintro ⟨hlower, hupper, hvalues, hfree⟩
    refine ⟨fun m hm => (h.bounds m hm).1, h.nodup, fun m hm => ?_, hlower, hupper, ?_⟩
    · obtain ⟨s, hs⟩ := (h.bounds m hm).2
      exact ⟨s, hs, Json.isFree_iff.2 (hfree s (h.mem_values_iff.2 ⟨m, hm, hs⟩))⟩
    · rintro rfl
      obtain ⟨s, hs⟩ := List.exists_mem_of_ne_nil _ hvalues
      obtain ⟨m, hm, -⟩ := h.mem_values_iff.1 hs
      contradiction
  · intro hr
    refine ⟨hr.lower, hr.upper, ?_, fun s hs => ?_⟩
    · obtain ⟨m, hm⟩ := List.exists_mem_of_ne_nil _ hr.nonempty
      obtain ⟨s, hs, -⟩ := hr.strings m hm
      exact List.ne_nil_of_mem (h.mem_values_iff.2 ⟨m, hm, hs⟩)
    · obtain ⟨m, hm, heq⟩ := h.mem_values_iff.1 hs
      obtain ⟨s', heq', hfree⟩ := hr.strings m hm
      obtain rfl := Json.string.inj (heq.symm.trans heq')
      exact Json.isFree_iff.1 hfree

/-- Members that name bounds, none twice, and have strings as values say an interval. -/
theorem exists_spelledBy (hnodup : (ms.map Prod.fst).Nodup)
    (hbounds : ∀ m ∈ ms, m.1 ∈ ["gt", "gte", "lt", "lte"] ∧ ∃ s, m.2 = .string s) :
    ∃ r : Interval, r.SpelledBy ms := by
  induction ms using List.reverseRecOn with
  | nil => exact ⟨{}, spelledBy_nil⟩
  | append_singleton ms m ih =>
      obtain ⟨k, v⟩ := m
      rw [List.map_append, List.nodup_append] at hnodup
      obtain ⟨r, hr⟩ := ih hnodup.1 fun m hm => hbounds m (List.mem_append_left _ hm)
      obtain ⟨hk, s, hv⟩ := hbounds (k, v) (List.mem_append_right ms List.mem_cons_self)
      simp only at hk hv
      subst hv
      refine ⟨r.setBound k s, hr.setBound ?_ s⟩
      cases hb : r.bound? k with
      | none => exact absurd hk (bound?_eq_none_iff.1 hb)
      | some b =>
          cases b with
          | none => rfl
          | some s' =>
              have hm := ((spelledBy_iff.1 hr).2.2 k s').1 hb
              exact absurd rfl (hnodup.2.2 k (List.mem_map.2 ⟨_, hm, rfl⟩) k List.mem_cons_self)

end Interval

/-! ## Constraints and selectors -/

namespace Constraint

variable {c : Constraint} {v : Json}

theorem ofDraft_eq_ok_iff : ofDraft (Draft.ofValue v) = .ok c ↔ c.SpelledBy v := by
  cases v with
  | string s =>
      constructor
      · intro h
        rw [← Except.ok.inj h]
        exact .exact s
      · rintro ⟨⟩
        rfl
  | object ms =>
      have hmap : ofDraft (Draft.ofValue (.object ms)) =
          within <$> Interval.readMembers {} (Draft.ofMembers ms) := rfl
      rw [hmap, map_eq_ok_iff]
      constructor
      · rintro ⟨r, hr, rfl⟩
        exact .within ((Interval.readMembers_eq_ok_iff Interval.spelledBy_nil).1 hr)
      · rintro ⟨⟩
        next r hr => exact ⟨r, (Interval.readMembers_eq_ok_iff Interval.spelledBy_nil).2 hr, rfl⟩
  | _ => exact iff_of_false nofun nofun

theorem isConstraint_iff {t : Term} :
    Json.IsConstraint v ↔ ∃ c : Constraint, c.SpelledBy v ∧ c.fault? t = none := by
  constructor
  · rintro (@⟨s, hs⟩ | @⟨ms, hr⟩)
    · exact ⟨.exact s, .exact s, fault?_exact_eq_none_iff.2 (Json.isFree_iff.1 hs)⟩
    · obtain ⟨r, h⟩ := Interval.exists_spelledBy hr.nodup fun m hm =>
        ⟨hr.keys m hm, (hr.strings m hm).imp fun s hs => hs.1⟩
      exact ⟨.within r, .within h, h.fault?_eq_none_iff.2 hr⟩
  · rintro ⟨c, h, hfault⟩
    cases h with
    | exact s => exact .string (Json.isFree_iff.2 (fault?_exact_eq_none_iff.1 hfault))
    | within h => exact .range (h.fault?_eq_none_iff.1 hfault)

end Constraint

namespace Selector

variable {s : Selector} {v : Json}

theorem readItems_eq_ok_iff {vs : List Json} {cs : List Constraint} :
    readItems (Draft.ofItems vs) = .ok cs ↔ List.Forall₂ Constraint.SpelledBy cs vs := by
  induction vs generalizing cs with
  | nil =>
      rw [List.forall₂_nil_right_iff]
      exact ⟨fun h => (Except.ok.inj h).symm, fun h => h ▸ rfl⟩
  | cons v vs ih =>
      have hstep : readItems (Draft.ofItems (v :: vs)) =
          Constraint.ofDraft (Draft.ofValue v) >>= fun c =>
            (c :: ·) <$> readItems (Draft.ofItems vs) := rfl
      simp only [hstep, bind_eq_ok_iff, map_eq_ok_iff, Constraint.ofDraft_eq_ok_iff, ih,
        List.forall₂_cons_right_iff]
      constructor
      · rintro ⟨c, hc, ds, hds, rfl⟩
        exact ⟨c, ds, hc, hds, rfl⟩
      · rintro ⟨c, ds, hc, hds, rfl⟩
        exact ⟨c, hc, ds, hds, rfl⟩

/-- A value outside a list is read as one constraint. -/
theorem ofDraft_eq_map {v : Json} (hv : ∀ vs, v ≠ .array vs) {s : Selector} :
    ofDraft (Draft.ofValue v) = .ok s ↔
      ∃ c, Constraint.ofDraft (Draft.ofValue v) = .ok c ∧ one c = s := by
  cases v with
  | array vs => exact absurd rfl (hv vs)
  | string t => simp [ofDraft, Constraint.ofDraft, Draft.ofValue]
  | object ms =>
      simp only [Draft.ofValue, ofDraft, Constraint.ofDraft, map_eq_ok_iff]
      constructor
      · rintro ⟨r, hr, rfl⟩
        exact ⟨_, ⟨r, hr, rfl⟩, rfl⟩
      · rintro ⟨_, ⟨r, hr, rfl⟩, rfl⟩
        exact ⟨r, hr, rfl⟩
  | _ => exact iff_of_false nofun nofun

theorem ofDraft_eq_ok_iff : ofDraft (Draft.ofValue v) = .ok s ↔ s.SpelledBy v := by
  by_cases hv : ∃ vs, v = .array vs
  · obtain ⟨vs, rfl⟩ := hv
    have hmap : ofDraft (Draft.ofValue (.array vs)) = anyOf <$> readItems (Draft.ofItems vs) := rfl
    simp only [hmap, map_eq_ok_iff, readItems_eq_ok_iff]
    constructor
    · rintro ⟨cs, hcs, rfl⟩
      exact .anyOf hcs
    · intro h
      cases h with
      | one h => nomatch h
      | anyOf h => exact ⟨_, h, rfl⟩
  · rw [ofDraft_eq_map fun vs h => hv ⟨vs, h⟩]
    simp only [Constraint.ofDraft_eq_ok_iff]
    constructor
    · rintro ⟨c, hc, rfl⟩
      exact .one hc
    · intro h
      cases h with
      | one h => exact ⟨_, h, rfl⟩
      | anyOf h => exact absurd ⟨_, rfl⟩ hv

/-- Lists are related to a given one if each of its members has a partner. -/
theorem exists_forall₂_iff {α β : Type} {R : α → β → Prop} {P : α → Prop} {bs : List β} :
    (∃ as, List.Forall₂ R as bs ∧ ∀ a ∈ as, P a) ↔ ∀ b ∈ bs, ∃ a, R a b ∧ P a := by
  induction bs with
  | nil => exact iff_of_true ⟨[], .nil, nofun⟩ nofun
  | cons b bs ih =>
      rw [List.forall_mem_cons, ← ih]
      constructor
      · rintro ⟨as, has, hp⟩
        obtain ⟨a, as, hr, hrs, rfl⟩ := List.forall₂_cons_right_iff.1 has
        obtain ⟨ha, has⟩ := List.forall_mem_cons.1 hp
        exact ⟨⟨a, hr, ha⟩, as, hrs, has⟩
      · rintro ⟨⟨a, hr, ha⟩, as, hrs, has⟩
        exact ⟨a :: as, .cons hr hrs, List.forall_mem_cons.2 ⟨ha, has⟩⟩

theorem isSelector_iff {t : Term} :
    Json.IsSelector v ↔ ∃ s : Selector, s.SpelledBy v ∧ s.fault? t = none := by
  constructor
  · intro h
    cases h with
    | one h =>
        obtain ⟨c, hc, hfault⟩ := (Constraint.isConstraint_iff (t := t)).1 h
        exact ⟨.one c, .one hc, hfault⟩
    | @list vs hne h =>
        obtain ⟨cs, hcs, hfault⟩ := exists_forall₂_iff.2 fun v hv =>
          (Constraint.isConstraint_iff (t := t)).1 (h v hv)
        refine ⟨.anyOf cs, .anyOf hcs, fault?_anyOf_eq_none_iff.2 ⟨?_, hfault⟩⟩
        rintro rfl
        exact hne (List.forall₂_nil_left_iff.1 hcs)
  · rintro ⟨s, hs, hfault⟩
    cases hs with
    | one h => exact .one (Constraint.isConstraint_iff.2 ⟨_, h, hfault⟩)
    | anyOf h =>
        obtain ⟨hne, hall⟩ := fault?_anyOf_eq_none_iff.1 hfault
        refine .list ?_ fun v hv =>
          Constraint.isConstraint_iff.2 (exists_forall₂_iff.1 ⟨_, h, hall⟩ v hv)
        rintro rfl
        exact hne (List.forall₂_nil_right_iff.1 h)

end Selector

/-! ## Patterns -/

namespace Pattern

variable {p : Pattern}

theorem get?_isSome_iff {t : Term} : (p.get? t).isSome = true ↔ t ∈ p.entries.map Prod.fst :=
  Term.isSome_find?_iff

theorem replace_of_not_mem {t : Term} {es : List (Term × Selector)} (h : t ∉ es.map Prod.fst)
    (s : Selector) : replace t s es = es ++ [(t, s)] := by
  induction es with
  | nil => rfl
  | cons e es ih =>
      rw [List.map_cons, List.mem_cons, not_or] at h
      rw [replace, if_neg fun he => h.1 he.symm, ih h.2, List.cons_append]

theorem readMembers_cons (p : Pattern) (k : String) (d : Draft)
    (ms : List (Option String × Draft)) :
    p.readMembers ((some k, d) :: ms) =
      match Term.ofName? k with
      | none => .error (.unknownKey k keys)
      | some t =>
        if (p.get? t).isSome then .error (.duplicateKey t.name)
        else Selector.ofDraft d >>= fun s => (p.set t s).readMembers ms :=
  rfl

/-- The reader appends an entry for each member. -/
theorem readMembers_eq_ok_iff {ms : List (String × Json)} {p' : Pattern} :
    p.readMembers (Draft.ofMembers ms) = .ok p' ↔
      ∃ es, p'.entries = p.entries ++ es ∧ List.Forall₂ EntrySpelledBy es ms := by
  induction ms generalizing p with
  | nil =>
      simp only [List.forall₂_nil_right_iff, exists_eq_right, List.append_nil]
      constructor
      · intro h
        rw [← Except.ok.inj h]
      · intro h
        have heq : p' = p := by
          cases p
          cases p'
          simp only at h
          simp only [h]
        rw [heq]
        rfl
  | cons m ms ih =>
      obtain ⟨k, v⟩ := m
      rw [Draft.ofMembers, readMembers_cons]
      simp only [List.forall₂_cons_right_iff]
      split
      · next hk =>
        refine iff_of_false nofun ?_
        rintro ⟨_, -, e, es, ⟨hname, -⟩, -, rfl⟩
        rw [Json.namesTerm_iff, hk] at hname
        contradiction
      · next t hk =>
        split
        · next ht =>
          refine iff_of_false nofun ?_
          rintro ⟨_, hes, e, es, ⟨hname, -⟩, -, rfl⟩
          rw [Json.namesTerm_iff, hk, Option.some.injEq] at hname
          have hdistinct := p'.distinct
          rw [hes, List.map_append, List.map_cons, ← hname] at hdistinct
          exact (List.nodup_append.1 hdistinct).2.2 t (get?_isSome_iff.1 ht) t
            List.mem_cons_self rfl
        · next ht =>
          have hset (s : Selector) : (p.set t s).entries = p.entries ++ [(t, s)] :=
            replace_of_not_mem (fun hm => ht (get?_isSome_iff.2 hm)) s
          simp only [bind_eq_ok_iff, Selector.ofDraft_eq_ok_iff, ih, hset, List.append_assoc,
            List.singleton_append]
          constructor
          · rintro ⟨s, hs, es, heq, hes⟩
            exact ⟨_, heq, (t, s), es, ⟨Json.namesTerm_iff.2 hk, hs⟩, hes, rfl⟩
          · rintro ⟨_, heq, ⟨t', s⟩, es, ⟨hname, hs⟩, hes, rfl⟩
            rw [Json.namesTerm_iff, hk, Option.some.injEq] at hname
            simp only at hname
            subst hname
            exact ⟨s, hs, es, heq, hes⟩

theorem ofDraft_eq_ok_iff {v : Json} : ofDraft (Draft.ofValue v) = .ok p ↔ p.SpelledBy v := by
  cases v with
  | object ms =>
      have hread : ofDraft (Draft.ofValue (.object ms)) =
          readMembers empty (Draft.ofMembers ms) := rfl
      rw [hread, readMembers_eq_ok_iff]
      constructor
      · rintro ⟨es, heq, hes⟩
        exact .object (heq ▸ hes)
      · rintro ⟨⟩
        next h => exact ⟨p.entries, rfl, h⟩
  | _ => exact iff_of_false nofun nofun

theorem ofText_eq_ok_iff {text : String} {v : Json} (h : Json.IsTextOf text v) :
    ofText text = .ok p ↔ p.SpelledBy v ∧ p.fault? = none := by
  rw [ofText, h.readText_eq]
  cases hread : ofDraft (Draft.ofValue v) with
  | error e =>
      refine iff_of_false nofun fun hp => ?_
      rw [ofDraft_eq_ok_iff.2 hp.1] at hread
      contradiction
  | ok p' =>
      have hp' := ofDraft_eq_ok_iff.1 hread
      have hunique : p.SpelledBy v → p' = p := by
        intro hp
        rw [ofDraft_eq_ok_iff.2 hp] at hread
        exact (Except.ok.inj hread).symm
      simp only
      cases hfault : p'.fault? with
      | some f =>
          refine iff_of_false nofun fun hp => ?_
          rw [hunique hp.1, hp.2] at hfault
          contradiction
      | none =>
          constructor
          · intro heq
            rw [← Except.ok.inj heq]
            exact ⟨hp', hfault⟩
          · intro hp
            rw [hunique hp.1]

/-- The places of the entries are distinct if no two of the keys name one place. -/
theorem nodup_iff_pairwise {es : List (Term × Selector)} {ms : List (String × Json)}
    (h : List.Forall₂ EntrySpelledBy es ms) : (es.map Prod.fst).Nodup ↔
      ms.Pairwise fun m n => ∀ t, ¬ (Json.NamesTerm m.1 t ∧ Json.NamesTerm n.1 t) := by
  induction h with
  | nil => exact iff_of_true List.nodup_nil List.Pairwise.nil
  | @cons e m es ms he hes ih =>
      rw [List.map_cons, List.nodup_cons, List.pairwise_cons, ih]
      refine and_congr_left' ⟨fun hnot n hn t ⟨hm, ht⟩ => hnot ?_, fun hall hmem => ?_⟩
      · obtain ⟨e', he', hes'⟩ := Selector.exists_forall₂_iff.1 ⟨es, hes, fun _ h => h⟩ n hn
        rw [he.1.unique hm, ← he'.1.unique ht]
        exact List.mem_map.2 ⟨e', hes', rfl⟩
      · obtain ⟨e', he', heq⟩ := List.mem_map.1 hmem
        obtain ⟨n, hn, hns⟩ := Selector.exists_forall₂_iff.1 ⟨ms, hes.flip, fun _ h => h⟩ e' he'
        exact hall n hns e.1 ⟨he.1, heq ▸ hn.1⟩

theorem isPattern_iff {v : Json} :
    v.IsPattern ↔ ∃ p : Pattern, p.SpelledBy v ∧ p.fault? = none := by
  constructor
  · rintro @⟨ms, hkeys, hdistinct, hvalues⟩
    have hentries : ∀ m ∈ ms, ∃ e, EntrySpelledBy e m ∧ e.2.fault? e.1 = none := by
      intro m hm
      obtain ⟨t, ht⟩ := hkeys m hm
      obtain ⟨s, hs, hfault⟩ := (Selector.isSelector_iff (t := t)).1 (hvalues m hm)
      exact ⟨(t, s), ⟨ht, hs⟩, hfault⟩
    obtain ⟨es, hes, hfault⟩ := Selector.exists_forall₂_iff.2 hentries
    exact ⟨⟨es, (nodup_iff_pairwise hes).2 hdistinct⟩, .object hes, fault?_eq_none_iff.2 hfault⟩
  · rintro ⟨p, @⟨ms, hes⟩, hfault⟩
    have hentries := Selector.exists_forall₂_iff.1 ⟨_, hes, fault?_eq_none_iff.1 hfault⟩
    refine .object (fun m hm => ?_) ((nodup_iff_pairwise hes).1 p.distinct) fun m hm => ?_
    · obtain ⟨e, he, -⟩ := hentries m hm
      exact ⟨e.1, he.1⟩
    · obtain ⟨e, he, hnone⟩ := hentries m hm
      exact Selector.isSelector_iff.2 ⟨e.2, he.2, hnone⟩

end Pattern

/-! ## Patterns written as JSON -/

namespace Interval

def members (r : Interval) : List (String × Json) :=
  [r.gt.map (("gt", .string ·)), r.gte.map (("gte", .string ·)), r.lt.map (("lt", .string ·)),
    r.lte.map (("lte", .string ·))].filterMap id

theorem toJson_eq (r : Interval) : r.toJson = .object r.members := by
  rcases r with ⟨_ | _, _ | _, _ | _, _ | _⟩ <;> rfl

theorem mem_members_iff {r : Interval} {m : String × Json} : m ∈ r.members ↔
    ∃ s, m.2 = .string s ∧ (m.1 = "gt" ∧ r.gt = some s ∨ m.1 = "gte" ∧ r.gte = some s ∨
      m.1 = "lt" ∧ r.lt = some s ∨ m.1 = "lte" ∧ r.lte = some s) := by
  obtain ⟨k, v⟩ := m
  simp only [members, List.mem_filterMap, id, List.mem_cons, List.not_mem_nil, or_false]
  constructor
  · rintro ⟨_, h | h | h | h, rfl⟩
    all_goals
      obtain ⟨s, hs, heq⟩ := Option.map_eq_some_iff.1 h.symm
      obtain ⟨rfl, rfl⟩ := Prod.mk.inj heq
      exact ⟨s, rfl, by simp [hs]⟩
  · rintro ⟨s, hv, h⟩
    subst hv
    rcases h with ⟨rfl, hs⟩ | ⟨rfl, hs⟩ | ⟨rfl, hs⟩ | ⟨rfl, hs⟩ <;> exact ⟨_, by simp [hs], rfl⟩

theorem spelledBy_members (r : Interval) : r.SpelledBy r.members := by
  refine ⟨?_, fun m hm => ?_, fun s => ?_, fun s => ?_, fun s => ?_, fun s => ?_⟩
  · rcases r with ⟨_ | _, _ | _, _ | _, _ | _⟩ <;> simp [members]
  · obtain ⟨s, hs, hk⟩ := mem_members_iff.1 hm
    refine ⟨?_, s, hs⟩
    rcases hk with ⟨hk, -⟩ | ⟨hk, -⟩ | ⟨hk, -⟩ | ⟨hk, -⟩ <;> simp [hk]
  all_goals simp [mem_members_iff]

end Interval

theorem Constraint.spelledBy_toJson (c : Constraint) : c.SpelledBy c.toJson := by
  cases c with
  | exact s => exact .exact s
  | within r =>
      rw [toJson, r.toJson_eq]
      exact .within r.spelledBy_members

theorem Constraint.numberless_toJson (c : Constraint) : c.toJson.Numberless := by
  cases c with
  | exact s => exact .string s
  | within r =>
      rw [toJson, r.toJson_eq]
      refine .object fun m hm => ?_
      obtain ⟨t, ht⟩ := (r.spelledBy_members.bounds m hm).2
      exact ht ▸ .string t

theorem Selector.spelledBy_toJson (s : Selector) : s.SpelledBy s.toJson := by
  cases s with
  | one c => exact .one c.spelledBy_toJson
  | anyOf cs =>
      refine .anyOf (List.forall₂_map_right_iff.2 (List.forall₂_same.2 fun c _ => ?_))
      exact c.spelledBy_toJson

theorem Selector.numberless_toJson (s : Selector) : s.toJson.Numberless := by
  cases s with
  | one c => exact c.numberless_toJson
  | anyOf cs =>
      refine .array (List.forall_mem_map.2 fun c _ => ?_)
      exact c.numberless_toJson

theorem Term.namesTerm_name (t : Term) : Json.NamesTerm t.name t := by
  cases t <;> constructor

theorem Pattern.spelledBy_toJson (p : Pattern) : p.SpelledBy p.toJson := by
  refine .object (List.forall₂_map_right_iff.2 (List.forall₂_same.2 fun e _ => ?_))
  exact ⟨e.1.namesTerm_name, e.2.spelledBy_toJson⟩

theorem Pattern.numberless_toJson (p : Pattern) : p.toJson.Numberless := by
  refine .object (List.forall_mem_map.2 fun e _ => ?_)
  exact e.2.numberless_toJson

namespace Pattern

/-- A text is read if and only if its value has the shape of a pattern; the entries are its members
in their order, and a pattern without fault is read back from what it is written as. -/
theorem ofText_accepts_patterns (text : String) (v : Json) (h : Json.IsTextOf text v) :
    ((∃ p, ofText text = .ok p) ↔ v.IsPattern) ∧
      (∀ p, ofText text = .ok p → p.SpelledBy v) ∧
      (¬ v.IsPattern → ∃ reason, (ofText text).mapError .ofTextError =
        (.error (.invalidQuery reason) : Except QueryError Pattern)) ∧
      ∀ p : Pattern, p.fault? = none → Json.IsTextOf p.toJson.render p.toJson ∧
        ∀ written, Json.IsTextOf written p.toJson → ofText written = .ok p := by
  have haccepts : (∃ p, ofText text = .ok p) ↔ v.IsPattern := by
    rw [isPattern_iff]
    exact exists_congr fun p => ofText_eq_ok_iff h
  refine ⟨haccepts, fun p hp => ((ofText_eq_ok_iff h).1 hp).1, fun hnot => ?_, fun p hfault => ?_⟩
  · cases hread : ofText text with
    | error e => exact ⟨e.message, rfl⟩
    | ok p => exact absurd (haccepts.1 ⟨p, hread⟩) hnot
  · refine ⟨p.numberless_toJson.isTextOf_render, fun written hwritten => ?_⟩
    exact (ofText_eq_ok_iff hwritten).2 ⟨p.spelledBy_toJson, hfault⟩

/-- A graph, and a list with a range, in a text with blanks and an escape. -/
theorem ofText_accepts_graph_and_list :
    let text :=
      "\x7b \"graph\": \"g\", \"subject\": [\x7b\"gt\":\"a\",\"lte\":\"\\u0062\"\x7d, \"c\"] \x7d"
    let v : Json := .object [("graph", .string "g"),
      ("subject", .array [.object [("gt", .string "a"), ("lte", .string "b")], .string "c"])]
    let p : Pattern := ⟨[(.context, .one (.exact "g")),
      (.subject, .anyOf [.within ⟨some "a", none, none, some "b"⟩, .exact "c"])], by decide⟩
    Json.IsTextOf text v ∧ ofText text = .ok p ∧ v.IsPattern ∧ p.SpelledBy v := by
  intro text v p
  have htext : Json.IsTextOf text v := by
    simp only [Json.IsTextOf]
    decide +kernel
  have hread : ofText text = .ok p := by
    simp only [ofText, htext.readText_eq]
    rfl
  obtain ⟨haccepts, hspelled, -⟩ := ofText_accepts_patterns text v htext
  exact ⟨htext, hread, haccepts.1 ⟨p, hread⟩, hspelled p hread⟩

end Pattern

end QuadIndex
