import QuadIndex.Plan.Strategy
import QuadIndex.Proofs.Text.Lex

/-! # What the span of a strategy admits

A span compares leading values of a tuple with the values of its two sides. As long as it is
pinned, it admits exactly one sequence of leading values; the place bound last may leave room. -/

namespace QuadIndex

/-! ## Constraints that bind -/

def Constraint.values : Constraint → List String
  | exact v => [v]
  | within r => r.values

/-- A constraint that names a value, and no reserved character in any of its values. -/
structure Constraint.Plannable (c : Constraint) : Prop where
  bounded : c.values ≠ []
  free : ∀ v ∈ c.values, isReserved v = false

/-- A branch that binds no place twice and has only plannable constraints. -/
structure Branch.Plannable (b : Branch) : Prop where
  distinct : (b.entries.map Prod.fst).Nodup
  constraints : ∀ e ∈ b.entries, e.2.Plannable

theorem Branch.get?_eq_some_iff {b : Branch} (h : (b.entries.map Prod.fst).Nodup) {t : Term}
    {c : Constraint} : b.get? t = some c ↔ (t, c) ∈ b.entries := by
  obtain ⟨es⟩ := b
  simp only [get?] at h ⊢
  induction es with
  | nil => simp
  | cons e es ih =>
      rw [List.map_cons, List.nodup_cons] at h
      rw [List.find?_cons, List.mem_cons]
      by_cases he : e.1 = t
      · subst he
        have hn : (e.1, c) ∉ es := fun hm => h.1 (List.mem_map.2 ⟨_, hm, rfl⟩)
        simp [Prod.ext_iff, hn, eq_comm]
      · have hne : (t, c) ≠ e := fun hc => he (hc ▸ rfl)
        simp [he, hne, ih h.2]

theorem Branch.Plannable.constraint {b : Branch} (hb : b.Plannable) {t : Term} {c : Constraint}
    (h : b.get? t = some c) : c.Plannable :=
  hb.constraints _ ((Branch.get?_eq_some_iff hb.distinct).1 h)

theorem Interval.lower_mem_values {r : Interval} {e : Endpoint} (h : r.lower = some e) :
    e.value ∈ r.values := by
  obtain ⟨gt, gte, lt, lte⟩ := r
  cases gte <;> cases gt <;> simp [lower] at h <;> subst h <;> simp [values]

theorem Interval.upper_mem_values {r : Interval} {e : Endpoint} (h : r.upper = some e) :
    e.value ∈ r.values := by
  obtain ⟨gt, gte, lt, lte⟩ := r
  cases lte <;> cases lt <;> simp [upper] at h <;> subst h <;> simp [values]

theorem Interval.lower_or_upper {r : Interval} (h : r.values ≠ []) :
    r.lower ≠ none ∨ r.upper ≠ none := by
  obtain ⟨gt, gte, lt, lte⟩ := r
  cases gte <;> cases gt <;> cases lte <;> cases lt <;> simp_all [values, lower, upper]

/-! ## Constraints that pin -/

namespace Constraint

/-- The form of the constraint admits one value only: it is an exact value, or an interval that
begins and ends with that value. -/
inductive Pins : Constraint → String → Prop
  | exact (v : String) : Pins (.exact v) v
  | within {r : Interval} {v : String} (lower : r.gte = some v) (upper : r.lte = some v) :
      Pins (.within r) v

/-- The end that a constraint sets below. -/
def lower? : Constraint → Option Endpoint
  | exact v => some ⟨v, true⟩
  | within r => r.lower

def upper? : Constraint → Option Endpoint
  | exact v => some ⟨v, true⟩
  | within r => r.upper

variable {c : Constraint} {v : String}

theorem Pins.lower?_eq (h : c.Pins v) : c.lower? = some ⟨v, true⟩ := by
  cases h with
  | exact => rfl
  | within hlow _ => rw [lower?, Interval.lower, hlow]

theorem Pins.upper?_eq (h : c.Pins v) : c.upper? = some ⟨v, true⟩ := by
  cases h with
  | exact => rfl
  | within _ hup => rw [upper?, Interval.upper, hup]

theorem gte_of_lower {r : Interval} (h : r.lower = some ⟨v, true⟩) : r.gte = some v := by
  rw [Interval.lower] at h
  cases hg : r.gte with
  | some w => simpa [hg] using h
  | none => simp [hg] at h

theorem lte_of_upper {r : Interval} (h : r.upper = some ⟨v, true⟩) : r.lte = some v := by
  rw [Interval.upper] at h
  cases hg : r.lte with
  | some w => simpa [hg] using h
  | none => simp [hg] at h

/-- Ends that both admit the same value pin it. -/
theorem pins_of_ends (hl : c.lower? = some ⟨v, true⟩) (hu : c.upper? = some ⟨v, true⟩) :
    c.Pins v := by
  cases c with
  | exact w =>
      obtain rfl : w = v := by simpa [lower?] using hl
      exact .exact w
  | within r => exact .within (gte_of_lower hl) (lte_of_upper hu)

theorem lower?_mem_values {e : Endpoint} (h : c.lower? = some e) : e.value ∈ c.values := by
  cases c with
  | exact w =>
      obtain rfl := Option.some.inj h
      exact List.mem_cons_self
  | within r => exact Interval.lower_mem_values h

theorem upper?_mem_values {e : Endpoint} (h : c.upper? = some e) : e.value ∈ c.values := by
  cases c with
  | exact w =>
      obtain rfl := Option.some.inj h
      exact List.mem_cons_self
  | within r => exact Interval.upper_mem_values h

theorem Plannable.lower?_or_upper? (h : c.Plannable) : c.lower? ≠ none ∨ c.upper? ≠ none := by
  cases c with
  | exact v => exact .inl nofun
  | within r => exact Interval.lower_or_upper h.bounded

end Constraint

/-! ## Sides of a span -/

namespace Side

/-- The tuple lies above the side, taken as a lower end. -/
def Below (s : Side) (vs : List String) : Prop :=
  if s.inclusive then ¬ vs.take s.values.length < s.values
  else s.values < vs.take s.values.length

def Above (s : Side) (vs : List String) : Prop :=
  if s.inclusive then ¬ s.values < vs.take s.values.length
  else vs.take s.values.length < s.values

/-- The side has at most `n` values, and none that is reserved. -/
structure Fits (s : Side) (n : Nat) : Prop where
  length : s.values.length ≤ n
  free : ∀ v ∈ s.values, isReserved v = false

theorem Fits.mono {s : Side} {m n : Nat} (h : s.Fits m) (hmn : m ≤ n) : s.Fits n :=
  ⟨Nat.le_trans h.length hmn, h.free⟩

end Side

namespace Span

def Admits (s : Span) (vs : List String) : Prop := s.lower.Below vs ∧ s.upper.Above vs

/-- The span that pins the leading places to the given values. -/
def pinned (ws : List String) : Span := ⟨⟨ws, true⟩, ⟨ws, true⟩⟩

theorem isPinned_pinned (ws : List String) : (pinned ws).isPinned = true := by
  cases h : ws.getLast? <;> simp [isPinned, pinned, h]

theorem admits_pinned (ws vs : List String) :
    (pinned ws).Admits vs ↔ vs.take ws.length = ws := by
  simp only [Admits, Side.Below, Side.Above, pinned, if_true]
  constructor
  · rintro ⟨hl, hu⟩
    exact List.le_antisymm hu hl
  · intro h
    rw [h]
    exact ⟨List.lt_irrefl ws, List.lt_irrefl ws⟩

theorem singleton_lt_iff (v w : String) : [v] < [w] ↔ v < w := by
  simp [List.cons_lt_cons_iff]

section Bind

variable {ws vs : List String} (hl : vs.length = ws.length) (x : String) (rest : List String)
include hl

theorem take_append_cons (w : String) :
    (vs ++ x :: rest).take (ws ++ [w]).length = vs ++ [x] := by
  have h : vs ++ x :: rest = (vs ++ [x]) ++ rest := by simp
  rw [h, List.take_left']
  simp [hl]

theorem take_append_left : (vs ++ x :: rest).take ws.length = vs := List.take_left' hl

/-- With one more end, a lower side compares the next value if the earlier ones agree. -/
theorem below_extend (e : Option Endpoint) :
    (extend ⟨ws, true⟩ e).Below (vs ++ x :: rest) ↔
      ws < vs ∨ ws = vs ∧ e.all (·.below x) = true := by
  cases e with
  | none =>
      rw [extend, Side.Below, if_pos rfl, take_append_left hl]
      have h := Lex.not_append_lt_append_of_length_eq hl [] []
      simpa using h
  | some e =>
      obtain ⟨w, inc⟩ := e
      rw [extend, Side.Below, take_append_cons hl]
      cases inc with
      | false =>
          have h := Lex.append_lt_append_of_length_eq hl.symm [w] [x]
          rw [singleton_lt_iff] at h
          simpa [Endpoint.below] using h
      | true =>
          have h := Lex.not_append_lt_append_of_length_eq hl [x] [w]
          rw [singleton_lt_iff] at h
          have hb : Endpoint.below ⟨w, true⟩ x = true ↔ ¬ x < w := by
            rw [Endpoint.below, if_pos rfl, decide_eq_true_iff, String.not_lt]
          rw [if_pos rfl, Option.all_some, hb]
          exact h

theorem above_extend (e : Option Endpoint) :
    (extend ⟨ws, true⟩ e).Above (vs ++ x :: rest) ↔
      vs < ws ∨ vs = ws ∧ e.all (·.above x) = true := by
  cases e with
  | none =>
      rw [extend, Side.Above, if_pos rfl, take_append_left hl]
      have h := Lex.not_append_lt_append_of_length_eq hl.symm [] []
      simpa using h
  | some e =>
      obtain ⟨w, inc⟩ := e
      rw [extend, Side.Above, take_append_cons hl]
      cases inc with
      | false =>
          have h := Lex.append_lt_append_of_length_eq hl [x] [w]
          rw [singleton_lt_iff] at h
          simpa [Endpoint.above] using h
      | true =>
          have h := Lex.not_append_lt_append_of_length_eq hl.symm [w] [x]
          rw [singleton_lt_iff] at h
          have hb : Endpoint.above ⟨w, true⟩ x = true ↔ ¬ w < x := by
            rw [Endpoint.above, if_pos rfl, decide_eq_true_iff, String.not_lt]
          rw [if_pos rfl, Option.all_some, hb]
          exact h

/-- Binding a place to a pinned span compares the value at that place with the constraint. -/
theorem admits_bind (c : Constraint) :
    ((pinned ws).bind c).Admits (vs ++ x :: rest) ↔ vs = ws ∧ c.admits x = true := by
  cases c with
  | exact v =>
      have h : (pinned ws).bind (.exact v) = pinned (ws ++ [v]) := rfl
      rw [h, admits_pinned, take_append_cons hl]
      constructor
      · intro he
        obtain ⟨hvs, hx⟩ := List.append_inj he hl
        exact ⟨hvs, by simpa [Constraint.admits] using hx⟩
      · rintro ⟨rfl, hx⟩
        have hv : x = v := by simpa [Constraint.admits] using hx
        rw [hv]
  | within r =>
      have h : (pinned ws).bind (.within r) =
          ⟨extend ⟨ws, true⟩ r.lower, extend ⟨ws, true⟩ r.upper⟩ := rfl
      rw [h, Admits, below_extend hl, above_extend hl, Constraint.admits, Interval.contains,
        Bool.and_eq_true]
      constructor
      · rintro ⟨hlow | ⟨rfl, hlow⟩, hup | ⟨he, hup⟩⟩
        · exact absurd hup (List.lt_asymm hlow)
        · exact absurd (he ▸ hlow) (List.lt_irrefl ws)
        · exact absurd hup (List.lt_irrefl ws)
        · exact ⟨rfl, hlow, hup⟩
      · rintro ⟨rfl, hlow, hup⟩
        exact ⟨.inr ⟨rfl, hlow⟩, .inr ⟨rfl, hup⟩⟩

end Bind

/-! ## Binding the leading places -/

theorem bind_eq (s : Span) (c : Constraint) :
    s.bind c = ⟨extend s.lower c.lower?, extend s.upper c.upper?⟩ := by
  cases c <;> rfl

theorem bind_of_pins {c : Constraint} {v : String} (h : c.Pins v) (ws : List String) :
    (pinned ws).bind c = pinned (ws ++ [v]) := by
  rw [bind_eq, h.lower?_eq, h.upper?_eq]
  rfl

/-- Only a constraint that pins its place leaves a span pinned. -/
theorem pins_of_isPinned_bind {ws : List String} {c : Constraint} (hc : c.Plannable)
    (h : ((pinned ws).bind c).isPinned = true) : ∃ v, c.Pins v := by
  have hends := hc.lower?_or_upper?
  rw [bind_eq] at h
  cases hlow : c.lower? with
  | none =>
      cases hup : c.upper? with
      | none => simp [hlow, hup] at hends
      | some f => simp [pinned, extend, isPinned, hlow, hup] at h
  | some e =>
      cases hup : c.upper? with
      | none => simp [pinned, extend, isPinned, hlow, hup] at h
      | some f =>
          simp only [pinned, extend, isPinned, hlow, hup, List.getLast?_concat,
            List.length_append, Bool.and_eq_true, beq_iff_eq] at h
          obtain ⟨-, ⟨he, hf⟩, hv⟩ := h
          obtain ⟨v, inc⟩ := e
          obtain ⟨w, inc'⟩ := f
          obtain rfl : inc = true := he
          obtain rfl : inc' = true := hf
          obtain rfl : v = w := hv
          exact ⟨v, Constraint.pins_of_ends hlow hup⟩

/-- A span that stays pinned has pinned one more place. -/
theorem eq_pinned_of_isPinned_bind {ws : List String} {c : Constraint} (hc : c.Plannable)
    (h : ((pinned ws).bind c).isPinned = true) :
    ∃ w, (pinned ws).bind c = pinned (ws ++ [w]) := by
  obtain ⟨v, hv⟩ := pins_of_isPinned_bind hc h
  exact ⟨v, bind_of_pins hv ws⟩

theorem bindLeading_of_not_isPinned {s : Span} (h : s.isPinned = false) (b : Branch)
    (ts : List Term) : bindLeading b s ts = (s, []) := by
  cases ts with
  | nil => rfl
  | cons t ts =>
      rw [bindLeading]
      cases b.get? t with
      | none => rfl
      | some c => simp [h]

theorem bindLeading_cons_none {b : Branch} {t : Term} (h : b.get? t = none) (s : Span)
    (ts : List Term) : bindLeading b s (t :: ts) = (s, []) := by
  simp [bindLeading, h]

theorem bindLeading_cons_some {b : Branch} {t : Term} {c : Constraint} {s : Span}
    (hc : b.get? t = some c) (hs : s.isPinned = true) (ts : List Term) :
    bindLeading b s (t :: ts) =
      ((bindLeading b (s.bind c) ts).1, t :: (bindLeading b (s.bind c) ts).2) := by
  simp [bindLeading, hc, hs]

/-- The span that a branch leaves on an order admits a tuple if the pinned places agree and the
values at the places bound since then satisfy their constraints. -/
theorem admits_bindLeading {b : Branch} (hb : b.Plannable) (q : Quad) (ts : List Term)
    {ws vs : List String} (hl : vs.length = ws.length) :
    (bindLeading b (pinned ws) ts).1.Admits (vs ++ q.tuple ts) ↔
      vs = ws ∧ ∀ t ∈ (bindLeading b (pinned ws) ts).2, ∀ c, b.get? t = some c →
        c.admits (q.get t) = true := by
  induction ts generalizing ws vs with
  | nil =>
      rw [bindLeading, admits_pinned, List.take_left' hl]
      simp
  | cons t ts ih =>
      cases hc : b.get? t with
      | none =>
          rw [bindLeading_cons_none hc, admits_pinned, List.take_left' hl]
          simp
      | some c =>
          have hbind := admits_bind hl (q.get t) (q.tuple ts) c
          have htuple : q.tuple (t :: ts) = q.get t :: q.tuple ts := rfl
          rw [bindLeading_cons_some hc (isPinned_pinned ws), htuple]
          cases hs : ((pinned ws).bind c).isPinned with
          | false =>
              rw [bindLeading_of_not_isPinned hs, hbind]
              simp [hc]
          | true =>
              -- The span is pinned to one more value, so the same holds from there on.
              obtain ⟨w, hw⟩ := eq_pinned_of_isPinned_bind (hb.constraint hc) hs
              have hl' : (vs ++ [q.get t]).length = (ws ++ [w]).length := by simp [hl]
              have ih := ih hl'
              rw [List.append_assoc, List.singleton_append] at ih
              rw [hw, admits_pinned, take_append_cons hl] at hbind
              rw [hw, ih, hbind]
              simp [hc, and_assoc]

/-! ## Length and characters -/

structure Fits (s : Span) (n : Nat) : Prop where
  lower : s.lower.Fits n
  upper : s.upper.Fits n

theorem fits_extend {s : Side} {n : Nat} (hs : s.Fits n) {e : Option Endpoint}
    (he : ∀ v, e = some v → isReserved v.value = false) : (extend s e).Fits (n + 1) := by
  cases e with
  | none => exact hs.mono (Nat.le_succ n)
  | some e =>
      refine ⟨?_, ?_⟩
      · simpa [extend] using hs.length
      · intro v hv
        rcases List.mem_append.1 hv with hv | hv
        · exact hs.free v hv
        · exact List.mem_singleton.1 hv ▸ he e rfl

theorem Fits.bind {s : Span} {n : Nat} {c : Constraint} (hs : s.Fits n) (hc : c.Plannable) :
    (s.bind c).Fits (n + 1) := by
  rw [bind_eq]
  refine ⟨fits_extend hs.lower fun e he => ?_, fits_extend hs.upper fun e he => ?_⟩
  · exact hc.free _ (Constraint.lower?_mem_values he)
  · exact hc.free _ (Constraint.upper?_mem_values he)

theorem Fits.bindLeading {b : Branch} (hb : b.Plannable) (ts : List Term) {s : Span} {n : Nat}
    (hs : s.Fits n) : (bindLeading b s ts).1.Fits (n + ts.length) := by
  induction ts generalizing s n with
  | nil => exact hs
  | cons t ts ih =>
      have hmono : s.Fits (n + (ts.length + 1)) :=
        ⟨hs.lower.mono (Nat.le_add_right _ _), hs.upper.mono (Nat.le_add_right _ _)⟩
      cases hc : b.get? t with
      | none =>
          rw [bindLeading_cons_none hc]
          exact hmono
      | some c =>
          cases hp : s.isPinned with
          | false =>
              rw [bindLeading_of_not_isPinned hp]
              exact hmono
          | true =>
              rw [bindLeading_cons_some hc hp, List.length_cons, Nat.add_comm ts.length,
                ← Nat.add_assoc]
              exact ih (hs.bind (hb.constraint hc))

end Span
end QuadIndex
