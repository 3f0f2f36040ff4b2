import QuadIndex.Proofs.Engine.Chance
import QuadIndex.Proofs.Pattern.Faults
import QuadIndex.Proofs.Text.Utf8
import QuadIndex.Trial.Survey

/-! # What a workload asks of a store

Whatever the words and the settings are, a store can take every operation that is drawn: patterns
and quads are without fault, and pages lie near the beginning of the results. -/

namespace QuadIndex

/-- A text has four bytes for a character at most. -/
theorem Text.Utf8.utf8ByteSize_le (s : String) : s.utf8ByteSize ≤ 4 * s.toList.length := by
  rw [← length_encode, encode]
  induction s.toList with
  | nil => exact Nat.le_refl 0
  | cons c cs ih =>
      have hc := c.utf8Size_le_four
      rw [List.flatMap_cons, List.length_append, String.length_utf8EncodeChar, List.length_cons]
      omega

namespace Workload

open Chance (Always always_pure always_true always_ite always_below)

variable {s : WorkloadSettings} {t : Term} {v : String}

/-! ## Values -/

/-- The values for a place: those from the edges, and the letter of the place with a number. -/
def IsValue (s : WorkloadSettings) (t : Term) (v : String) : Prop :=
  v ∈ edgeValues ∨
    ∃ n < max s.valuePoolSize 1, v = String.singleton t.code.toLower ++ toString n

theorem always_value (s : WorkloadSettings) (t : Term) : Always (value s t) (IsValue s t) := by
  refine always_true.bind fun edge _ => always_ite (fun _ => ?_) fun _ => ?_
  · refine (always_below (by decide : 0 < edgeValues.length)).bind fun i hi => always_pure (.inl ?_)
    rw [List.getD_eq_getElem?_getD, List.getElem?_eq_getElem hi, Option.getD_some]
    exact List.getElem_mem hi
  · have hpool : 0 < max s.valuePoolSize 1 := Nat.lt_of_lt_of_le Nat.one_pos (Nat.le_max_right _ _)
    exact (always_below hpool).bind fun n hn => always_pure (.inr ⟨n, hn, rfl⟩)

theorem toList_numbered (t : Term) (n : Nat) :
    (String.singleton t.code.toLower ++ toString n).toList =
      t.code.toLower :: Nat.toDigits 10 n := by
  rw [String.toList_append, Nat.toString_eq_repr, Nat.toList_repr, String.toList_singleton]
  rfl

theorem IsValue.isReserved_eq_false (h : IsValue s t v) : isReserved v = false := by
  have hedge : ∀ v ∈ edgeValues, isReserved v = false := by decide
  rcases h with h | ⟨n, -, rfl⟩
  · exact hedge v h
  · have hletter : ¬ (t.code.toLower = '\x00' ∨ t.code.toLower = boundary) := by
      cases t <;> decide
    have hdigit {c : Char} (hc : c ∈ Nat.toDigits 10 n) : ¬ (c = '\x00' ∨ c = boundary) := by
      have hd := Nat.isDigit_of_mem_toDigits (by decide) (by decide) hc
      rintro (rfl | rfl) <;> contradiction
    rw [isReserved, toList_numbered, List.any_eq_false]
    intro c hc
    rw [Bool.or_eq_true, decide_eq_true_iff, decide_eq_true_iff]
    rcases List.mem_cons.1 hc with rfl | hc
    · exact hletter
    · exact hdigit hc

/-- Numbers of a pool are short enough for every field, as counts have 64 bits. -/
theorem IsValue.fieldFault?_eq_none (h : IsValue s t v)
    (hpool : s.valuePoolSize ≤ Paging.maxCount) (field : Term) :
    Quad.fieldFault? field v = none := by
  have hedge : ∀ v ∈ edgeValues, fitsField v.utf8ByteSize = true := by decide
  refine Quad.fieldFault?_eq_none_iff.2 ⟨?_, h.isReserved_eq_false⟩
  rcases h with h | ⟨n, hn, rfl⟩
  · exact hedge v h
  · have hsmall : n < 10 ^ 20 := by
      rw [Paging.maxCount] at hpool
      omega
    have hdigits := (Nat.length_toDigits_le_iff (by decide) (by decide)).2 hsmall
    have hsize := Text.Utf8.utf8ByteSize_le (String.singleton t.code.toLower ++ toString n)
    rw [toList_numbered, List.length_cons] at hsize
    rw [fitsField, maxFieldLength, decide_eq_true_iff]
    omega

/-! ## Quads -/

/-- A drawn quad has a drawn value at every place; a missing context is one of the edges. -/
theorem always_quad (s : WorkloadSettings) :
    Always (quad s) fun q => ∀ t, IsValue s t (q.get t) := by
  have hmissing : IsValue s .context "" := .inl (by decide)
  have hrest {context : String} (hc : IsValue s .context context) : Always (do
      let subject ← value s .subject
      let predicate ← value s .predicate
      let object ← value s .object
      return ⟨subject, predicate, object, context⟩)
      fun q : Quad => ∀ t, IsValue s t (q.get t) := by
    refine (always_value s .subject).bind fun subject hs => ?_
    refine (always_value s .predicate).bind fun predicate hp => ?_
    refine (always_value s .object).bind fun object ho => always_pure fun t => ?_
    cases t with
    | subject => exact hs
    | predicate => exact hp
    | object => exact ho
    | context => exact hc
  exact always_true.bind fun n _ => always_ite
    (fun _ => (always_pure hmissing).bind fun _ hc => hrest hc)
    fun _ => (always_value s .context).bind fun _ hc => hrest hc

/-! ## Patterns -/

theorem always_lower (s : WorkloadSettings) (t : Term) (r : Interval) :
    Always (lower s t r) fun r' => ∃ v, IsValue s t v ∧
      (r' = { r with gte := some v } ∨ r' = { r with gt := some v }) :=
  (always_value s t).bind fun v hv => always_true.bind fun _ _ =>
    always_ite (fun _ => always_pure ⟨v, hv, .inl rfl⟩) fun _ => always_pure ⟨v, hv, .inr rfl⟩

theorem always_upper (s : WorkloadSettings) (t : Term) (r : Interval) :
    Always (upper s t r) fun r' => ∃ v, IsValue s t v ∧
      (r' = { r with lte := some v } ∨ r' = { r with lt := some v }) :=
  (always_value s t).bind fun v hv => always_true.bind fun _ _ =>
    always_ite (fun _ => always_pure ⟨v, hv, .inl rfl⟩) fun _ => always_pure ⟨v, hv, .inr rfl⟩

theorem always_interval (s : WorkloadSettings) (t : Term) :
    Always (interval s t) fun r => r.fault? t = none := by
  have hlower {v : String} (hv : IsValue s t v) {r : Interval}
      (hr : r = { gte := some v } ∨ r = { gt := some v }) : r.fault? t = none := by
    rcases hr with rfl | rfl <;>
      simp [Interval.fault?_eq_none_iff, Interval.values, hv.isReserved_eq_false]
  have hupper {r : Interval} (hr : r = {} ∨
      ∃ v, IsValue s t v ∧ (r = { gte := some v } ∨ r = { gt := some v })) :
      Always (upper s t r) fun r => r.fault? t = none := by
    intro c
    obtain ⟨w, hw, hr'⟩ := always_upper s t r c
    rcases hr with rfl | ⟨v, hv, rfl | rfl⟩
    · rcases hr' with hr' | hr' <;>
        simp [hr', Interval.fault?_eq_none_iff, Interval.values, hw.isReserved_eq_false]
    all_goals
      rcases hr' with hr' | hr' <;>
        simp [hr', Interval.fault?_eq_none_iff, Interval.values, hv.isReserved_eq_false,
          hw.isReserved_eq_false]
  refine always_true.bind fun shape _ => always_ite (fun hshape => ?_) fun _ => ?_
  · refine (always_pure (P := (· = {})) rfl).bind fun r hr =>
      always_ite (fun hzero => ?_) fun _ => hupper (.inl hr)
    rw [hshape] at hzero
    contradiction
  · refine (always_lower s t {}).bind fun r hr => ?_
    obtain ⟨v, hv, hr⟩ := hr
    exact always_ite (fun _ => always_pure (hlower hv hr)) fun _ => hupper (.inr ⟨v, hv, hr⟩)

theorem always_constraint (s : WorkloadSettings) (t : Term) :
    Always (constraint s t) fun c => c.fault? t = none := by
  refine always_true.bind fun _ _ => always_ite (fun _ => ?_) fun _ => ?_
  · exact (always_value s t).bind fun v hv =>
      always_pure (Constraint.fault?_exact_eq_none_iff.2 hv.isReserved_eq_false)
  · exact (always_interval s t).bind fun r hr => always_pure hr

/-- The selectors for a place: those without fault that have three constraints at most. -/
def IsSelector (t : Term) (sel : Selector) : Prop :=
  sel.fault? t = none ∧ sel.constraints.length ≤ 3

theorem always_selector (s : WorkloadSettings) (t : Term) :
    Always (selector s t) (IsSelector t) := by
  refine always_true.bind fun kind _ => always_ite (fun _ => ?_) fun _ =>
    always_ite (fun _ => ?_) fun _ => ?_
  · exact (always_constraint s t).bind fun c hc => always_pure ⟨hc, by simp [Selector.constraints]⟩
  · exact (always_interval s t).bind fun r hr => always_pure ⟨hr, by simp [Selector.constraints]⟩
  · refine (always_below (by decide : 0 < 3)).bind fun n hn =>
      ((always_constraint s t).times (n + 1)).bind fun cs hcs => always_pure ⟨?_, ?_⟩
    · refine Selector.fault?_anyOf_eq_none_iff.2 ⟨?_, hcs.2⟩
      rintro rfl
      cases hcs.1
    · rw [Selector.constraints, hcs.1]
      exact hn

/-- The selectors of a pattern after one of them was replaced. -/
theorem mem_replace {e : Term × Selector} {sel : Selector} {es : List (Term × Selector)}
    (h : e ∈ Pattern.replace t sel es) : e = (t, sel) ∨ e ∈ es := by
  induction es with
  | nil => exact .inl (List.mem_singleton.1 h)
  | cons x es ih =>
      rw [Pattern.replace] at h
      split at h
      · exact (List.mem_cons.1 h).imp id (List.mem_cons_of_mem x)
      · rcases List.mem_cons.1 h with rfl | h
        · exact .inr List.mem_cons_self
        · exact (ih h).imp id (List.mem_cons_of_mem x)

theorem always_constrain (s : WorkloadSettings) {p : Pattern}
    (hp : ∀ e ∈ p.entries, IsSelector e.1 e.2) (ts : List Term) :
    Always (constrain s p ts) fun p => ∀ e ∈ p.entries, IsSelector e.1 e.2 := by
  induction ts generalizing p with
  | nil => exact always_pure hp
  | cons t ts ih =>
      refine always_true.bind fun _ _ => always_ite (fun _ => ?_) fun _ => ih hp
      refine (always_selector s t).bind fun sel hsel => ih ?_
      intro e he
      rcases mem_replace he with rfl | he
      · exact hsel
      · exact hp e he

theorem always_pattern (s : WorkloadSettings) :
    Always (pattern s) fun p => ∀ e ∈ p.entries, IsSelector e.1 e.2 :=
  always_true.bind fun terms _ => always_constrain s (by simp [Pattern.empty]) terms.toList

/-! ## Operations -/

/-- The page lies within the first results. -/
def IsNear (page : Paging) : Prop := page.offset < 4 ∧ ∀ n, page.limit = some n → n < 6

theorem IsNear.reach_le {page : Paging} (h : IsNear page) (n : Nat) (hn : page.limit = some n) :
    page.offset + n ≤ Paging.maxCount := by
  have hoffset := h.1
  have hlimit := h.2 n hn
  rw [Paging.maxCount]
  omega

theorem always_paging (s : WorkloadSettings) : Always (paging s) IsNear := by
  refine always_true.bind fun _ _ => always_ite (fun _ => ?_) fun _ =>
    always_pure ⟨by decide, nofun⟩
  refine (always_below (by decide : 0 < 4)).bind fun offset ho => always_true.bind fun _ _ =>
    always_ite (fun _ => ?_) fun _ => always_pure ⟨ho, nofun⟩
  refine (always_below (by decide : 0 < 6)).bind fun limit hl => always_pure ⟨ho, ?_⟩
  rintro n ⟨⟩
  exact hl

/-- The operations of a workload. A write has one quad at least. -/
def IsDrawn (s : WorkloadSettings) : Operation → Prop
  | .put qs | .erase qs => (1 ≤ qs.length ∧ qs.length ≤ max s.maxQuadsPerWrite 1) ∧
      ∀ q ∈ qs, ∀ t, IsValue s t (q.get t)
  | .query p page => (∀ e ∈ p.entries, IsSelector e.1 e.2) ∧ IsNear page

theorem always_drawn (s : WorkloadSettings) : Always (operation s) (IsDrawn s) := by
  refine always_true.bind fun _ _ => always_ite (fun _ => ?_) fun _ => ?_
  · exact (always_pattern s).bind fun p hp => (always_paging s).bind fun page hpage =>
      always_pure ⟨hp, hpage⟩
  · have hsize : 0 < max s.maxQuadsPerWrite 1 :=
      Nat.lt_of_lt_of_le Nat.one_pos (Nat.le_max_right _ _)
    refine (always_below hsize).bind fun n hn =>
      ((always_quad s).times (n + 1)).bind fun qs hqs => ?_
    have hlength : 1 ≤ qs.length ∧ qs.length ≤ max s.maxQuadsPerWrite 1 := by
      rw [hqs.1]
      exact ⟨Nat.succ_pos n, hn⟩
    exact always_true.bind fun _ _ =>
      always_ite (fun _ => always_pure ⟨hlength, hqs.2⟩) fun _ => always_pure ⟨hlength, hqs.2⟩

/-- A store can take the operation, and counts of rows are large enough for its page. -/
def Suits : Operation → Prop
  | .put qs | .erase qs => ∀ q ∈ qs, q.fault? = none
  | .query p page => p.fault? = none ∧ IsNear page

theorem fault?_of_values (hpool : s.valuePoolSize ≤ Paging.maxCount) {q : Quad}
    (hq : ∀ t, IsValue s t (q.get t)) : q.fault? = none :=
  Quad.fault?_eq_none_iff.2 fun t =>
    Quad.fieldFault?_eq_none_iff.1 ((hq t).fieldFault?_eq_none hpool t)

theorem fault?_of_selectors {p : Pattern} (hp : ∀ e ∈ p.entries, IsSelector e.1 e.2) :
    p.fault? = none :=
  Pattern.fault?_eq_none_iff.2 fun e he => (hp e he).1

theorem always_operation (hpool : s.valuePoolSize ≤ Paging.maxCount) :
    Always (operation s) Suits := by
  intro c
  have h := always_drawn s c
  cases hop : (operation s c).1 with
  | put qs | erase qs =>
      rw [hop] at h
      exact fun q hq => fault?_of_values hpool (h.2 q hq)
  | query p page =>
      rw [hop] at h
      exact ⟨fault?_of_selectors h.1, h.2⟩

end Workload
end QuadIndex
