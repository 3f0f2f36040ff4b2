import QuadIndex.Proofs.Store.Mirror
import QuadIndex.Proofs.Trial.Workload

/-! # Admissible operations

Every operation of a workload is one that a store takes: the shapes of its patterns, the sizes of
its writes and the values of its quads keep within fixed limits, whatever the rates are and whatever
is drawn. So an error of a store under a workload is never the fault of the workload. -/

namespace QuadIndex

/-- An interval has a bound, and one of each side at most. -/
structure Interval.Sided (r : Interval) : Prop where
  bounded : r.values ≠ []
  lower : ¬ (r.gt.isSome ∧ r.gte.isSome)
  upper : ¬ (r.lt.isSome ∧ r.lte.isSome)

namespace Workload

variable {s : WorkloadSettings}

/-- What is asked of a query: lists of one to three constraints, intervals with sides, no fault, and
a page that begins within the first four results and has less than six. -/
structure AdmissibleQuery (p : Pattern) (page : Paging) : Prop where
  distinct : (p.entries.map Prod.fst).Nodup
  lists : ∀ e ∈ p.entries, ∀ cs, e.2 = .anyOf cs → 1 ≤ cs.length ∧ cs.length ≤ 3
  intervals : ∀ e ∈ p.entries, ∀ r, .within r ∈ e.2.constraints → r.Sided
  faultless : p.fault? = none
  offset : page.offset < 4
  limit : ∀ n, page.limit = some n → n < 6

/-- What is asked of a write: a number of quads within the settings, values from the edges or the
pools, and quads that can be stored with any context that a store may fill in. The empty context is
one of the edges. -/
structure AdmissibleWrite (s : WorkloadSettings) (qs : List Quad) : Prop where
  nonempty : 1 ≤ qs.length
  size : qs.length ≤ max 1 s.maxQuadsPerWrite
  values : ∀ q ∈ qs, ∀ t, q.get t ∈ edgeValues ∨
    ∃ n < max 1 s.valuePoolSize, q.get t = String.singleton t.code.toLower ++ toString n
  storable : ∀ context, Quad.fault? ⟨"", "", "", context⟩ = none →
    ∀ q ∈ qs, (Store.fillContext context q).fault? = none

def Admissible (s : WorkloadSettings) : Operation → Prop
  | .put qs | .erase qs => AdmissibleWrite s qs
  | .query p page => AdmissibleQuery p page

/-! ## Queries -/

theorem sided_of_fault? {t : Term} {c : Constraint} (h : c.fault? t = none) {r : Interval}
    (hr : c = .within r) : r.Sided := by
  subst hr
  obtain ⟨hlower, hupper, hvalues, -⟩ := Interval.fault?_eq_none_iff.1 h
  exact ⟨hvalues, hlower, hupper⟩

theorem IsSelector.sided {t : Term} {sel : Selector} (h : IsSelector t sel) {r : Interval}
    (hr : .within r ∈ sel.constraints) : r.Sided := by
  cases sel with
  | one c => exact sided_of_fault? h.1 (List.mem_singleton.1 hr).symm
  | anyOf cs => exact sided_of_fault? ((Selector.fault?_anyOf_eq_none_iff.1 h.1).2 _ hr) rfl

theorem IsSelector.length_list {t : Term} {cs : List Constraint} (h : IsSelector t (.anyOf cs)) :
    1 ≤ cs.length ∧ cs.length ≤ 3 :=
  ⟨List.length_pos_iff.2 (Selector.fault?_anyOf_eq_none_iff.1 h.1).1, h.2⟩

theorem admissible_query {p : Pattern} {page : Paging}
    (hp : ∀ e ∈ p.entries, IsSelector e.1 e.2) (hpage : IsNear page) :
    AdmissibleQuery p page where
  distinct := p.distinct
  lists e he cs hcs := by
    have hsel := hp e he
    rw [hcs] at hsel
    exact hsel.length_list
  intervals e he _ hr := (hp e he).sided hr
  faultless := fault?_of_selectors hp
  offset := hpage.1
  limit := hpage.2

/-! ## Writes -/

theorem admissible_write (hpool : s.valuePoolSize ≤ Paging.maxCount) {qs : List Quad}
    (hsize : 1 ≤ qs.length ∧ qs.length ≤ max s.maxQuadsPerWrite 1)
    (hvalues : ∀ q ∈ qs, ∀ t, IsValue s t (q.get t)) : AdmissibleWrite s qs where
  nonempty := hsize.1
  size := by
    rw [Nat.max_comm]
    exact hsize.2
  values q hq t := by
    rw [Nat.max_comm]
    exact hvalues q hq t
  storable _ hc q hq := Store.fault?_fillContext hc (fault?_of_values hpool (hvalues q hq))

/-! ## Runs -/

theorem IsDrawn.admissible (hpool : s.valuePoolSize ≤ Paging.maxCount) {op : Operation}
    (h : IsDrawn s op) : Admissible s op := by
  cases op with
  | put qs | erase qs => exact admissible_write hpool h.1 h.2
  | query p page => exact admissible_query h.1 h.2

/-- Whatever the words of chance are and however many operations are drawn, all of them are
admissible. -/
theorem drawn_operations_admissible (s : WorkloadSettings)
    (hpool : s.valuePoolSize ≤ Paging.maxCount) (c : Chance) (n : Nat) :
    (Chance.times (operation s) n c).1.length = n ∧
      ∀ op ∈ (Chance.times (operation s) n c).1, Admissible s op := by
  obtain ⟨hlength, hdrawn⟩ := (always_drawn s).times n c
  exact ⟨hlength, fun op hop => (hdrawn op hop).admissible hpool⟩

/-- The lowest words ask for the first page of a pattern over all places, and the highest ones put
as many quads as a write may have. -/
theorem drawn_operations_admissible_two :
    let s := WorkloadSettings.standard
    let c := Chance.ofWords fun n => if n < 43 then 0 else 0xFFFFFFFF
    let p : Pattern := ⟨[(.predicate, .one (.exact "")), (.object, .one (.exact "")),
      (.context, .one (.exact "")), (.subject, .one (.exact ""))], by decide⟩
    let qs := List.replicate 8 (⟨"s5", "p5", "o5", "g5"⟩ : Quad)
    s.valuePoolSize ≤ Paging.maxCount ∧
      (Chance.times (operation s) 2 c).1 = [.query p ⟨0, some 0⟩, .put qs] ∧
      AdmissibleQuery p ⟨0, some 0⟩ ∧ AdmissibleWrite s qs := by
  intro s c p qs
  have hpool : s.valuePoolSize ≤ Paging.maxCount := by decide
  have hops : (Chance.times (operation s) 2 c).1 = [.query p ⟨0, some 0⟩, .put qs] := by
    decide +kernel
  obtain ⟨-, hall⟩ := drawn_operations_admissible s hpool c 2
  rw [hops] at hall
  exact ⟨hpool, hops, hall _ List.mem_cons_self,
    hall _ (List.mem_cons_of_mem _ List.mem_cons_self)⟩

end Workload
end QuadIndex
