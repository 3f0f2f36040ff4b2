import QuadIndex.Proofs.Plan.Choice
import QuadIndex.Proofs.Plan.Pushdown
import QuadIndex.Proofs.Scan.Delivery
import QuadIndex.Proofs.Scan.Progress
import QuadIndex.Proofs.Store.Mirror

/-! # What a store answers

The scan of a branch delivers the quads that satisfy it in the order of its index, and a query
delivers one such block after the other. -/

namespace QuadIndex

namespace Model

/-- The quads that satisfy a branch, in the order of an index. -/
def block (m : Model) (b : Branch) (i : Index) : List Quad :=
  (m.quads.filter (b.admits ·)).mergeSort fun p q => ¬ i.tuple q < i.tuple p

/-- The blocks of a plan, one after the other. -/
def answer (m : Model) (plan : Plan) : List Quad :=
  plan.choices.flatMap fun c => m.block c.branch c.strategy.index

variable {m : Model} {q : Quad}

theorem mem_block_iff {b : Branch} {i : Index} :
    q ∈ m.block b i ↔ q ∈ m.quads ∧ b.admits q = true := by
  rw [block, List.mem_mergeSort, List.mem_filter]

theorem pairwise_block (hm : Quad.Ascending m.quads) (b : Branch) (i : Index) :
    (m.block b i).Pairwise fun p q => i.tuple p < i.tuple q := by
  have hsorted : (m.block b i).Pairwise fun p q =>
      decide (¬ i.tuple q < i.tuple p) = true := by
    refine List.pairwise_mergeSort ?_ ?_ _
    · intro p q r hpq hqr
      rw [decide_eq_true_iff] at hpq hqr ⊢
      intro hrp
      rcases Std.lt_trichotomy (i.tuple p) (i.tuple q) with hlt | heq | hlt
      · exact hqr (List.lt_trans hrp hlt)
      · exact hqr (heq ▸ hrp)
      · exact hpq hlt
    · intro p q
      rw [Bool.or_eq_true, decide_eq_true_iff, decide_eq_true_iff, ← not_and_or]
      intro h
      exact List.lt_asymm h.1 h.2
  have hnodup : (m.block b i).Nodup :=
    (List.mergeSort_perm _ _).nodup_iff.2 (hm.nodup.filter _)
  refine (hsorted.and hnodup).imp fun {p q} h => ?_
  rw [decide_eq_true_iff] at h
  rcases Std.lt_trichotomy (i.tuple p) (i.tuple q) with hlt | heq | hlt
  · exact hlt
  · exact absurd (Index.eq_of_tuple_eq heq) h.2
  · exact absurd hlt h.1

theorem tuple_asymm (i : Index) (p q : Quad) (h : i.tuple p < i.tuple q) :
    ¬ i.tuple q < i.tuple p := List.lt_asymm h

theorem nodup_block (hm : Quad.Ascending m.quads) (b : Branch) (i : Index) :
    (m.block b i).Nodup :=
  nodup_of_ascending (tuple_asymm i) (pairwise_block hm b i)

theorem mem_answer_iff {plan : Plan} :
    q ∈ m.answer plan ↔ q ∈ m.quads ∧ ∃ c ∈ plan.choices, c.branch.admits q = true := by
  simp only [answer, List.mem_flatMap, mem_block_iff]
  constructor
  · rintro ⟨c, hc, hq, hb⟩
    exact ⟨hq, c, hc, hb⟩
  · rintro ⟨hq, c, hc, hb⟩
    exact ⟨c, hc, hq, hb⟩

/-- A quad of the model is answered once for each branch that it satisfies. -/
theorem count_answer (hm : Quad.Ascending m.quads) (plan : Plan) (q : Quad) :
    (m.answer plan).count q =
      if q ∈ m.quads then (plan.choices.map Plan.Choice.branch).countP (·.admits q) else 0 := by
  obtain ⟨cs⟩ := plan
  simp only [answer]
  induction cs with
  | nil => simp
  | cons c cs ih =>
      have hblock := (nodup_block hm c.branch c.strategy.index).count (a := q)
      simp only [mem_block_iff] at hblock
      rw [List.flatMap_cons, List.count_append, ih, hblock, List.map_cons, List.countP_cons]
      by_cases hq : q ∈ m.quads
      · simp [hq, Nat.add_comm]
      · simp [hq]

end Model

/-! ## The rows of a scan -/

/-- A list of values of a function is the image of a list. -/
theorem exists_map_eq {α β : Type} {f : α → β} {P : α → Prop} {bs : List β}
    (h : ∀ b ∈ bs, ∃ a, P a ∧ f a = b) : ∃ as : List α, (∀ a ∈ as, P a) ∧ as.map f = bs := by
  induction bs with
  | nil => exact ⟨[], nofun, rfl⟩
  | cons b bs ih =>
      obtain ⟨a, ha, rfl⟩ := h b List.mem_cons_self
      obtain ⟨as, has, rfl⟩ := ih fun b hb => h b (List.mem_cons_of_mem _ hb)
      exact ⟨a :: as, List.forall_mem_cons.2 ⟨ha, has⟩, rfl⟩

theorem Scan.readRow?_entry {q : Quad} (hq : q.fault? = none) (i : Index)
    (filter : Option (List Predicate)) :
    readRow? filter (i.entry q) = if passes filter q then some (.ok q) else none := by
  rw [readRow?, Index.entry, Record.decode_encode_of_storable hq]

namespace Store

variable {σ κ : Type} [Engine σ κ] {st : Store σ} {m : Model} {i : Index}

/-- Rows within the range of a branch are the entries of quads under its index. -/
theorem Shows.mem_between_iff (h : st.Shows m) (b : Branch) (hi : i ∈ st.registry.indexes)
    {lower upper : Bound}
    (hrange : ∀ k, lower.below k = true → upper.above k = true →
      (Strategy.ofBranch b i).scan.range.contains k = true) {e : Entry} :
    e ∈ (Engine.table st.engine).between lower upper ↔
      ∃ q, (q ∈ m.quads ∧ lower.below (i.key q) = true ∧ upper.above (i.key q) = true) ∧
        i.entry q = e := by
  rw [Table.mem_between_iff]
  constructor
  · rintro ⟨he, hl, hu⟩
    have howns := Strategy.owns_of_contains (hrange e.1 hl hu)
    obtain ⟨q, hq, rfl⟩ := (h.table i hi e howns).1 he
    exact ⟨q, ⟨hq, hl, hu⟩, rfl⟩
  · rintro ⟨q, ⟨hq, hl, hu⟩, rfl⟩
    exact ⟨(h.table i hi _ (i.owns_key q)).2 ⟨q, hq, rfl⟩, hl, hu⟩

theorem Mirrors.mem_between_iff (h : st.Mirrors m) (b : Branch) (hi : i ∈ st.registry.indexes)
    {lower upper : Bound}
    (hrange : ∀ k, lower.below k = true → upper.above k = true →
      (Strategy.ofBranch b i).scan.range.contains k = true) {e : Entry} :
    e ∈ (Engine.table st.engine).between lower upper ↔
      ∃ q, (q ∈ m.quads ∧ lower.below (i.key q) = true ∧ upper.above (i.key q) = true) ∧
        i.entry q = e :=
  h.shows.mem_between_iff b hi hrange

theorem Shows.exists_rows (h : st.Shows m) (b : Branch) (hi : i ∈ st.registry.indexes) :
    ∃ qs : List Quad,
      qs.map i.entry = (Engine.table st.engine).between
        (Strategy.ofBranch b i).scan.range.lower (Strategy.ofBranch b i).scan.range.upper ∧
      ∀ q, q ∈ qs ↔
        q ∈ m.quads ∧ (Strategy.ofBranch b i).scan.range.contains (i.key q) = true := by
  have hmem {e : Entry} : e ∈ (Engine.table st.engine).between
      (Strategy.ofBranch b i).scan.range.lower (Strategy.ofBranch b i).scan.range.upper ↔
        ∃ q, (q ∈ m.quads ∧ (Strategy.ofBranch b i).scan.range.contains (i.key q) = true) ∧
          i.entry q = e := by
    simp only [KeyRange.contains, Bool.and_eq_true]
    exact h.mem_between_iff b hi fun k hl hu => by rw [KeyRange.contains, hl, hu, Bool.and_self]
  obtain ⟨qs, hqs, hmap⟩ := exists_map_eq fun e he => hmem.1 he
  refine ⟨qs, hmap, ?_⟩
  intro q
  refine ⟨hqs q, ?_⟩
  intro hq
  have hrow : i.entry q ∈ qs.map i.entry := by
    rw [hmap]
    exact hmem.2 ⟨q, hq, rfl⟩
  obtain ⟨p, hp, he⟩ := List.mem_map.1 hrow
  have hkey : i.key p = i.key q := congrArg Prod.fst he
  rwa [← Index.key_inj (h.storable p (hqs p hp).1) (h.storable q hq.1) hkey]

/-- The scan of a branch delivers its block. -/
theorem Shows.items_scan (h : st.Shows m) {b : Branch} (hb : b.Plannable)
    (hi : i ∈ st.registry.indexes) :
    (Strategy.ofBranch b i).scan.items (Engine.table st.engine) = (m.block b i).map .ok := by
  obtain ⟨qs, hrows, hqs⟩ := h.exists_rows b hi
  let filter := (Strategy.ofBranch b i).scan.filter
  have hitems : (Strategy.ofBranch b i).scan.items (Engine.table st.engine) =
      (qs.filter (Scan.passes filter ·)).map .ok := by
    have hscan : (Strategy.ofBranch b i).scan.items (Engine.table st.engine) =
        (qs.map i.entry).filterMap (Scan.readRow? filter) := by
      rw [hrows]
      rfl
    rw [hscan, List.filterMap_map, ← List.filterMap_eq_filter, List.map_filterMap]
    apply List.filterMap_congr
    intro q hq
    rw [Function.comp_apply, Scan.readRow?_entry (h.storable q ((hqs q).1 hq).1) i filter]
    cases hp : Scan.passes filter q <;> simp [Option.guard, hp]
  have hordered : qs.Pairwise fun p q => i.tuple p < i.tuple q := by
    have hasc := (Engine.table st.engine).ascending_between
      (Strategy.ofBranch b i).scan.range.lower (Strategy.ofBranch b i).scan.range.upper
    rw [← hrows, Entries.Ascending, List.pairwise_map] at hasc
    refine hasc.imp_of_mem fun {p q} hp hq hlt => ?_
    exact (Index.key_lt_key_iff (h.storable p ((hqs p).1 hp).1)
      (h.storable q ((hqs q).1 hq).1)).1 hlt
  rw [hitems]
  refine congrArg _ (eq_of_ascending (Model.tuple_asymm i) (hordered.filter _)
    (Model.pairwise_block h.ascending b i) ?_)
  intro q
  rw [List.mem_filter, hqs, Model.mem_block_iff, and_assoc]
  exact and_congr_right fun hq => Strategy.selects_iff hb (h.storable q hq)

theorem Shows.items_plan (h : st.Shows m) {plan : Plan}
    (hplannable : ∀ c ∈ plan.choices, c.branch.Plannable)
    (hchosen : ∀ c ∈ plan.choices, ∃ i ∈ st.registry.indexes, c.strategy = .ofBranch c.branch i) :
    plan.scans.flatMap (·.items (Engine.table st.engine)) = (m.answer plan).map .ok := by
  rw [Plan.scans, List.flatMap_map, Model.answer, List.map_flatMap]
  apply List.flatMap_congr
  intro c hc
  obtain ⟨i, hi, hs⟩ := hchosen c hc
  rw [hs]
  exact h.items_scan (hplannable c hc) hi

/-! ## Queries -/

open LawfulEngine (Quiet)

variable [LawfulEngine σ κ]

structure Read (st st' : Store σ) : Prop extends Kept st st' where
  engine : ResultStream.Read st.engine st'.engine

theorem Mirrors.of_read {st' : Store σ} (h : st.Mirrors m) (hr : Read st st') : st'.Mirrors m :=
  h.of_kept hr.toKept hr.engine.table

/-- The engine was not quiet, and injected the fault that was met. -/
def Faulted (st : Store σ) (e : StoreError) : Prop :=
  ¬ Quiet st.engine ∧ ∃ reason, e = .engine (.injectedFault reason)

/-- Counts of rows are large enough for the page: the results that it reaches can be counted, or
the entries of the table. -/
def Countable (st : Store σ) (paging : Paging) : Prop :=
  (∀ n, paging.limit = some n → paging.offset + n ≤ Paging.maxCount) ∨
    (Engine.table st.engine).size ≤ Paging.maxCount

/-- Scans deliver a page of their quads, unless a fault comes in between. -/
theorem collect_page_meets {scans : List Scan} {qs : List Quad} {paging : Paging}
    (hcount : st.Countable paging) (hlimit : ∀ s ∈ scans, s.range.limit = none)
    (h : scans.flatMap (·.items (Engine.table st.engine)) = qs.map .ok) :
    (st.collect (.ofScans scans paging)).Meets
      (fun rs st' => rs = paging.slice qs ∧ Read st st')
      (fun e st' => Faulted st e ∧ Read st st') := by
  obtain ⟨hread, hcases⟩ := ResultStream.collect_spec
    (ResultStream.steady_ofScans hcount.symm fun _ _ => Scan.ample_of_le fun s hs _ _ hc =>
      absurd ((hlimit s hs).symm.trans hc) nofun)
    (ResultStream.owed_ofScans h)
  rw [collect]
  split
  · next rs engine heq =>
    rw [heq] at hread hcases
    rcases hcases with he | ⟨-, _, he⟩
    · exact ⟨Except.ok.inj he, ⟨rfl, rfl⟩, hread⟩
    · contradiction
  · next e engine heq =>
    rw [heq] at hread hcases
    rcases hcases with he | ⟨hloud, reason, he⟩
    · contradiction
    · obtain rfl := Except.error.inj he
      exact ⟨⟨hloud, reason, rfl⟩, ⟨rfl, rfl⟩, hread⟩

theorem plan_eq_ok {p : Pattern} (hp : p.fault? = none) (st : Store σ) :
    ∃ plan, st.plan p = .ok plan ∧ plan.choices.map Plan.Choice.branch = p.branches ∧
      ∀ c ∈ plan.choices, ∃ i ∈ st.registry.indexes, c.strategy = .ofBranch c.branch i := by
  obtain ⟨plan, hplan, hbranches, hchosen⟩ := Plan.ofPattern_eq_ok hp st.registry
  refine ⟨plan, by rw [Store.plan, hplan], hbranches, fun c hc => ?_⟩
  obtain ⟨i, hi, hs⟩ := hchosen c hc
  exact ⟨i, hi.mem, hs⟩

/-- A query for a faultless pattern delivers a page of the answer of its plan, unless a fault comes
in between. -/
theorem Shows.get_page_meets (h : st.Shows m) {p : Pattern} (hp : p.fault? = none)
    {plan : Plan} (hplan : st.plan p = .ok plan) {paging : Paging}
    (hcount : st.Countable paging) :
    (st.get p paging).Meets (fun qs st' => qs = paging.slice (m.answer plan) ∧ Read st st')
      (fun e st' => Faulted st e ∧ Read st st') := by
  obtain ⟨plan', hplan', hbranches, hchosen⟩ := plan_eq_ok hp st
  obtain rfl := Except.ok.inj (hplan.symm.trans hplan')
  have hplannable : ∀ c ∈ plan.choices, c.branch.Plannable := by
    intro c hc
    have hb : c.branch ∈ p.branches := hbranches ▸ List.mem_map.2 ⟨c, hc, rfl⟩
    exact Pattern.plannable_of_mem_branches hp hb
  let logged : Store σ := { st with plansRun := plan :: st.plansRun }
  have hcount : logged.Countable paging := hcount
  have hget : st.get p paging = logged.collect (.ofScans plan.scans paging) := by
    rw [get, query, hplan]
  have hitems : plan.scans.flatMap (·.items (Engine.table logged.engine)) =
      (m.answer plan).map .ok := h.items_plan hplannable hchosen
  have hlimit : ∀ s ∈ plan.scans, s.range.limit = none := by
    intro s hs
    obtain ⟨c, -, rfl⟩ := List.mem_map.1 hs
    rfl
  have hread {st' : Store σ} (hr : Read logged st') : Read st st' :=
    ⟨⟨hr.registry, hr.defaultContext⟩, hr.engine⟩
  rw [hget]
  exact (collect_page_meets hcount hlimit hitems).imp (fun _ _ hq => ⟨hq.1, hread hq.2⟩)
    (fun _ _ he => ⟨he.1, hread he.2⟩)

theorem Mirrors.get_page_meets (h : st.Mirrors m) {p : Pattern} (hp : p.fault? = none)
    {plan : Plan} (hplan : st.plan p = .ok plan) {paging : Paging}
    (hcount : st.Countable paging) :
    (st.get p paging).Meets (fun qs st' => qs = paging.slice (m.answer plan) ∧ Read st st')
      (fun e st' => Faulted st e ∧ Read st st') :=
  h.shows.get_page_meets hp hplan hcount

theorem Mirrors.get_meets (h : st.Mirrors m) {p : Pattern} (hp : p.fault? = none) {plan : Plan}
    (hplan : st.plan p = .ok plan) :
    (st.get p {}).Meets (fun qs st' => qs = m.answer plan ∧ Read st st')
      (fun e st' => Faulted st e ∧ Read st st') :=
  h.get_page_meets hp hplan (.inl nofun)

/-- A query does nothing to its engine but what streams do. -/
theorem custody_get {R : Option κ → σ → Prop}
    (hR : ResultStream.Custody fun (_ : List Scan) => R) (h : R none st.engine) (p : Pattern)
    (paging : Paging) : R none (st.get p paging).2.engine := by
  rw [get, query]
  cases st.plan p with
  | error e => exact h
  | ok plan =>
      have hcollect := hR.collect plan.scans paging h
      dsimp only
      rw [collect]
      split
      · next heq =>
        rw [heq] at hcollect
        exact hcollect
      · next heq =>
        rw [heq] at hcollect
        exact hcollect

omit [LawfulEngine σ κ] in
/-- A query for a pattern with a fault reads nothing. -/
theorem get_eq_error {p : Pattern} {f : PatternFault} (hp : p.fault? = some f) (st : Store σ)
    (paging : Paging) : st.get p paging = (.error (.ofQuery (.ofFault f)), st) := by
  have hplan : st.plan p = .error (.ofQuery (.ofFault f)) := by
    rw [Store.plan, Plan.ofPattern_eq_error hp]
  rw [get, query, hplan]

end Store
end QuadIndex
