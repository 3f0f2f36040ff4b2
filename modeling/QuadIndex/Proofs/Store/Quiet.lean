import QuadIndex.Proofs.Store.Operations

/-! # Stores over a quiet engine

An engine that is quiet gives whole answers and takes every batch. What a store then asks of its
input decides whether an operation succeeds. -/

namespace QuadIndex

theorem Registry.exists_register_iff {r : Registry} {i : Index} :
    (∃ r', r.register i = .ok r') ↔ i.name ∉ r.names := by
  have hnames : (∃ j ∈ r.indexes, j.name = i.name) ↔ i.name ∈ r.names := List.mem_map.symm
  rw [← hnames, register]
  split
  · next h => exact iff_of_false (by simp) (not_not_intro h)
  · next h => exact iff_of_true ⟨_, rfl⟩ h

namespace Store

open LawfulEngine (Quiet)

variable {σ κ : Type} [Engine σ κ] {st : Store σ} {m : Model} {p : Pattern}
  {old new : List Quad}

/-- The quads can be stored once their contexts are filled in. -/
def Storable (st : Store σ) (qs : List Quad) : Prop :=
  ∀ q ∈ qs, (fillContext st.defaultContext q).fault? = none

theorem Storable.of_kept {st' : Store σ} (hk : Kept st st') {qs : List Quad} :
    st'.Storable qs ↔ st.Storable qs := by
  rw [Storable, Storable, hk.defaultContext]

theorem Mirrors.map_fillContext (h : st.Mirrors m) {qs : List Quad} (hqs : qs ⊆ m.quads) :
    qs.map (fillContext st.defaultContext) = qs := by
  rw [← h.stored_eq]
  exact (List.map_congr_left fun q hq => h.filled q (hqs hq)).trans (List.map_id qs)

theorem Mirrors.storable_of_subset (h : st.Mirrors m) {qs : List Quad} (hqs : qs ⊆ m.quads) :
    st.Storable qs := by
  intro q hq
  rw [← h.stored_eq, h.filled q (hqs hq)]
  exact h.storable q (hqs hq)

/-! ## Writes -/

theorem exists_batch_iff : (∃ b, st.batch old new = .ok b) ↔ st.Storable old ∧ st.Storable new := by
  simp only [batch_eq_ok_iff, List.forall_mem_map]
  constructor
  · rintro ⟨b, hold, hnew, -⟩
    exact ⟨hold, hnew⟩
  · rintro ⟨hold, hnew⟩
    exact ⟨_, hold, hnew, rfl⟩

variable [LawfulEngine σ κ]

theorem kept_patch (st : Store σ) (old new : List Quad) : Kept st (st.patch old new).2 := by
  rw [patch]
  split
  · exact Kept.refl st
  · next b _ =>
    rcases (st.submit_meets b).ok_or_error with ⟨_, -, hk, -⟩ | ⟨_, -, hk, -⟩
    · exact hk
    · exact hk

theorem quiet_patch (hquiet : Quiet st.engine) (old new : List Quad) :
    Quiet (st.patch old new).2.engine := by
  rcases st.engine_patch old new with hsame | ⟨b, hwritten⟩
  · rwa [hsame]
  · rw [hwritten]
    exact (LawfulEngine.quiet_write b hquiet).2

theorem submit_eq_ok (hquiet : Quiet st.engine) (b : Batch) : (st.submit b).1 = .ok () := by
  rw [submit]
  split
  · rfl
  · have hok := (LawfulEngine.quiet_write b hquiet).1
    split
    · rfl
    · next hw =>
      rw [hw] at hok
      contradiction

/-- A quiet engine takes every batch, so a write fails only where a quad cannot be stored. -/
theorem patch_eq_ok_iff (hquiet : Quiet st.engine) (old new : List Quad) :
    (st.patch old new).1 = .ok () ↔ st.Storable old ∧ st.Storable new := by
  rw [← exists_batch_iff, patch]
  split
  · next e he => exact iff_of_false (by simp) (by simp [he])
  · next b hb => exact iff_of_true (submit_eq_ok hquiet b) ⟨b, hb⟩

theorem eachQuad_eq_ok_iff (hquiet : Quiet st.engine) (old new : Quad → List Quad) (count : Nat)
    (qs : List Quad) :
    (∃ n, (eachQuad (fun st q => st.patch (old q) (new q)) st count qs).1 = .ok n) ↔
      ∀ q ∈ qs, st.Storable (old q) ∧ st.Storable (new q) := by
  induction qs generalizing st count with
  | nil => exact iff_of_true ⟨count, rfl⟩ (by simp)
  | cons q qs ih =>
      have hfirst := patch_eq_ok_iff hquiet (old q) (new q)
      have hkept := st.kept_patch (old q) (new q)
      have hstill := quiet_patch hquiet (old q) (new q)
      rw [eachQuad, List.forall_mem_cons, ← hfirst]
      split
      · next e st' heq => exact iff_of_false (by simp) (by simp [heq])
      · next st' heq =>
        rw [heq] at hkept hstill
        rw [heq, and_iff_right rfl, ih hstill]
        simp only [Storable.of_kept hkept]

/-! ## Queries -/

theorem Shows.get_eq_ok (h : st.Shows m) (hquiet : Quiet st.engine) (hp : p.fault? = none) :
    ∃ (plan : Plan) (st' : Store σ), plan.choices.map Plan.Choice.branch = p.branches ∧
      st.get p {} = (.ok (m.answer plan), st') ∧ Read st st' := by
  obtain ⟨plan, hplan, hbranches, -⟩ := plan_eq_ok hp st
  have hcount : st.Countable {} := .inl nofun
  refine ⟨plan, (st.get p {}).2, hbranches, ?_⟩
  rcases (h.get_page_meets hp hplan hcount).ok_or_error with
    ⟨_, hok, rfl, hread⟩ | ⟨_, -, hfault, -⟩
  · exact ⟨Prod.ext hok rfl, hread⟩
  · exact absurd hquiet hfault.1

theorem Mirrors.matching_eq_ok (h : st.Mirrors m) (hquiet : Quiet st.engine)
    (hp : p.fault? = none) :
    ∃ st', st.matching p = (.ok (m.expected p), st') ∧ Read st st' := by
  obtain ⟨plan, st', hbranches, hget, hread⟩ := h.shows.get_eq_ok hquiet hp
  refine ⟨st', ?_, hread⟩
  rw [matching, hget, ← Model.ascending_answer h.ascending hbranches]

/-- A replacement is one write: of what matches, by the new quads. -/
theorem Mirrors.patchMatching_eq (h : st.Mirrors m) (hquiet : Quiet st.engine)
    (hp : p.fault? = none) (new : List Quad) :
    ∃ st', Read st st' ∧ st.patchMatching p new =
      ((fun _ => (m.expected p).length) <$> (st'.patch (m.expected p) new).1,
        (st'.patch (m.expected p) new).2) := by
  obtain ⟨st', hmatching, hread⟩ := h.matching_eq_ok hquiet hp
  refine ⟨st', hread, ?_⟩
  rw [patchMatching, hmatching]
  dsimp only
  split
  · next heq =>
    rw [heq]
    rfl
  · next heq =>
    rw [heq]
    rfl

/-- What matches can be stored again, so only the pattern and the new quads are in question. -/
theorem Mirrors.patchMatching_eq_ok_iff (h : st.Mirrors m) (hquiet : Quiet st.engine) :
    (∃ n, (st.patchMatching p new).1 = .ok n) ↔ p.fault? = none ∧ st.Storable new := by
  cases hp : p.fault? with
  | some f =>
      refine iff_of_false ?_ (by simp)
      rw [patchMatching, matching, get_eq_error hp]
      simp
  | none =>
      obtain ⟨st', hread, heq⟩ := h.patchMatching_eq hquiet hp new
      have hpatch := patch_eq_ok_iff (hread.engine.quiet hquiet) (m.expected p) new
      rw [Storable.of_kept hread.toKept, Storable.of_kept hread.toKept,
        and_iff_right (h.storable_of_subset m.expected_subset)] at hpatch
      rw [and_iff_right rfl, ← hpatch, heq]
      simp only [map_eq_ok_iff]
      constructor
      · rintro ⟨_, _, hok, -⟩
        exact hok
      · exact fun hok => ⟨_, _, hok, rfl⟩

/-! ## Registering an index -/

/-- An index can be added to whatever a store shows, if its name is new. -/
theorem Shows.register_eq_ok_iff (h : st.Shows m) (hquiet : Quiet st.engine) {i : Index} :
    (st.register i).1 = .ok () ↔ i.name ∉ st.registry.names := by
  have hcollect := collect_page_meets (.inl nofun : st.Countable {}) (by simp [Strategy.scan])
    h.items_everything
  rw [← Registry.exists_register_iff, register]
  split
  · next e he => exact iff_of_false (by simp) (by simp [he])
  · next registry hr =>
    refine iff_of_true ?_ ⟨registry, hr⟩
    rw [everything]
    split
    · next e st' heq =>
      rw [heq] at hcollect
      exact absurd hquiet hcollect.1.1
    · next qs st' heq =>
      rw [heq] at hcollect
      have hsubmit := submit_eq_ok (hcollect.2.engine.quiet hquiet) (insertions [i] qs)
      split
      · next e st'' hs =>
        rw [hs] at hsubmit
        contradiction
      · rfl

end Store
end QuadIndex
