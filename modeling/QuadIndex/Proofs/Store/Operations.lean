import QuadIndex.Proofs.Store.Answer

/-! # What each operation does to the mirrored model

An operation that fails leaves the model as it was; only those that write quad by quad may have
come part of the way. -/

namespace QuadIndex

/-! ## The model, quad by quad -/

namespace Model

theorem put_eq_foldl (m : Model) (qs : List Quad) :
    m.put qs = qs.foldl (fun m q => m.put [q]) m := by
  induction qs generalizing m with
  | nil => rfl
  | cons q qs ih => rw [put_cons, ih, List.foldl_cons]

theorem erase_eq_foldl (m : Model) (qs : List Quad) :
    m.erase qs = qs.foldl (fun m q => m.erase [q]) m := by
  induction qs generalizing m with
  | nil => rfl
  | cons q qs ih => rw [erase_cons, ih, List.foldl_cons]

/-- The branches of a pattern together answer what the model expects. -/
theorem mem_answer_iff_mem_expected {m : Model} {p : Pattern} {plan : Plan}
    (h : plan.choices.map Plan.Choice.branch = p.branches) {q : Quad} :
    q ∈ m.answer plan ↔ q ∈ m.expected p := by
  have hbranch : (∃ c ∈ plan.choices, c.branch.admits q = true) ↔ q.matchesPattern p = true := by
    rw [← p.multiplicity_pos_iff, ← p.countP_branches, ← h, List.countP_pos_iff]
    simp only [List.mem_map, exists_exists_and_eq_and]
  rw [mem_answer_iff, mem_expected_iff, hbranch]

/-- The distinct quads of an answer are those that the model expects. -/
theorem ascending_answer {m : Model} (hm : Quad.Ascending m.quads) {p : Pattern} {plan : Plan}
    (h : plan.choices.map Plan.Choice.branch = p.branches) :
    Quad.ascending (m.answer plan) = m.expected p := by
  refine (Quad.ascending_ascending _).eq_of_mem_iff (ascending_expected hm p) ?_
  intro q
  rw [Quad.mem_ascending_iff, mem_answer_iff_mem_expected h]

end Model

namespace Store

open LawfulEngine (Quiet)

variable {σ κ : Type} [Engine σ κ] [LawfulEngine σ κ] {st st' : Store σ} {m : Model}

/-! ## Writing what matches -/

theorem Mirrors.matching_meets (h : st.Mirrors m) (p : Pattern) :
    (st.matching p).Meets (fun qs st' => qs = m.expected p ∧ Read st st')
      (fun _ st' => Read st st') := by
  rw [matching]
  cases hp : p.fault? with
  | some f =>
      rw [get_eq_error hp]
      exact ⟨Kept.refl st, ResultStream.Read.refl st.engine⟩
  | none =>
      obtain ⟨plan, hplan, hbranches, -⟩ := plan_eq_ok hp st
      have hget := h.get_meets hp hplan
      split
      · next e st' heq =>
        rw [heq] at hget
        exact hget.2
      · next qs st' heq =>
        rw [heq] at hget
        obtain ⟨rfl, hread⟩ := hget
        exact ⟨Model.ascending_answer h.ascending hbranches, hread⟩

theorem Mirrors.patchMatching_meets (h : st.Mirrors m) (p : Pattern) (new : List Quad) :
    (st.patchMatching p new).Meets
      (fun n st' => n = (m.expected p).length ∧ Kept st st' ∧
        st'.Mirrors ((m.erase (m.expected p)).put new))
      (fun _ st' => Kept st st' ∧ st'.Mirrors m) := by
  have hmatching := h.matching_meets p
  rw [patchMatching]
  split
  · next e st' heq =>
    rw [heq] at hmatching
    exact ⟨hmatching.toKept, h.of_read hmatching⟩
  · next old st' heq =>
    rw [heq] at hmatching
    obtain ⟨rfl, hread⟩ := hmatching
    have hpatch := (h.of_read hread).patch_meets (m.expected p) new
    split
    · next e st'' hp =>
      rw [hp] at hpatch
      exact ⟨hread.toKept.trans hpatch.1, hpatch.2⟩
    · next st'' hp =>
      rw [hp] at hpatch
      exact ⟨rfl, hread.toKept.trans hpatch.1, hpatch.2⟩

/-! ## Writing quad by quad -/

/-- Quads are written one after the other, each of them with success. -/
inductive Writes (op : Store σ → Quad → Outcome σ Unit) : Store σ → List Quad → Store σ → Prop
  | nil (st : Store σ) : Writes op st [] st
  | cons {st st' st'' : Store σ} {q : Quad} {qs : List Quad} (first : op st q = (.ok (), st'))
      (later : Writes op st' qs st'') : Writes op st (q :: qs) st''

omit [Engine σ κ] [LawfulEngine σ κ] in
/-- Either all quads are written, or all before the first one whose own write fails. -/
theorem eachQuad_writes (op : Store σ → Quad → Outcome σ Unit) (st : Store σ) (count : Nat)
    (qs : List Quad) :
    (eachQuad op st count qs).Meets (fun n st' => n = count + qs.length ∧ Writes op st qs st')
      (fun e st' => ∃ before q after st₁, qs = before ++ q :: after ∧ Writes op st before st₁ ∧
        op st₁ q = (.error e, st')) := by
  induction qs generalizing st count with
  | nil => exact ⟨rfl, .nil st⟩
  | cons q qs ih =>
      rw [eachQuad]
      split
      · next e st' heq => exact ⟨[], q, qs, st, rfl, .nil st, heq⟩
      · next st' heq =>
        refine (ih st' (count + 1)).imp ?_ ?_
        · rintro n st'' ⟨rfl, hwrites⟩
          refine ⟨?_, .cons heq hwrites⟩
          rw [List.length_cons, Nat.add_assoc, Nat.add_comm 1]
        · rintro e st'' ⟨before, r, after, st₁, rfl, hwrites, hfails⟩
          exact ⟨q :: before, r, after, st₁, rfl, .cons heq hwrites, hfails⟩

section Each

variable {op : Store σ → Quad → Outcome σ Unit} {step : Model → Quad → Model}

omit [LawfulEngine σ κ] in
/-- If every single step moves the model by itself, steps in a row move it one after the other. -/
theorem Writes.mirrors
    (hop : ∀ st : Store σ, ∀ m : Model, st.Mirrors m → ∀ q, (op st q).Meets
      (fun _ st' => Kept st st' ∧ st'.Mirrors (step m q))
      (fun _ st' => Kept st st' ∧ st'.Mirrors m))
    {qs : List Quad} (hw : Writes op st qs st') (h : st.Mirrors m) :
    Kept st st' ∧ st'.Mirrors (qs.foldl step m) := by
  induction hw generalizing m with
  | nil st => exact ⟨Kept.refl st, h⟩
  | @cons st _ _ q _ first _ ih =>
      have hfirst := hop st m h q
      rw [first] at hfirst
      obtain ⟨hkept, hm⟩ := ih hfirst.2
      exact ⟨hfirst.1.trans hkept, hm⟩

omit [LawfulEngine σ κ] in
/-- A failure leaves the steps before it. -/
theorem Mirrors.eachQuad_meets (step : Model → Quad → Model)
    (hop : ∀ st : Store σ, ∀ m : Model, st.Mirrors m → ∀ q, (op st q).Meets
      (fun _ st' => Kept st st' ∧ st'.Mirrors (step m q))
      (fun _ st' => Kept st st' ∧ st'.Mirrors m))
    (h : st.Mirrors m) (qs : List Quad) :
    (eachQuad op st 0 qs).Meets
      (fun n st' => n = qs.length ∧ Kept st st' ∧ st'.Mirrors (qs.foldl step m))
      (fun _ st' => Kept st st' ∧
        ∃ n < qs.length, st'.Mirrors ((qs.take n).foldl step m)) := by
  refine (eachQuad_writes op st 0 qs).imp ?_ ?_
  · rintro n st' ⟨rfl, hwrites⟩
    exact ⟨Nat.zero_add _, hwrites.mirrors hop h⟩
  · rintro e st' ⟨before, q, after, st₁, rfl, hwrites, hfails⟩
    obtain ⟨hkept, hm⟩ := hwrites.mirrors hop h
    have hlast := hop st₁ _ hm q
    rw [hfails] at hlast
    refine ⟨hkept.trans hlast.1, before.length, by simp, ?_⟩
    rw [List.take_left]
    exact hlast.2

end Each

theorem Mirrors.putEach_meets (h : st.Mirrors m) (qs : List Quad) :
    (st.putEach qs).Meets
      (fun n st' => n = qs.length ∧ Kept st st' ∧ st'.Mirrors (m.put qs))
      (fun _ st' => Kept st st' ∧ ∃ n < qs.length, st'.Mirrors (m.put (qs.take n))) := by
  have hall := h.eachQuad_meets (fun m q => m.put [q])
    (fun st m h q => h.patch_meets [] [q]) qs
  simp only [← Model.put_eq_foldl] at hall
  exact hall

theorem Mirrors.eraseEach_meets (h : st.Mirrors m) (qs : List Quad) :
    (st.eraseEach qs).Meets
      (fun n st' => n = qs.length ∧ Kept st st' ∧ st'.Mirrors (m.erase qs))
      (fun _ st' => Kept st st' ∧ ∃ n < qs.length, st'.Mirrors (m.erase (qs.take n))) := by
  have hall := h.eachQuad_meets (fun m q => m.erase [q])
    (fun st m h q => h.patch_meets [q] []) qs
  simp only [← Model.erase_eq_foldl] at hall
  exact hall

/-! ## Registering an index -/

theorem plannable_nil : Branch.Plannable ⟨[]⟩ := ⟨by simp, nofun⟩

omit [LawfulEngine σ κ] in
/-- The first index gives back all quads. -/
theorem Shows.items_everything (h : st.Shows m) :
    [(Strategy.ofBranch ⟨[]⟩ st.registry.first).scan].flatMap
        (·.items (Engine.table st.engine)) =
      (m.block ⟨[]⟩ st.registry.first).map .ok := by
  rw [List.flatMap_singleton]
  exact h.items_scan plannable_nil (List.head_mem _)

theorem indexes_of_register {r r' : Registry} {i : Index} (h : r.register i = .ok r') :
    r'.indexes = r.indexes ++ [i] := by
  rw [Registry.register] at h
  split at h
  · contradiction
  · rw [← Except.ok.inj h]

/-- A store after an index was registered: the quads that it showed have been put under the
index. -/
structure Filled (st st' : Store σ) (m : Model) (i : Index) : Prop where
  registry : st.registry.register i = .ok st'.registry
  defaultContext : st'.defaultContext = st.defaultContext
  table : Engine.table st'.engine =
    (Engine.table st.engine).apply (insertions [i] (m.block ⟨[]⟩ st.registry.first))

/-- The registry of a store after an index was registered, and the entries that came with it. -/
structure Extended (st st' : Store σ) (m : Model) (i : Index) : Prop where
  indexes : st'.registry.indexes = st.registry.indexes ++ [i]
  mirrors : st'.Mirrors m
  entries : ∀ e, e ∈ (Engine.table st'.engine).entries ↔
    e ∈ (Engine.table st.engine).entries ∨ ∃ q ∈ m.quads, e = i.entry q

omit [LawfulEngine σ κ] in
theorem Mirrors.extended (h : st.Mirrors m) {i : Index} (hfilled : Filled st st' m i) :
    Extended st st' m i := by
  have hindexes := indexes_of_register hfilled.registry
  have hd : ((st.registry.indexes ++ [i]).map Index.name).Nodup :=
    hindexes ▸ st'.registry.distinct
  have hblock : ∀ q, q ∈ m.block ⟨[]⟩ st.registry.first ↔ q ∈ m.quads := by
    simp [Model.mem_block_iff, Branch.admits]
  have hholds := h.holds.extend hd h.storable hblock
  rw [← hfilled.table] at hholds
  refine ⟨hindexes, ?_, ?_⟩
  · refine ⟨h.defaultContext.trans hfilled.defaultContext.symm, h.ascending, h.storable, h.filled,
      ?_⟩
    rw [hindexes]
    exact hholds
  · intro e
    rw [hholds e, h.holds e]
    constructor
    · rintro ⟨q, hq, j, hj, rfl⟩
      rcases List.mem_append.1 hj with hj | hj
      · exact .inl ⟨q, hq, j, hj, rfl⟩
      · exact .inr ⟨q, hq, by rw [List.mem_singleton.1 hj]⟩
    · rintro (⟨q, hq, j, hj, rfl⟩ | ⟨q, hq, rfl⟩)
      · exact ⟨q, hq, j, List.mem_append_left [i] hj, rfl⟩
      · exact ⟨q, hq, i, List.mem_append_right _ List.mem_cons_self, rfl⟩

/-- An index is registered once it has been filled. Otherwise nothing happens. -/
theorem Shows.register_meets (h : st.Shows m) (i : Index) :
    (st.register i).Meets (fun _ st' => Filled st st' m i)
      (fun _ st' => Kept st st' ∧ Engine.table st'.engine = Engine.table st.engine) := by
  have hcount : st.Countable {} := .inl nofun
  have hcollect := collect_page_meets hcount (by simp [Strategy.scan]) h.items_everything
  simp only [Paging.slice_default] at hcollect
  rw [register]
  split
  · exact ⟨Kept.refl st, rfl⟩
  · next registry hr =>
    rw [everything]
    split
    · next e st' heq =>
      rw [heq] at hcollect
      exact ⟨hcollect.2.toKept, hcollect.2.engine.table⟩
    · next qs st' heq =>
      rw [heq] at hcollect
      obtain ⟨rfl, hread⟩ := hcollect
      have hsubmit := st'.submit_meets (insertions [i] (m.block ⟨[]⟩ st.registry.first))
      split
      · next e st'' hs =>
        rw [hs] at hsubmit
        exact ⟨hread.toKept.trans hsubmit.1, hsubmit.2.trans hread.engine.table⟩
      · next st'' hs =>
        rw [hs] at hsubmit
        obtain ⟨hkept, ht⟩ := hsubmit
        rw [hread.engine.table] at ht
        exact ⟨hr, hkept.defaultContext.trans hread.defaultContext, ht⟩

theorem Mirrors.register_meets (h : st.Mirrors m) (i : Index) :
    (st.register i).Meets (fun _ st' => Extended st st' m i)
      (fun _ st' => Kept st st' ∧ st'.Mirrors m) :=
  (h.shows.register_meets i).imp (fun _ _ hs => h.extended hs)
    fun _ _ hs => ⟨hs.1, h.of_kept hs.1 hs.2⟩

end Store
end QuadIndex
