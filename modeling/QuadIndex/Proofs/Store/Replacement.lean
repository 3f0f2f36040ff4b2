import QuadIndex.Proofs.Engine.Counters
import QuadIndex.Proofs.Store.History

/-! # Replacing what matches

Over an engine that is quiet, a replacement takes out the quads that match a pattern and nothing
else, puts the new ones, and hands over a single batch for both. What it reads before that may give
one quad several times, and a new quad may be one of those that go. -/

namespace QuadIndex

namespace Store

open LawfulEngine (Quiet)

variable {σ κ : Type} [Engine σ κ] {st : Store σ} {m : Model} {p : Pattern} {new : List Quad}

/-! ## The new content -/

theorem Mirrors.mem_replaced_iff (h : st.Mirrors m) (p : Pattern) (new : List Quad) {q : Quad} :
    q ∈ ((m.erase (m.expected p)).put new).quads ↔
      q ∈ m.quads ∧ q.matchesPattern p = false ∨
        q ∈ new.map (fillContext st.defaultContext) := by
  have hold : (m.expected p).map m.stored = m.expected p := by
    rw [h.stored_eq]
    exact h.map_fillContext m.expected_subset
  rw [Model.mem_put_iff, Model.stored_erase, Model.mem_erase_iff, hold, Model.mem_expected_iff,
    h.stored_eq, or_comm]
  refine or_congr_left (and_congr_right fun hq => ?_)
  simp [hq]

/-! ## Batches on the way -/

theorem engine_matching (st : Store σ) (p : Pattern) :
    (st.matching p).2.engine = (st.get p {}).2.engine := by
  rw [matching]
  split
  · next heq => rw [heq]
  · next heq => rw [heq]

variable [LawfulEngine σ κ]

/-- Whatever comes of it, a replacement hands over one batch at most. -/
theorem run_patchMatching (st : Store σ) (p : Pattern) (new : List Quad) :
    ∃ bs, EngineRun st.engine bs (st.patchMatching p new).2.engine ∧ bs.length ≤ 1 := by
  have hread : EngineRun st.engine [] (st.matching p).2.engine := by
    rw [engine_matching]
    exact custody_get (EngineRun.custody st.engine []) .start p {}
  rw [patchMatching]
  split
  · next e st' heq =>
    rw [heq] at hread
    exact ⟨[], hread, Nat.zero_le 1⟩
  · next old st' heq =>
    rw [heq] at hread
    have hpatch : ∃ bs, EngineRun st.engine bs (st'.patch old new).2.engine ∧ bs.length ≤ 1 := by
      rcases st'.engine_patch old new with hsame | ⟨b, hwritten⟩
      · exact ⟨[], hsame ▸ hread, Nat.zero_le 1⟩
      · exact ⟨[b], hwritten ▸ hread.write b, Nat.le_refl 1⟩
    split
    · next hp =>
      rw [hp] at hpatch
      exact hpatch
    · next hp =>
      rw [hp] at hpatch
      exact hpatch

/-! ## Without faults -/

theorem Mirrors.patchMatching_eq_ok (h : st.Mirrors m) (hquiet : Quiet st.engine)
    (hp : p.fault? = none) (hnew : st.Storable new) :
    ∃ st', st.patchMatching p new = (.ok (m.expected p).length, st') ∧ Kept st st' ∧
      Quiet st'.engine ∧ st'.Mirrors ((m.erase (m.expected p)).put new) := by
  obtain ⟨n, hok⟩ := (h.patchMatching_eq_ok_iff hquiet).2 ⟨hp, hnew⟩
  obtain ⟨rfl, hkept, hm⟩ := (h.patchMatching_meets p new).of_ok hok
  obtain ⟨st₁, hread, heq⟩ := h.patchMatching_eq hquiet hp new
  have hstill := quiet_patch (hread.engine.quiet hquiet) (m.expected p) new
  refine ⟨(st.patchMatching p new).2, Prod.ext hok rfl, hkept, ?_, hm⟩
  rw [heq]
  exact hstill

/-! ## What a replacement leaves -/

/-- What comes of replacing the quads of a model that match a pattern. -/
structure Replaced (st : Store σ) (m : Model) (p : Pattern) (new : List Quad)
    (o : Outcome σ Nat) : Prop where
  /-- Every quad that matches counts once. -/
  count : o.1 = .ok (m.quads.countP (·.matchesPattern p))
  kept : Kept st o.2
  /-- The new content, under every index. -/
  content : ∃ m', o.2.Mirrors m' ∧ ∀ q, q ∈ m'.quads ↔
    q ∈ m.quads ∧ q.matchesPattern p = false ∨ q ∈ new.map (fillContext st.defaultContext)
  oneBatch : ∃ bs, EngineRun st.engine bs o.2.engine ∧ bs.length ≤ 1
  /-- Of what matches now, the new quads alone are left. -/
  answer : ∃ qs, (o.2.get p {}).1 = .ok qs ∧
    ∀ q, q ∈ qs ↔ q ∈ new.map (fillContext st.defaultContext) ∧ q.matchesPattern p = true
  present : ∀ q ∈ m.quads, q.matchesPattern p = false →
    ∀ i ∈ st.registry.indexes, o.2.HoldsUnder i q

theorem Mirrors.replaced (h : st.Mirrors m) (hquiet : Quiet st.engine) (hp : p.fault? = none)
    (hnew : st.Storable new) :
    Replaced st m p new (st.patchMatching p new) := by
  have hrun := st.run_patchMatching p new
  obtain ⟨st', hdone, hkept, hquiet', hm⟩ := h.patchMatching_eq_ok hquiet hp hnew
  rw [hdone] at hrun ⊢
  refine ⟨?_, hkept, ⟨_, hm, fun q => h.mem_replaced_iff p new⟩, hrun, ?_, ?_⟩
  · rw [List.countP_eq_length_filter]
    rfl
  · obtain ⟨plan, st'', hbranches, hget, -⟩ := hm.shows.get_eq_ok hquiet' hp
    refine ⟨_, congrArg Prod.fst hget, fun q => ?_⟩
    rw [Model.mem_answer_iff_mem_expected hbranches, Model.mem_expected_iff,
      h.mem_replaced_iff p new]
    constructor
    · rintro ⟨⟨-, hnot⟩ | hq, hmatch⟩
      · exact absurd hmatch (by simp [hnot])
      · exact ⟨hq, hmatch⟩
    · rintro ⟨hq, hmatch⟩
      exact ⟨.inr hq, hmatch⟩
  · intro q hq hnot i hi
    rw [← hkept.registry] at hi
    exact (hm.holdsUnder_iff hi).2 ((h.mem_replaced_iff p new).2 (.inl ⟨hq, hnot⟩))

/-- From any state along a history and without faults, the quads that match a pattern are replaced
by storable ones, or by none. -/
theorem patchMatching_replaces (h : st.Reachable) (hquiet : Quiet st.engine)
    (hp : p.fault? = none) :
    ∃ m : Model, st.Mirrors m ∧
      (∀ new : List Quad, (∀ q ∈ new, (fillContext st.defaultContext q).fault? = none) →
        Replaced st m p new (st.patchMatching p new)) ∧
      Replaced st m p [] (st.eraseMatching p) := by
  obtain ⟨m, hm⟩ := h.exists_mirrors
  refine ⟨m, hm, fun new hnew => ?_, ?_⟩
  · exact hm.replaced hquiet hp hnew
  · exact hm.replaced hquiet hp nofun

/-- A pattern whose two branches have a quad in common, and a new quad that is one of those to go:
the one match is counted once, and is there again. -/
theorem patchMatching_replaces_overlapping :
    let p : Pattern :=
      ⟨[(.subject, .anyOf [.exact "s", .within { gte := some "a", lt := some "t" }])], by decide⟩
    let st : Store FaultyEngine :=
      (perform ⟨.make (fun _ => 0) .none, .standard, "g", []⟩
        (.put [⟨"s", "p", "o", ""⟩, ⟨"t", "p", "o", ""⟩])).2
    (st.patchMatching p [⟨"s", "p", "o", ""⟩, ⟨"u", "p", "o", "h"⟩]).1 = .ok 1 ∧
      (∃ qs, ((st.patchMatching p [⟨"s", "p", "o", ""⟩, ⟨"u", "p", "o", "h"⟩]).2.get p {}).1 =
          .ok qs ∧ ⟨"s", "p", "o", "g"⟩ ∈ qs ∧ ⟨"u", "p", "o", "h"⟩ ∉ qs) ∧
      (st.eraseMatching p).1 = .ok 1 ∧
      (st.eraseMatching p).2.engine.counters.batchesWritten ≤
        st.engine.counters.batchesWritten + 1 := by
  intro p st
  have hmade : make (FaultyEngine.make (fun _ => 0) .none) ⟨.standard, "g"⟩ =
      .ok ⟨.make (fun _ => 0) .none, .standard, "g", []⟩ := rfl
  have hput : (perform ⟨FaultyEngine.make (fun _ => 0) .none, .standard, "g", []⟩
      (.put [⟨"s", "p", "o", ""⟩, ⟨"t", "p", "o", ""⟩])).1 = .ok () := rfl
  have hm := (((mirrors_of_make rfl hmade).perform_meets _).of_ok hput).1
  have hquiet : FaultyEngine.Quiet st.engine := ⟨rfl, rfl, rfl⟩
  have hreachable : st.Reachable := .perform _ (.make rfl hmade)
  obtain ⟨m, hm', hpatch, herase⟩ := patchMatching_replaces hreachable hquiet (p := p) (by decide)
  obtain rfl := hm.unique hm'
  have hnew := hpatch [⟨"s", "p", "o", ""⟩, ⟨"u", "p", "o", "h"⟩] (by decide)
  obtain ⟨qs, hget, hqs⟩ := hnew.answer
  obtain ⟨bs, hrun, hone⟩ := herase.oneBatch
  refine ⟨hnew.count, ⟨qs, hget, (hqs _).2 (by decide), ?_⟩, herase.count, ?_⟩
  · intro hu
    exact absurd ((hqs _).1 hu) (by decide)
  · rw [FaultyEngine.batchesWritten_run hrun]
    exact Nat.add_le_add_left hone _

end Store
end QuadIndex
