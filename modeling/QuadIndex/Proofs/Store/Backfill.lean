import QuadIndex.Proofs.Store.Quiet

/-! # Registering an index amid other keys

An engine may hold keys that its store knows nothing of, such as those of an index that an earlier
store had. Filling an index adds the entries of the quads to its key space and removes nothing from
it. So a key that was left there stays, and comes up again as soon as queries read the index. -/

namespace QuadIndex

/-- The entry lies in the key space of the index, under a key that none of the quads has there. -/
structure Table.Stale (t : Table) (i : Index) (qs : List Quad) (e : Entry) : Prop where
  mem : e ∈ t.entries
  owns : i.Owns e.1
  foreign : ∀ q ∈ qs, e.1 ≠ i.key q

theorem Table.shows_single {t : Table} {i : Index} {qs : List Quad}
    (h : t.entries.filter (fun e => i.keyStart.isPrefixOf e.1) = qs.map i.entry) :
    t.Shows [i] qs := by
  intro j hj e howns
  obtain rfl := List.mem_singleton.1 hj
  have hmem : e ∈ t.entries ↔ e ∈ t.entries.filter (fun e => j.keyStart.isPrefixOf e.1) := by
    rw [List.mem_filter, List.isPrefixOf_iff_prefix, and_iff_left]
    exact howns
  rw [hmem, h, List.mem_map]
  simp only [eq_comm]

namespace Store

open LawfulEngine (Quiet)

variable {σ κ : Type} [Engine σ κ] {st st' : Store σ} {m : Model} {i : Index}

theorem Filled.mem_entries_iff (h : Filled st st' m i) (hm : ∀ q ∈ m.quads, q.fault? = none)
    {e : Entry} : e ∈ (Engine.table st'.engine).entries ↔
      (∃ q ∈ m.quads, e = i.entry q) ∨
        e ∈ (Engine.table st.engine).entries ∧ ∀ q ∈ m.quads, e.1 ≠ i.key q := by
  have hblock : ∀ q, q ∈ m.block ⟨[]⟩ st.registry.first ↔ q ∈ m.quads := by
    simp [Model.mem_block_iff, Branch.admits]
  rw [h.table, Table.mem_apply_insertions _ (by simp) fun q hq => hm q ((hblock q).1 hq)]
  simp only [hblock, List.mem_singleton, exists_eq_left, forall_eq]

theorem Filled.owned_iff (h : Filled st st' m i) (hm : ∀ q ∈ m.quads, q.fault? = none)
    {e : Entry} : e ∈ (Engine.table st'.engine).entries ∧ i.Owns e.1 ↔
      (∃ q ∈ m.quads, e = i.entry q) ∨ (Engine.table st.engine).Stale i m.quads e := by
  rw [h.mem_entries_iff hm]
  constructor
  · rintro ⟨hentry | ⟨he, hforeign⟩, howns⟩
    · exact .inl hentry
    · exact .inr ⟨he, howns, hforeign⟩
  · rintro (⟨q, hq, rfl⟩ | hstale)
    · exact ⟨.inl ⟨q, hq, rfl⟩, i.owns_key q⟩
    · exact ⟨.inr ⟨hstale.mem, hstale.foreign⟩, hstale.owns⟩

theorem Filled.not_owned_iff (h : Filled st st' m i) (hm : ∀ q ∈ m.quads, q.fault? = none)
    {e : Entry} (howns : ¬ i.Owns e.1) :
    e ∈ (Engine.table st'.engine).entries ↔ e ∈ (Engine.table st.engine).entries := by
  have hforeign (q : Quad) : e.1 ≠ i.key q := fun he => howns (he ▸ i.owns_key q)
  rw [h.mem_entries_iff hm]
  constructor
  · rintro (⟨q, -, rfl⟩ | ⟨he, -⟩)
    · exact absurd rfl (hforeign q)
    · exact he
  · exact fun he => .inr ⟨he, fun q _ => hforeign q⟩

/-- Where nothing is stale, the quads are shown under the new index too. -/
theorem Filled.shows (h : Filled st st' m i) (hm : st.Shows m)
    (hclean : ∀ e, ¬ (Engine.table st.engine).Stale i m.quads e) : st'.Shows m := by
  refine ⟨hm.ascending, hm.storable, ?_⟩
  have hindexes := indexes_of_register h.registry
  have hd : ((st.registry.indexes ++ [i]).map Index.name).Nodup :=
    hindexes ▸ st'.registry.distinct
  have hi : i ∈ st.registry.indexes ++ [i] := List.mem_append_right _ List.mem_cons_self
  rw [hindexes]
  intro j hj e howns
  by_cases hji : j = i
  · subst hji
    have hiff := h.owned_iff hm.storable (e := e)
    rwa [and_iff_left howns, or_iff_left (hclean e)] at hiff
  · have hjs : j ∈ st.registry.indexes := (List.mem_append.1 hj).resolve_right fun hmem =>
      hji (List.mem_singleton.1 hmem)
    have hout : ¬ i.Owns e.1 := fun hown =>
      hji (Index.eq_of_name_eq hd hj hi (Index.name_eq_of_owns howns hown))
    rw [h.not_owned_iff hm.storable hout, hm.table j hjs e howns]

theorem Filled.item_of_stale (h : Filled st st' m i) (hm : ∀ q ∈ m.quads, q.fault? = none)
    {q : Quad} (hq : q.fault? = none)
    (hstale : (Engine.table st.engine).Stale i m.quads (i.entry q)) {b : Branch}
    (hb : b.Plannable) (hadmits : b.admits q = true) :
    .ok q ∈ (Strategy.ofBranch b i).scan.items (Engine.table st'.engine) := by
  obtain ⟨hcontains, hpasses⟩ := (Strategy.selects_iff (i := i) hb hq).2 hadmits
  have hstored := ((h.owned_iff hm).2 (.inr hstale)).1
  rw [KeyRange.contains, Bool.and_eq_true] at hcontains
  refine List.mem_filterMap.2 ⟨i.entry q, Table.mem_between_iff.2 ⟨hstored, hcontains⟩, ?_⟩
  rw [Scan.readRow?_entry hq, if_pos hpasses]

variable [LawfulEngine σ κ]

/-- A store shows some quads under all of its indexes, and registers one more. Then the key space of
the new index has the entries of the quads, and beside them whatever was stale there; outside of it
nothing has changed. So its keys are those of the quads exactly if nothing was stale, and in that
case queries give the quads that match, and no others. A stale entry of some quad however comes up
in every scan of the index whose branch it satisfies. -/
theorem register_among_stale_keys {qs : List Quad} (hqs : ∀ q ∈ qs, q.fault? = none)
    (hshows : (Engine.table st.engine).Shows st.registry.indexes qs)
    (hregister : st.register i = (.ok (), st')) :
    let before := Engine.table st.engine
    let after := Engine.table st'.engine
    (∀ e, e ∈ after.entries ∧ i.Owns e.1 ↔
      (∃ q ∈ qs, e = i.entry q) ∨ before.Stale i qs e) ∧
      (∀ e, ¬ i.Owns e.1 → (e ∈ after.entries ↔ e ∈ before.entries)) ∧
      ((∀ k, (k ∈ after.entries.map Prod.fst ∧ i.Owns k) ↔ ∃ q ∈ qs, k = i.key q) ↔
        ∀ e, ¬ before.Stale i qs e) ∧
      ((∀ e, ¬ before.Stale i qs e) → Quiet st'.engine → ∀ p : Pattern, p.fault? = none →
        ∃ rs, (st'.get p {}).1 = .ok rs ∧ ∀ q, q ∈ rs ↔ q ∈ qs ∧ q.matchesPattern p = true) ∧
      ∀ q : Quad, q.fault? = none → before.Stale i qs (i.entry q) →
        ∀ b : Branch, b.Plannable → b.admits q = true →
          .ok q ∈ (Strategy.ofBranch b i).scan.items after := by
  intro before after
  let m : Model := ⟨Quad.ascending qs, st.defaultContext⟩
  have hmem (q : Quad) : q ∈ m.quads ↔ q ∈ qs := Quad.mem_ascending_iff
  have hm : st.Shows m := by
    refine ⟨Quad.ascending_ascending qs, fun q hq => hqs q ((hmem q).1 hq), ?_⟩
    simpa only [Table.Shows, hmem] using hshows
  have hstale (e : Entry) : before.Stale i m.quads e ↔ before.Stale i qs e := by
    constructor
    · exact fun h => ⟨h.mem, h.owns, fun q hq => h.foreign q ((hmem q).2 hq)⟩
    · exact fun h => ⟨h.mem, h.owns, fun q hq => h.foreign q ((hmem q).1 hq)⟩
  have hfilled : Filled st st' m i := by
    have hmeets := hm.register_meets i
    rwa [hregister] at hmeets
  have howned (e : Entry) : e ∈ after.entries ∧ i.Owns e.1 ↔
      (∃ q ∈ qs, e = i.entry q) ∨ before.Stale i qs e := by
    have howned := hfilled.owned_iff hm.storable (e := e)
    simp only [hmem] at howned
    exact howned.trans (or_congr_right (hstale e))
  refine ⟨howned, fun e => hfilled.not_owned_iff hm.storable, ?_, ?_, ?_⟩
  · constructor
    · intro hkeys e he
      obtain ⟨hafter, howns⟩ := (howned e).2 (.inr he)
      obtain ⟨q, hq, hkey⟩ := (hkeys e.1).1 ⟨List.mem_map.2 ⟨e, hafter, rfl⟩, howns⟩
      exact he.foreign q hq hkey
    · intro hclean k
      constructor
      · rintro ⟨hk, howns⟩
        obtain ⟨e, he, rfl⟩ := List.mem_map.1 hk
        obtain ⟨q, hq, rfl⟩ := ((howned e).1 ⟨he, howns⟩).resolve_right (hclean e)
        exact ⟨q, hq, rfl⟩
      · rintro ⟨q, hq, rfl⟩
        have hentry := (howned (i.entry q)).2 (.inl ⟨q, hq, rfl⟩)
        exact ⟨List.mem_map.2 ⟨i.entry q, hentry.1, rfl⟩, hentry.2⟩
  · intro hclean hquiet p hp
    have hm' := hfilled.shows hm fun e he => hclean e ((hstale e).1 he)
    obtain ⟨plan, _, hbranches, hget, -⟩ := hm'.get_eq_ok hquiet hp
    refine ⟨_, congrArg Prod.fst hget, fun q => ?_⟩
    rw [Model.mem_answer_iff_mem_expected hbranches, Model.mem_expected_iff, hmem]
  · intro q hq he b hb hadmits
    exact hfilled.item_of_stale hm.storable hq ((hstale _).2 he) hb hadmits

/-- The engine has a key of no index beside the one quad. -/
theorem register_among_stale_keys_none :
    let b : Quad := ⟨"s1", "p", "o1", "c"⟩
    let spog := Registry.standard.first
    let ospg : Index := ⟨"OSPG", [.object, .subject, .predicate, .context], by decide, by decide,
      rfl, by rintro ⟨⟩ <;> decide⟩
    let st : Store Table := ⟨(Table.empty.insert [1] [2]).insert (spog.key b) (Record.encode b),
      .single spog, "g", []⟩
    let after := (st.register ospg).2.engine
    st.engine.Shows [spog] [b] ∧ (st.register ospg).1 = .ok () ∧
      ∀ k, (k ∈ after.entries.map Prod.fst ∧ ospg.Owns k) ↔ ∃ q ∈ [b], k = ospg.key q := by
  intro b spog ospg st after
  have hvalid : ∀ q ∈ [b], q.fault? = none := by decide
  have hshows : st.engine.Shows [spog] [b] := Table.shows_single (by decide +kernel)
  have hok : (st.register ospg).1 = .ok () := by decide +kernel
  have hnone : st.engine.entries.filter (fun e => ospg.keyStart.isPrefixOf e.1) = [] := by
    decide +kernel
  have hclean : ∀ e, ¬ st.engine.Stale ospg [b] e := by
    intro e he
    have hmem : e ∈ st.engine.entries.filter (fun e => ospg.keyStart.isPrefixOf e.1) :=
      List.mem_filter.2 ⟨he.mem, List.isPrefixOf_iff_prefix.2 he.owns⟩
    exact List.not_mem_nil (hnone ▸ hmem)
  have hindexes : st.registry.indexes = [spog] := rfl
  -- What is left to say does not depend on what the engine holds.
  clear_value st ospg
  have hregister : st.register ospg = (.ok (), (st.register ospg).2) := Prod.ext hok rfl
  have hshown : (Engine.table st.engine).Shows st.registry.indexes [b] := hindexes ▸ hshows
  obtain ⟨-, -, hkeys, -⟩ := register_among_stale_keys hvalid hshown hregister
  exact ⟨hshows, hok, hkeys.2 hclean⟩

/-- A store with all indexes puts two quads, another one over the same engine erases one of them
without the index OSPG, and then registers that index. -/
theorem register_revives_erased :
    let a : Quad := ⟨"s0", "p", "o0", "c"⟩
    let b : Quad := ⟨"s1", "p", "o1", "c"⟩
    let spog := Registry.standard.first
    let ospg : Index := ⟨"OSPG", [.object, .subject, .predicate, .context], by decide, by decide,
      rfl, by rintro ⟨⟩ <;> decide⟩
    let earlier := (put ⟨Table.empty, .standard, "g", []⟩ [a, b]).2
    let st := (erase ⟨earlier.engine, .single spog, "g", []⟩ [a]).2
    let st' := (st.register ospg).2
    let p : Pattern := ⟨[(.object, .one (.exact "o0"))], by decide⟩
    (∀ q ∈ [b], q.fault? = none) ∧ st.engine.Shows [spog] [b] ∧
      (st.register ospg).1 = .ok () ∧ (st.get p {}).1 = .ok [] ∧ (st'.get p {}).1 = .ok [a] ∧
      ¬ ∀ k, (k ∈ st'.engine.entries.map Prod.fst ∧ ospg.Owns k) ↔ ∃ q ∈ [b], k = ospg.key q := by
  intro a b spog ospg earlier st st' p
  have hshows : st.engine.Shows [spog] [b] := Table.shows_single (by decide +kernel)
  refine ⟨by decide, hshows, by decide +kernel, by decide +kernel, by decide +kernel, ?_⟩
  intro hkeys
  have hkey : ospg.key a ∈ st'.engine.entries.map Prod.fst := by decide +kernel
  obtain ⟨q, hq, he⟩ := (hkeys (ospg.key a)).1 ⟨hkey, ospg.owns_key a⟩
  obtain rfl := List.mem_singleton.1 hq
  revert he
  decide +kernel

end Store
end QuadIndex
