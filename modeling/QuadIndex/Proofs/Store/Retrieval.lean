import QuadIndex.Proofs.Store.History

/-! # What queries give back from any state along a history -/

namespace QuadIndex.Store

variable {σ κ : Type} [Engine σ κ] [LawfulEngine σ κ] {st : Store σ} {p : Pattern}

/-- Unless a fault is injected, a query gives every quad of the content as often as there are ways
to satisfy the pattern, and no other quad, whatever indexes there are. -/
theorem count_get (h : st.Reachable) (hp : p.fault? = none) :
    ∃ m : Model, st.Mirrors m ∧
      ((∃ qs, (st.get p {}).1 = .ok qs ∧
          (∀ q, qs.count q = if q ∈ m.quads then p.multiplicity q else 0) ∧
          ∀ q, q ∈ qs ↔ q ∈ m.expected p) ∨
        ∃ e, (st.get p {}).1 = .error e ∧ Faulted st e) := by
  obtain ⟨m, hm⟩ := h.exists_mirrors
  obtain ⟨plan, hplan, hbranches, -⟩ := plan_eq_ok hp st
  refine ⟨m, hm, ?_⟩
  rcases (hm.get_meets hp hplan).ok_or_error with ⟨_, hok, rfl, -⟩ | ⟨e, he, hfault, -⟩
  · refine .inl ⟨_, hok, ?_, fun q => Model.mem_answer_iff_mem_expected hbranches⟩
    intro q
    rw [Model.count_answer hm.ascending, hbranches, Pattern.countP_branches]
  · exact .inr ⟨e, he, hfault⟩

/-- A quad that satisfies both constraints of a list is given twice. -/
theorem count_get_twice :
    ∃ qs, (get (perform ⟨Table.empty, .standard, "g", []⟩ (.put [⟨"s", "p", "o", ""⟩])).2
        ⟨[(.subject, .anyOf [.exact "s", .within { gte := some "a" }])], by decide⟩ {}).1 =
          .ok qs ∧ qs.count ⟨"s", "p", "o", "g"⟩ = 2 := by
  have hmade : make Table.empty ⟨.standard, "g"⟩ = .ok ⟨.empty, .standard, "g", []⟩ := rfl
  have hput : (perform ⟨Table.empty, .standard, "g", []⟩ (.put [⟨"s", "p", "o", ""⟩])).1 =
      .ok () := rfl
  have hm := (((mirrors_of_make rfl hmade).perform_meets _).of_ok hput).1
  have hcount := count_get (.perform (.put [⟨"s", "p", "o", ""⟩]) (.make rfl hmade))
    (p := ⟨[(.subject, .anyOf [.exact "s", .within { gte := some "a" }])], by decide⟩)
    (by decide)
  obtain ⟨m, hm', ⟨qs, hok, hqs, -⟩ | ⟨e, -, hfault⟩⟩ := hcount
  · obtain rfl := hm.unique hm'
    refine ⟨qs, hok, ?_⟩
    rw [hqs]
    decide
  · exact absurd trivial hfault.1

/-- A query gives one block of quads for each branch of the pattern, in the order of the branches.
Each block holds the quads of the content that satisfy its branch, in the order of the places of
the index that was chosen for it. -/
theorem get_eq_blocks (h : st.Reachable) (hp : p.fault? = none) :
    ∃ (m : Model) (plan : Plan) (block : Plan.Choice → List Quad),
      st.Mirrors m ∧ st.plan p = .ok plan ∧
      p.divide = .ok (plan.choices.map Plan.Choice.branch) ∧
      (∀ c ∈ plan.choices, c.strategy.index ∈ st.registry.indexes ∧
        (∀ q, q ∈ block c ↔ q ∈ m.quads ∧ c.branch.admits q = true) ∧
        ((block c).Pairwise fun q r =>
          c.strategy.index.tuple q < c.strategy.index.tuple r) ∧ (block c).Nodup) ∧
      ((st.get p {}).1 = .ok (plan.choices.flatMap block) ∨
        ∃ e, (st.get p {}).1 = .error e ∧ Faulted st e) := by
  obtain ⟨m, hm⟩ := h.exists_mirrors
  obtain ⟨plan, hplan, hbranches, hchosen⟩ := plan_eq_ok hp st
  refine ⟨m, plan, fun c => m.block c.branch c.strategy.index, hm, hplan, ?_, ?_, ?_⟩
  · rw [Pattern.divide_eq_ok_iff]
    exact ⟨hp, hbranches⟩
  · intro c hc
    obtain ⟨i, hi, hs⟩ := hchosen c hc
    have hindex : c.strategy.index ∈ st.registry.indexes := by
      rw [hs]
      exact hi
    exact ⟨hindex, fun q => Model.mem_block_iff, Model.pairwise_block hm.ascending _ _,
      Model.nodup_block hm.ascending _ _⟩
  · rcases (hm.get_meets hp hplan).ok_or_error with ⟨_, hok, rfl, -⟩ | ⟨e, he, hfault, -⟩
    · exact .inl hok
    · exact .inr ⟨e, he, hfault⟩

/-- A list of two values gives two blocks, in the order of the list. -/
theorem get_eq_blocks_two :
    ∃ (plan : Plan) (block : Plan.Choice → List Quad),
      plan.choices.map Plan.Choice.branch =
        [⟨[(.subject, .exact "t")]⟩, ⟨[(.subject, .exact "s")]⟩] ∧
      (get (perform ⟨Table.empty, .standard, "g", []⟩
          (.put [⟨"s", "p", "o", ""⟩, ⟨"t", "p", "o", ""⟩])).2
        ⟨[(.subject, .anyOf [.exact "t", .exact "s"])], by decide⟩ {}).1 =
          .ok (plan.choices.flatMap block) := by
  have hmade : make Table.empty ⟨.standard, "g"⟩ = .ok ⟨.empty, .standard, "g", []⟩ := rfl
  have hblocks := get_eq_blocks
    (.perform (.put [⟨"s", "p", "o", ""⟩, ⟨"t", "p", "o", ""⟩]) (.make rfl hmade))
    (p := ⟨[(.subject, .anyOf [.exact "t", .exact "s"])], by decide⟩) (by decide)
  obtain ⟨m, plan, block, -, -, hdivide, -, hok | ⟨e, -, hfault⟩⟩ := hblocks
  · exact ⟨plan, block, (Except.ok.inj hdivide).symm, hok⟩
  · exact absurd trivial hfault.1

/-- A page is a slice of the whole answer, whatever its offset and limit are: rows that a filter
takes out do not count for either, and a quad counts as often as it is answered. Counts of rows
have 64 bits, so the entries of the table must not be too many to count. -/
theorem get_eq_slice (h : st.Reachable) (hp : p.fault? = none)
    (hsize : (Engine.table st.engine).size ≤ Paging.maxCount) :
    ∃ qs, ((st.get p {}).1 = .ok qs ∨ ∃ e, (st.get p {}).1 = .error e ∧ Faulted st e) ∧
      ∀ paging : Paging, (st.get p paging).1 = .ok (paging.slice qs) ∨
        ∃ e, (st.get p paging).1 = .error e ∧ Faulted st e := by
  obtain ⟨m, hm⟩ := h.exists_mirrors
  obtain ⟨plan, hplan, -⟩ := plan_eq_ok hp st
  have hpage (paging : Paging) : (st.get p paging).1 = .ok (paging.slice (m.answer plan)) ∨
      ∃ e, (st.get p paging).1 = .error e ∧ Faulted st e := by
    rcases (hm.get_page_meets hp hplan (.inr hsize)).ok_or_error with
      ⟨_, hok, rfl, -⟩ | ⟨e, he, hfault, -⟩
    · exact .inl hok
    · exact .inr ⟨e, he, hfault⟩
  exact ⟨m.answer plan, hpage {}, hpage⟩

/-- The second half of an answer, with a limit that its offset takes beyond the largest count. -/
theorem get_eq_slice_saturated :
    ∃ qs, (get (perform ⟨Table.empty, .standard, "g", []⟩
        (.put [⟨"s", "p", "o", ""⟩, ⟨"t", "p", "o", ""⟩])).2
          ⟨[(.object, .anyOf [.exact "o", .exact "o"])], by decide⟩ {}).1 = .ok qs ∧
      (get (perform ⟨Table.empty, .standard, "g", []⟩
        (.put [⟨"s", "p", "o", ""⟩, ⟨"t", "p", "o", ""⟩])).2
          ⟨[(.object, .anyOf [.exact "o", .exact "o"])], by decide⟩
          ⟨2, some Paging.maxCount⟩).1 = .ok ((qs.drop 2).take Paging.maxCount) := by
  have hmade : make Table.empty ⟨.standard, "g"⟩ = .ok ⟨.empty, .standard, "g", []⟩ := rfl
  have hpages := get_eq_slice
    (.perform (.put [⟨"s", "p", "o", ""⟩, ⟨"t", "p", "o", ""⟩]) (.make rfl hmade))
    (p := ⟨[(.object, .anyOf [.exact "o", .exact "o"])], by decide⟩) (by decide) (by decide)
  obtain ⟨qs, hall | ⟨e, -, hfault⟩, hpage⟩ := hpages
  · rcases hpage ⟨2, some Paging.maxCount⟩ with hok | ⟨e, -, hfault⟩
    · exact ⟨qs, hall, hok⟩
    · exact absurd trivial hfault.1
  · exact absurd trivial hfault.1

end QuadIndex.Store
