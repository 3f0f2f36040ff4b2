import QuadIndex.Proofs.Scan.Agenda
import QuadIndex.Proofs.Store.Answer

/-! # Stages of a stream over a store

Each branch of a query goes along the keys of one index, in one direction. What is left of it at any
time is a stage: it selects the quads of the content that the branch has still to give. -/

namespace QuadIndex

/-! ## Stages -/

/-- A branch that a stream has not finished: its choice, and what is left of the scan. -/
structure Stage where
  choice : Plan.Choice
  scan : Scan

namespace Stage

def index (x : Stage) : Index := x.choice.strategy.index

def start (c : Plan.Choice) : Stage := ⟨c, c.strategy.scan⟩

def past (x : Stage) (q : Quad) : Stage := { x with scan := x.scan.past (x.index.key q) }

/-- A quad that the stage has still to give. -/
structure Selects (x : Stage) (q : Quad) : Prop where
  contains : x.scan.range.contains (x.index.key q) = true
  passes : Scan.passes x.scan.filter q = true

/-- The stage reads one of the given indexes, and a part of the scan for its branch. -/
structure Fits (x : Stage) (is : List Index) : Prop where
  plannable : x.choice.branch.Plannable
  chosen : ∃ i ∈ is, x.choice.strategy = .ofBranch x.choice.branch i
  filter : x.scan.filter = x.choice.strategy.scan.filter
  upper : x.scan.range.upper = x.choice.strategy.scan.range.upper
  lower : ∀ k, x.scan.range.lower.below k = true →
    x.choice.strategy.scan.range.lower.below k = true

variable {x : Stage} {is js : List Index} {p q : Quad}

theorem fits_start {c : Plan.Choice} (hb : c.branch.Plannable)
    (hc : ∃ i ∈ is, c.strategy = .ofBranch c.branch i) : (start c).Fits is :=
  ⟨hb, hc, rfl, rfl, fun _ => id⟩

theorem Fits.mono (h : x.Fits is) (hs : is ⊆ js) : x.Fits js := by
  obtain ⟨i, hi, heq⟩ := h.chosen
  exact ⟨h.plannable, ⟨i, hs hi, heq⟩, h.filter, h.upper, h.lower⟩

theorem Fits.on_index (h : x.Fits is) :
    x.choice.strategy = .ofBranch x.choice.branch x.index ∧ x.index ∈ is := by
  obtain ⟨i, hi, heq⟩ := h.chosen
  have hx : x.index = i := by
    rw [index, heq]
    rfl
  exact ⟨hx ▸ heq, hx ▸ hi⟩

theorem Fits.contains (h : x.Fits is) {k : Bytes} (hl : x.scan.range.lower.below k = true)
    (hu : x.scan.range.upper.above k = true) :
    (Strategy.ofBranch x.choice.branch x.index).scan.range.contains k = true := by
  rw [← h.on_index.1, KeyRange.contains, h.lower k hl, ← h.upper, hu, Bool.and_self]

theorem Fits.admits (h : x.Fits is) (hq : q.fault? = none) (hs : x.Selects q) :
    x.choice.branch.admits q = true := by
  have hc := Bool.and_eq_true_iff.1 hs.contains
  have hp := hs.passes
  rw [h.filter, h.on_index.1] at hp
  exact (Strategy.selects_iff h.plannable hq).1 ⟨h.contains hc.1 hc.2, hp⟩

theorem selects_start {c : Plan.Choice} (h : (start c).Fits is) (hq : q.fault? = none)
    (hc : c.branch.admits q = true) : (start c).Selects q := by
  have hs := (Strategy.selects_iff (i := (start c).index) h.plannable hq).2 hc
  rw [← h.on_index.1] at hs
  exact ⟨hs.1, hs.2⟩

theorem Fits.past (h : x.Fits is) (hq : x.scan.range.lower.below (x.index.key q) = true) :
    (x.past q).Fits is := by
  refine ⟨h.plannable, h.chosen, h.filter, h.upper, ?_⟩
  intro k hk
  have hlt : x.index.key q < k := of_decide_eq_true hk
  exact h.lower k (Bound.below_of_lt hq hlt)

/-- Behind a row the stage has what comes after it. -/
theorem selects_past_iff (hp : x.scan.range.lower.below (x.index.key p) = true) :
    (x.past p).Selects q ↔ x.Selects q ∧ x.index.key p < x.index.key q := by
  constructor
  · rintro ⟨hc, hf⟩
    obtain ⟨hl, hu⟩ := Bool.and_eq_true_iff.1 hc
    have hlt : x.index.key p < x.index.key q := of_decide_eq_true hl
    exact ⟨⟨Bool.and_eq_true_iff.2 ⟨Bound.below_of_lt hp hlt, hu⟩, hf⟩, hlt⟩
  · rintro ⟨⟨hc, hf⟩, hlt⟩
    exact ⟨Bool.and_eq_true_iff.2 ⟨decide_eq_true hlt, (Bool.and_eq_true_iff.1 hc).2⟩, hf⟩

end Stage

namespace Store

variable {st : Store Table} {m : Model}

/-! ## Stages over a store -/

section Rows

variable {x : Stage}

theorem Mirrors.mem_rows_iff (h : st.Mirrors m) (hx : x.Fits st.registry.indexes) {e : Entry} :
    e ∈ x.scan.rows st.engine ↔
      ∃ q, (q ∈ m.quads ∧ x.scan.range.lower.below (x.index.key q) = true ∧
        x.scan.range.upper.above (x.index.key q) = true) ∧ x.index.entry q = e :=
  h.mem_between_iff x.choice.branch hx.on_index.2 fun _ => hx.contains

/-- If no row counts, the stage has nothing to give. -/
theorem Mirrors.not_selects (h : st.Mirrors m) (hx : x.Fits st.registry.indexes)
    (hrows : ∀ e ∈ x.scan.rows st.engine, Scan.readRow? x.scan.filter e = none) :
    ∀ q ∈ m.quads, ¬ x.Selects q := by
  intro q hq hs
  have hrow := hrows _ ((h.mem_rows_iff hx).2
    ⟨q, ⟨hq, Bool.and_eq_true_iff.1 hs.contains⟩, rfl⟩)
  rw [Scan.readRow?_entry (h.storable q hq), if_pos hs.passes] at hrow
  contradiction

/-- The first row belongs to a quad, and all else that the stage has to give comes after it. -/
theorem Mirrors.first_row (h : st.Mirrors m) (hx : x.Fits st.registry.indexes) {e : Entry}
    {es : List Entry} (hrows : x.scan.rows st.engine = e :: es) {p : Quad}
    (hp : Record.decode e.2 = .ok p) :
    p ∈ m.quads ∧ e = x.index.entry p ∧ x.scan.range.contains (x.index.key p) = true ∧
      ∀ q ∈ m.quads, x.Selects q → q = p ∨ (x.past p).Selects q := by
  have hmem : e ∈ x.scan.rows st.engine := hrows ▸ List.mem_cons_self
  obtain ⟨r, ⟨hr, hrange⟩, rfl⟩ := (h.mem_rows_iff hx).1 hmem
  obtain rfl : r = p := by
    rw [Index.entry, Record.decode_encode_of_storable (h.storable r hr)] at hp
    exact Except.ok.inj hp
  refine ⟨hr, rfl, Bool.and_eq_true_iff.2 hrange, ?_⟩
  intro q hq hs
  have hrow : x.index.entry q ∈ x.scan.rows st.engine :=
    (h.mem_rows_iff hx).2 ⟨q, ⟨hq, Bool.and_eq_true_iff.1 hs.contains⟩, rfl⟩
  have hasc : Entries.Ascending (x.scan.rows st.engine) := Table.ascending_between _ _ _
  rw [hrows] at hrow hasc
  rcases List.mem_cons.1 hrow with heq | hlater
  · exact .inl (Index.key_inj (h.storable q hq) (h.storable r hr) (congrArg Prod.fst heq))
  · exact .inr ((Stage.selects_past_iff hrange.1).2
      ⟨hs, (List.pairwise_cons.1 hasc).1 _ hlater⟩)

end Rows

/-- A quad that stages give next: those before it have nothing to give, and what its own has to give
comes after it. -/
structure Next (m : Model) (course : List Stage) (q : Quad) (before : List Stage) (x : Stage)
    (after : List Stage) : Prop where
  split : course = before ++ x :: after
  content : q ∈ m.quads
  selected : x.Selects q
  first : ∀ r ∈ m.quads, x.Selects r → r = q ∨ (x.past q).Selects r
  passed : ∀ y ∈ before, ∀ r ∈ m.quads, ¬ y.Selects r

theorem Next.cons {course before after : List Stage} {q : Quad} {x y : Stage}
    (h : Next m course q before x after) (hy : ∀ r ∈ m.quads, ¬ y.Selects r) :
    Next m (y :: course) q (y :: before) x after :=
  ⟨congrArg _ h.split, h.content, h.selected, h.first, List.forall_mem_cons.2 ⟨hy, h.passed⟩⟩

/-- What scans give is the next quad of their stages. -/
theorem Mirrors.next_of_gives (h : st.Mirrors m) {scans left : List Scan} {q : Quad}
    (hg : Gives st.engine scans q left) {course : List Stage}
    (hscans : course.map Stage.scan = scans) (hfits : ∀ x ∈ course, x.Fits st.registry.indexes) :
    ∃ before x after, Next m course q before x after ∧
      left = (x.past q :: after).map Stage.scan := by
  induction hg generalizing course with
  | here hrows hdecoded hpasses =>
      obtain ⟨x, after, rfl, rfl, rfl⟩ := List.map_eq_cons_iff.1 hscans
      obtain ⟨hq, rfl, hc, hfirst⟩ :=
        h.first_row (hfits x List.mem_cons_self) hrows hdecoded
      exact ⟨[], x, after, ⟨rfl, hq, ⟨hc, hpasses⟩, hfirst, nofun⟩, rfl⟩
  | exhausted hrows _ ih =>
      obtain ⟨y, later, rfl, rfl, rfl⟩ := List.map_eq_cons_iff.1 hscans
      obtain ⟨hy, hlater⟩ := List.forall_mem_cons.1 hfits
      obtain ⟨before, x, after, hnext, hleft⟩ := ih rfl hlater
      exact ⟨_, x, after, hnext.cons (h.not_selects hy (by simp [hrows])), hleft⟩
  | @filtered _ _ _ _ _ p _ hrows hdecoded hfails _ ih =>
      obtain ⟨y, later, rfl, rfl, rfl⟩ := List.map_eq_cons_iff.1 hscans
      obtain ⟨hy, hlater⟩ := List.forall_mem_cons.1 hfits
      obtain ⟨hp, rfl, hc, hfirst⟩ := h.first_row hy hrows hdecoded
      have hlower := (Bool.and_eq_true_iff.1 hc).1
      have hpast : (y.past p :: later).map Stage.scan =
          y.scan.past (y.index.key p) :: later.map Stage.scan := rfl
      obtain ⟨before, x, after, hnext, hleft⟩ :=
        ih hpast (List.forall_mem_cons.2 ⟨hy.past hlower, hlater⟩)
      -- The quad of the row fails the filter, so nothing that the stage selects is lost.
      have hkept : ∀ r ∈ m.quads, y.Selects r → (y.past p).Selects r := by
        intro r hr hs
        refine (hfirst r hr hs).resolve_left ?_
        rintro rfl
        exact absurd hs.passes (by simp [hfails])
      cases before with
      | nil =>
          obtain ⟨rfl, rfl⟩ := List.cons.inj hnext.split
          refine ⟨[], y, later, ⟨rfl, hnext.content, ?_, ?_, nofun⟩, hleft⟩
          · exact ((Stage.selects_past_iff hlower).1 hnext.selected).1
          · exact fun r hr hs => hnext.first r hr (hkept r hr hs)
      | cons z before =>
          obtain ⟨rfl, rfl⟩ := List.cons.inj hnext.split
          obtain ⟨hz, hbefore⟩ := List.forall_mem_cons.1 hnext.passed
          refine ⟨y :: before, x, after,
            ⟨rfl, hnext.content, hnext.selected, hnext.first, ?_⟩, hleft⟩
          exact List.forall_mem_cons.2 ⟨fun r hr hs => hz r hr (hkept r hr hs), hbefore⟩

end Store
end QuadIndex
