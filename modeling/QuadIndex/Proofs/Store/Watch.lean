import QuadIndex.Proofs.Store.History
import QuadIndex.Proofs.Store.Stage

/-! # Streams of a store that is written between polls

A stream keeps no snapshot: each poll reads the table as it is then. What a stage selects can only
shrink, and by no more than the quad that was given and what comes before it. So no quad comes twice
from one branch, and none is passed over that is in the store all the while. -/

namespace QuadIndex.Store

variable {st : Store Table} {m : Model}

/-! ## Commands between polls -/

section Commands

variable {σ κ : Type} [Engine σ κ]

def Contains (st : Store σ) (q : Quad) : Prop := ∃ m, st.Mirrors m ∧ q ∈ m.quads

theorem Mirrors.contains_iff {st : Store σ} (h : st.Mirrors m) {q : Quad} :
    st.Contains q ↔ q ∈ m.quads := by
  constructor
  · rintro ⟨m', hm', hq⟩
    exact h.unique hm' ▸ hq
  · exact fun hq => ⟨m, h, hq⟩

def performAll (st : Store σ) : List Command → Store σ
  | [] => st
  | c :: cs => performAll (st.perform c).2 cs

theorem Mirrors.performAll [LawfulEngine σ κ] {st : Store σ} (h : st.Mirrors m)
    (cs : List Command) :
    (∃ m', (st.performAll cs).Mirrors m') ∧
      st.registry.indexes ⊆ (st.performAll cs).registry.indexes := by
  induction cs generalizing st m with
  | nil => exact ⟨⟨m, h⟩, List.Subset.refl _⟩
  | cons c cs ih =>
      rcases (h.perform_meets c).ok_or_error with ⟨_, -, hm, hr⟩ | ⟨_, -, hr, _, hm⟩
      · have hlater := ih hm
        rw [hr] at hlater
        exact ⟨hlater.1, fun i hi => hlater.2 (List.mem_append_left _ hi)⟩
      · have hlater := ih hm
        rw [hr] at hlater
        exact hlater

end Commands

/-! ## Sightings -/

/-- What the consumer of a stream meets at a poll: the item, the stream after it, and the store at
that time. -/
structure Sighting where
  item : Option Item
  stream : ResultStream Cursor
  store : Store Table

def sight (stream : ResultStream Cursor) (st : Store Table) (cs : List Command) : Sighting :=
  let st := st.performAll cs
  let (item, stream, engine) := stream.poll st.engine
  ⟨item, stream, { st with engine }⟩

/-- A stream is polled again and again, each time after some commands. -/
def watch (stream : ResultStream Cursor) (st : Store Table) :
    List (List Command) → List Sighting
  | [] => []
  | cs :: rounds =>
    let s := sight stream st cs
    s :: watch s.stream s.store rounds

/-- The quad of a sighting, if `n` scans were left to open after the one that gave it. -/
def Sighting.given? (n : Nat) (s : Sighting) : Option Quad :=
  match s.item with
  | some (.ok q) => if s.stream.pending.length = n then some q else none
  | _ => none

/-- The quads that one branch gave: the one that is followed by `n` others. -/
def given (n : Nat) (ss : List Sighting) : List Quad := ss.filterMap (·.given? n)

theorem mem_given_iff {n : Nat} {ss : List Sighting} {q : Quad} :
    q ∈ given n ss ↔ ∃ s ∈ ss, s.item = some (.ok q) ∧ s.stream.pending.length = n := by
  have hgiven (s : Sighting) :
      s.given? n = some q ↔ s.item = some (.ok q) ∧ s.stream.pending.length = n := by
    rw [Sighting.given?]
    split
    · next p hp => simp [hp, and_comm]
    · next hn => simpa using fun h => absurd h (hn q)
  simp only [given, List.mem_filterMap, hgiven]

theorem given_cons {n : Nat} {s : Sighting} {q : Quad} (hs : s.item = some (.ok q))
    (ss : List Sighting) :
    given n (s :: ss) = if s.stream.pending.length = n then q :: given n ss else given n ss := by
  rw [given, List.filterMap_cons, Sighting.given?, hs]
  by_cases hn : s.stream.pending.length = n <;> simp [hn, given]

theorem given_eq_nil {n : Nat} {ss : List Sighting}
    (h : ∀ s ∈ ss, ∀ q, s.item = some (.ok q) → s.stream.pending.length ≠ n) : given n ss = [] := by
  apply List.eq_nil_iff_forall_not_mem.2
  intro q hq
  obtain ⟨s, hs, hi, hn⟩ := mem_given_iff.1 hq
  exact h s hs q hi hn

/-- What a poll does to stages of a stream over the content that it meets. -/
inductive Seen (m : Model) (course : List Stage) (s : Sighting) : Prop
  | quad {q : Quad} {before after : List Stage} {x : Stage}
      (next : Next m course q before x after) (item : s.item = some (.ok q))
      (unpaged : s.stream.Unpaged)
      (agenda : (x.past q :: after).map Stage.scan = s.stream.agenda)
      (pending : s.stream.pending.length = after.length)
  | stopped (item : s.item = none) (phase : s.stream.phase ≠ .ready)
      (passed : ∀ x ∈ course, ∀ q ∈ m.quads, ¬ x.Selects q)

/-- The stages are those of a stream, and read indexes of the store. -/
structure OnCourse (stream : ResultStream Cursor) (st : Store Table) (course : List Stage) :
    Prop where
  unpaged : stream.Unpaged
  agenda : course.map Stage.scan = stream.agenda
  fits : ∀ x ∈ course, x.Fits st.registry.indexes

/-- Every row of a store that mirrors a model is a record. -/
theorem Mirrors.decode_entry (h : st.Mirrors m) :
    ∀ e ∈ st.engine.entries, ∃ q, Record.decode e.2 = .ok q := by
  intro e he
  obtain ⟨q, hq, i, -, rfl⟩ := (h.holds e).1 he
  exact ⟨q, Record.decode_encode_of_storable (h.storable q hq)⟩

/-- Commands may change the content and add indexes. The poll after them does what the stages say
about the content that it finds. -/
theorem Mirrors.seen (h : st.Mirrors m) {stream : ResultStream Cursor} {course : List Stage}
    (hc : OnCourse stream st course) (cs : List Command) :
    ∃ m', (sight stream st cs).store.Mirrors m' ∧
      st.registry.indexes ⊆ (sight stream st cs).store.registry.indexes ∧
      Seen m' course (sight stream st cs) := by
  obtain ⟨⟨m', hm⟩, hindexes⟩ := h.performAll cs
  have hread := (ResultStream.poll_spec (hc.unpaged.steady (st.performAll cs).engine)).1
  refine ⟨m', hm.of_kept ⟨rfl, rfl⟩ hread.table, hindexes, ?_⟩
  have hfits : ∀ x ∈ course, x.Fits (st.performAll cs).registry.indexes :=
    fun x hx => (hc.fits x hx).mono hindexes
  rcases hc.unpaged.poll_cases hm.decode_entry with
    ⟨q, hitem, hunpaged, hgives, s, hahead⟩ | ⟨hitem, hphase, hnone⟩
  · obtain ⟨before, x, after, hnext, hleft⟩ := hm.next_of_gives hgives hc.agenda hfits
    refine .quad hnext hitem hunpaged hleft.symm ?_
    obtain ⟨-, hpending⟩ := List.cons.inj (hahead.symm.trans hleft)
    exact (congrArg List.length hpending).trans (List.length_map _)
  · refine .stopped hitem hphase ?_
    intro x hx
    refine hm.not_selects (hfits x hx) (hnone x.scan ?_)
    rw [← hc.agenda]
    exact List.mem_map_of_mem hx

/-! ## Runs -/

/-- What one stage gives in a run: quads that it selects, in the order of its keys, and by the end
all of those that stay in the content. -/
structure Serves (x : Stage) (qs : List Quad) (ss : List Sighting) : Prop where
  selected : ∀ q ∈ qs, x.Selects q
  ascending : qs.Pairwise fun p q => x.index.key p < x.index.key q
  complete : (∃ s ∈ ss, s.item = none) → ∀ q, (∀ s ∈ ss, s.store.Contains q) → x.Selects q →
    q ∈ qs

section Serves

variable {x : Stage} {q : Quad} {qs : List Quad} {s : Sighting} {ss : List Sighting}

theorem serves_nil (hs : s ∈ ss) (hm : s.store.Mirrors m) (hx : ∀ q ∈ m.quads, ¬ x.Selects q) :
    Serves x [] ss := by
  refine ⟨nofun, .nil, ?_⟩
  intro _ q hq hsel
  exact absurd hsel (hx q (hm.contains_iff.1 (hq s hs)))

theorem Serves.later (h : Serves x qs ss) (hitem : s.item ≠ none) : Serves x qs (s :: ss) := by
  refine ⟨h.selected, h.ascending, ?_⟩
  rintro ⟨s', hs', hnone⟩ q hq hsel
  have hs' : s' ∈ ss := (List.mem_cons.1 hs').resolve_left fun heq => hitem (heq ▸ hnone)
  exact h.complete ⟨s', hs', hnone⟩ q (fun t ht => hq t (List.mem_cons_of_mem s ht)) hsel

theorem Serves.cons {course before after : List Stage} (h : Serves (x.past q) qs ss)
    (hm : s.store.Mirrors m) (hnext : Next m course q before x after)
    (hitem : s.item = some (.ok q)) : Serves x (q :: qs) (s :: ss) := by
  have hpast {r : Quad} := Stage.selects_past_iff (q := r)
    (Bool.and_eq_true_iff.1 hnext.selected.contains).1
  refine ⟨?_, ?_, ?_⟩
  · exact List.forall_mem_cons.2
      ⟨hnext.selected, fun r hr => (hpast.1 (h.selected r hr)).1⟩
  · exact List.pairwise_cons.2 ⟨fun r hr => (hpast.1 (h.selected r hr)).2, h.ascending⟩
  · rintro ⟨s', hs', hnone⟩ r hr hsel
    have hs' : s' ∈ ss := by
      refine (List.mem_cons.1 hs').resolve_left ?_
      rintro rfl
      exact absurd (hnone.symm.trans hitem) nofun
    rcases hnext.first r (hm.contains_iff.1 (hr s List.mem_cons_self)) hsel with rfl | hlater
    · exact List.mem_cons_self
    · exact List.mem_cons_of_mem q (h.complete ⟨s', hs', hnone⟩ r
        (fun t ht => hr t (List.mem_cons_of_mem s ht)) hlater)

end Serves

/-- What a run does: each item comes from one of the stages, and each stage is served. -/
structure Watched (course : List Stage) (ss : List Sighting) : Prop where
  items : ∀ s ∈ ss, ∀ item, s.item = some item → ∃ q x, item = .ok q ∧
    course.reverse[s.stream.pending.length]? = some x ∧ s.store.Contains q ∧ x.Selects q
  serves : ∀ n x, course.reverse[n]? = some x → Serves x (given n ss) ss

section Split

variable (before : List Stage) (x : Stage) {after : List Stage} {n : Nat}

theorem reverse_split : (before ++ x :: after).reverse = after.reverse ++ x :: before.reverse := by
  rw [List.reverse_append, List.reverse_cons, List.append_assoc, List.singleton_append]

theorem getElem?_reverse_of_lt (h : n < after.length) :
    (before ++ x :: after).reverse[n]? = after.reverse[n]? := by
  rw [reverse_split, List.getElem?_append_left (by rwa [List.length_reverse])]

theorem getElem?_reverse_length : (before ++ x :: after).reverse[after.length]? = some x := by
  rw [reverse_split, List.getElem?_append_right (by simp)]
  simp

/-- A stage that is found by the number of stages behind it comes after the place of a split, or is
there, or comes before it. -/
theorem getElem?_reverse_cases {y : Stage}
    (h : (before ++ x :: after).reverse[n]? = some y) :
    n < after.length ∧ after.reverse[n]? = some y ∨ n = after.length ∧ y = x ∨
      after.length < n ∧ y ∈ before := by
  rcases Nat.lt_trichotomy n after.length with hn | rfl | hn
  · exact .inl ⟨hn, (getElem?_reverse_of_lt before x hn).symm.trans h⟩
  · rw [getElem?_reverse_length] at h
    exact .inr (.inl ⟨rfl, (Option.some.inj h).symm⟩)
  · refine .inr (.inr ⟨hn, ?_⟩)
    obtain ⟨k, rfl⟩ := Nat.exists_eq_add_of_lt hn
    have hk : after.length + k + 1 - after.reverse.length = k + 1 := by
      rw [List.length_reverse]
      omega
    rw [reverse_split, List.getElem?_append_right (by rw [List.length_reverse]; omega), hk,
      List.getElem?_cons_succ] at h
    exact List.mem_reverse.1 (List.mem_of_getElem? h)

end Split

/-- One more sighting in front. The branch that gave its quad has to be told from those behind it,
which give later, and from those before it, which have nothing to give any more. -/
theorem Watched.cons {course before after : List Stage} {x : Stage} {q : Quad} {s : Sighting}
    {ss : List Sighting} (h : Watched (x.past q :: after) ss) (hm : s.store.Mirrors m)
    (hnext : Next m course q before x after) (hitem : s.item = some (.ok q))
    (hpending : s.stream.pending.length = after.length) : Watched course (s :: ss) := by
  have hpast {r : Quad} := Stage.selects_past_iff (q := r)
    (Bool.and_eq_true_iff.1 hnext.selected.contains).1
  obtain rfl := hnext.split
  refine ⟨List.forall_mem_cons.2 ⟨?_, ?_⟩, ?_⟩
  · intro item hi
    obtain rfl := Option.some.inj (hitem.symm.trans hi)
    refine ⟨q, x, rfl, ?_, hm.contains_iff.2 hnext.content, hnext.selected⟩
    rw [hpending, getElem?_reverse_length]
  · intro t ht item hi
    obtain ⟨r, y, hr, hy, hcontent, hsel⟩ := h.items t ht item hi
    rcases getElem?_reverse_cases [] (x.past q) hy with ⟨hn, hy⟩ | ⟨hn, rfl⟩ | ⟨-, hno⟩
    · exact ⟨r, y, hr, (getElem?_reverse_of_lt before x hn).trans hy, hcontent, hsel⟩
    · refine ⟨r, x, hr, ?_, hcontent, (hpast.1 hsel).1⟩
      rw [hn, getElem?_reverse_length]
    · exact absurd hno List.not_mem_nil
  · intro n y hy
    rw [given_cons hitem, hpending]
    rcases getElem?_reverse_cases before x hy with ⟨hn, hy⟩ | ⟨rfl, rfl⟩ | ⟨hn, hy⟩
    · have hserves := h.serves n y ((getElem?_reverse_of_lt [] (x.past q) hn).trans hy)
      rw [if_neg (Nat.ne_of_gt hn)]
      exact hserves.later (by simp [hitem])
    · rw [if_pos rfl]
      exact (h.serves _ _ (getElem?_reverse_length [] _)).cons hm hnext hitem
    · have hgiven : given n ss = [] := by
        apply given_eq_nil
        rintro t ht r hi rfl
        obtain ⟨_, z, -, hz, -⟩ := h.items t ht _ hi
        obtain ⟨hlt, -⟩ := List.getElem?_eq_some_iff.1 hz
        rw [List.length_reverse, List.length_cons] at hlt
        omega
      rw [if_neg (Nat.ne_of_lt hn), hgiven]
      exact serves_nil List.mem_cons_self hm (hnext.passed y hy)

theorem item_watch_of_not_ready {stream : ResultStream Cursor} (h : stream.phase ≠ .ready)
    (st : Store Table) (rounds : List (List Command)) :
    ∀ s ∈ watch stream st rounds, s.item = none := by
  induction rounds generalizing st with
  | nil => simp [watch]
  | cons cs rounds ih =>
      have hsight : sight stream st cs = ⟨none, stream, st.performAll cs⟩ := by
        rw [sight, ResultStream.poll_of_not_ready h]
      rw [watch, hsight]
      exact List.forall_mem_cons.2 ⟨rfl, ih _⟩

/-- A run keeps to the stages of its stream, whatever commands come between its polls. -/
theorem Mirrors.watched (h : st.Mirrors m) {stream : ResultStream Cursor} {course : List Stage}
    (hc : OnCourse stream st course) (rounds : List (List Command)) :
    Watched course (watch stream st rounds) := by
  induction rounds generalizing st m stream course with
  | nil =>
      rw [watch]
      refine ⟨fun s hs => absurd hs List.not_mem_nil, fun n x _ => ⟨nofun, .nil, ?_⟩⟩
      rintro ⟨s, hs, -⟩
      exact absurd hs List.not_mem_nil
  | cons cs rounds ih =>
      obtain ⟨m', hm, hindexes, hseen⟩ := h.seen hc cs
      rw [watch]
      generalize sight stream st cs = s at hm hindexes hseen
      cases hseen with
      | stopped hitem hphase hpassed =>
          have hnone : ∀ t ∈ s :: watch s.stream s.store rounds, t.item = none :=
            List.forall_mem_cons.2 ⟨hitem, item_watch_of_not_ready hphase s.store rounds⟩
          refine ⟨fun t ht item hi => absurd ((hnone t ht).symm.trans hi) nofun, ?_⟩
          intro n x hx
          rw [given_eq_nil fun t ht q hi => absurd ((hnone t ht).symm.trans hi) nofun]
          exact serves_nil List.mem_cons_self hm
            (hpassed x (List.mem_reverse.1 (List.mem_of_getElem? hx)))
      | @quad q before after x hnext hitem hunpaged hagenda hpending =>
          refine (ih hm ⟨hunpaged, hagenda, ?_⟩).cons hm hnext hitem hpending
          have hfits := hc.fits
          rw [hnext.split] at hfits
          have hx := hfits x (List.mem_append_right _ List.mem_cons_self)
          intro y hy
          rcases List.mem_cons.1 hy with rfl | hy
          · exact (hx.past (Bool.and_eq_true_iff.1 hnext.selected.contains).1).mono hindexes
          · exact (hfits y (List.mem_append_right _ (List.mem_cons_of_mem x hy))).mono hindexes

theorem Contains.storable {s : Store Table} {q : Quad} (h : s.Contains q) : q.fault? = none := by
  obtain ⟨m, hm, hq⟩ := h
  exact hm.storable q hq

/-- A stream without paging can be polled with any commands between its polls. Every item is a quad
that is in the store at the time and that satisfies the branch it comes from. One branch gives its
quads in strictly ascending order of its index. When the stream has ended, each branch has given
just once every quad that satisfies it and that was in the store at all polls. -/
theorem stream_between_writes {st : Store Table} (h : st.Reachable) {p : Pattern}
    (hp : p.fault? = none) :
    ∃ (plan : Plan) (stream : ResultStream Cursor) (st' : Store Table),
      st.plan p = .ok plan ∧ p.divide = .ok (plan.choices.map Plan.Choice.branch) ∧
      st.query p {} = (.ok stream, st') ∧
      ∀ rounds : List (List Command),
        (∀ s ∈ watch stream st' rounds, ∀ item, s.item = some item → ∃ q c, item = .ok q ∧
          plan.choices.reverse[s.stream.pending.length]? = some c ∧ s.store.Contains q ∧
            c.branch.admits q = true) ∧
        ∀ n c, plan.choices.reverse[n]? = some c →
          ((given n (watch stream st' rounds)).Pairwise fun q r =>
            c.strategy.index.tuple q < c.strategy.index.tuple r) ∧
          (given n (watch stream st' rounds)).Nodup ∧
          ((∃ s ∈ watch stream st' rounds, s.item = none) → ∀ q, c.branch.admits q = true →
            (∀ s ∈ watch stream st' rounds, s.store.Contains q) →
              (given n (watch stream st' rounds)).count q = 1) := by
  obtain ⟨m, hm⟩ := h.exists_mirrors
  obtain ⟨plan, hplan, hbranches, hchosen⟩ := plan_eq_ok hp st
  let st' : Store Table := { st with plansRun := plan :: st.plansRun }
  have hfits : ∀ c ∈ plan.choices, (Stage.start c).Fits st.registry.indexes := by
    intro c hc
    have hb : c.branch ∈ p.branches := hbranches ▸ List.mem_map_of_mem hc
    exact Stage.fits_start (Pattern.plannable_of_mem_branches hp hb) (hchosen c hc)
  have hcourse : OnCourse (.ofScans plan.scans {}) st' (plan.choices.map Stage.start) := by
    refine ⟨ResultStream.unpaged_ofScans ?_, ?_, List.forall_mem_map.2 hfits⟩
    · intro s hs
      obtain ⟨c, -, rfl⟩ := List.mem_map.1 hs
      rfl
    · exact List.map_map
  have hst' : st'.Mirrors m := hm.of_kept ⟨rfl, rfl⟩ rfl
  refine ⟨plan, .ofScans plan.scans {}, st', hplan, Pattern.divide_eq_ok_iff.2 ⟨hp, hbranches⟩,
    by rw [query, hplan], ?_⟩
  intro rounds
  have hwatched := hst'.watched hcourse rounds
  have hstage (n : Nat) : (plan.choices.map Stage.start).reverse[n]? =
      plan.choices.reverse[n]?.map Stage.start := by
    rw [← List.map_reverse, List.getElem?_map]
  generalize watch (.ofScans plan.scans {}) st' rounds = ss at hwatched
  constructor
  · intro s hs item hi
    obtain ⟨q, x, rfl, hx, hq, hsel⟩ := hwatched.items s hs item hi
    rw [hstage] at hx
    obtain ⟨c, hc, rfl⟩ := Option.map_eq_some_iff.1 hx
    have hcmem : c ∈ plan.choices := List.mem_reverse.1 (List.mem_of_getElem? hc)
    exact ⟨q, c, rfl, hc, hq, (hfits c hcmem).admits hq.storable hsel⟩
  · intro n c hc
    have hcmem : c ∈ plan.choices := List.mem_reverse.1 (List.mem_of_getElem? hc)
    have hserves := hwatched.serves n (Stage.start c) (by rw [hstage, hc]; rfl)
    have hstorable : ∀ q ∈ given n ss, q.fault? = none := by
      intro q hq
      obtain ⟨s, hs, hi, -⟩ := mem_given_iff.1 hq
      obtain ⟨r, -, hr, -, hcontent, -⟩ := hwatched.items s hs _ hi
      exact Except.ok.inj hr ▸ hcontent.storable
    have hordered : (given n ss).Pairwise fun q r =>
        c.strategy.index.tuple q < c.strategy.index.tuple r :=
      hserves.ascending.imp_of_mem fun hq hr hlt =>
        (Index.key_lt_key_iff (hstorable _ hq) (hstorable _ hr)).1 hlt
    have hnodup := nodup_of_ascending (Model.tuple_asymm _) hordered
    refine ⟨hordered, hnodup, ?_⟩
    rintro ⟨s, hs, hend⟩ q hadmits hstays
    have hsel := Stage.selects_start (hfits c hcmem) (hstays s hs).storable hadmits
    rw [hnodup.count, if_pos (hserves.complete ⟨s, hs, hend⟩ q hstays hsel)]

/-- A quad that is erased before the stream comes to it is not given, and one that is put ahead of
the stream is. -/
theorem stream_between_writes_ahead :
    ∃ (stream : ResultStream Cursor) (st : Store Table) (ss : List Sighting),
      query (perform ⟨Table.empty, .standard, "g", []⟩
          (.put [⟨"s", "p", "o", ""⟩, ⟨"t", "p", "o", ""⟩])).2
        ⟨[(.object, .one (.exact "o"))], by decide⟩ {} = (.ok stream, st) ∧
      ss = watch stream st [[], [.erase [⟨"t", "p", "o", ""⟩], .put [⟨"u", "p", "o", ""⟩]], []] ∧
      ss.map Sighting.item =
        [some (.ok ⟨"s", "p", "o", "g"⟩), some (.ok ⟨"u", "p", "o", "g"⟩), none] ∧
      ∀ q : Quad, q.object = "o" → (∀ s ∈ ss, s.store.Contains q) → (given 0 ss).count q = 1 := by
  have hmade : make Table.empty ⟨.standard, "g"⟩ = .ok ⟨.empty, .standard, "g", []⟩ := rfl
  obtain ⟨plan, stream, st, -, hdivide, hquery, hwatch⟩ := stream_between_writes
    (.perform (.put [⟨"s", "p", "o", ""⟩, ⟨"t", "p", "o", ""⟩]) (.make rfl hmade))
    (p := ⟨[(.object, .one (.exact "o"))], by decide⟩) (by decide)
  have hitems : (match query (perform ⟨Table.empty, .standard, "g", []⟩
          (.put [⟨"s", "p", "o", ""⟩, ⟨"t", "p", "o", ""⟩])).2
        ⟨[(.object, .one (.exact "o"))], by decide⟩ {} with
      | (.ok stream, st) => (watch stream st
          [[], [.erase [⟨"t", "p", "o", ""⟩], .put [⟨"u", "p", "o", ""⟩]], []]).map Sighting.item
      | (.error _, _) => []) =
        [some (.ok ⟨"s", "p", "o", "g"⟩), some (.ok ⟨"u", "p", "o", "g"⟩), none] := by
    decide +kernel
  rw [hquery] at hitems
  dsimp only at hitems
  refine ⟨stream, st, _, hquery, rfl, hitems, ?_⟩
  obtain ⟨c, hc, hb⟩ := List.map_eq_singleton_iff.1 (Except.ok.inj hdivide).symm
  intro q hq
  refine ((hwatch _).2 0 c (by rw [hc]; rfl)).2.2 ?_ q ?_
  · apply List.mem_map.1
    rw [hitems]
    simp
  · rw [hb]
    simp [Branch.admits, Constraint.admits, Quad.get, hq]

end QuadIndex.Store
