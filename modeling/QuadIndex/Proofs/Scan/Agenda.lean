import QuadIndex.Proofs.Scan.Delivery

/-! # Streams over a table that may change

A cursor over a table keeps no rows, only the key that it came to. What a stream has still to read
is therefore a list of scans, whatever the table holds when they are read: a poll passes over the
rows that do not count, and moves the scan that gives a quad behind the key of its row. -/

namespace QuadIndex

namespace Paging

variable {skip : Nat} {remaining : Option Nat} {items : List Item}

theorem mem_of_mem_page {item : Item} (h : item ∈ page skip remaining items) : item ∈ items := by
  fun_induction page skip remaining items with
  | case1 => contradiction
  | case2 => contradiction
  | case3 _ _ _ e _ =>
      obtain rfl := List.mem_singleton.1 h
      exact List.mem_cons_self
  | case4 _ _ _ _ _ ih => exact List.mem_cons_of_mem _ (ih h)
  | case5 _ _ _ _ ih =>
      rcases List.mem_cons.1 h with rfl | h
      · exact List.mem_cons_self
      · exact List.mem_cons_of_mem _ (ih h)

theorem eq_nil_of_page (h : page 0 none items = []) : items = [] := by
  cases items with
  | nil => rfl
  | cons item items => cases item <;> simp [page] at h

end Paging

/-! ## Cursors without a limit -/

namespace Cursor

theorem mem_of_mem_cut {α : Type} {limit : Option Nat} {as : List α} {a : α}
    (h : a ∈ cut limit as) : a ∈ as := by
  cases limit with
  | none => exact h
  | some n => exact List.mem_of_mem_take h

/-- The cursor has no limit, and it has finished only if no key is left in its range. -/
structure Free (c : Cursor) : Prop where
  remaining : c.remaining = none
  crossed : c.finished = true → c.lower.crossed c.upper = true

variable {c : Cursor}

theorem free_ofRange {r : KeyRange} (h : r.limit = none) : (ofRange r).Free := by
  refine ⟨h, ?_⟩
  intro hf
  simpa [ofRange, h, KeyRange.isEmpty] using hf

theorem Free.past (h : c.Free) (k : Bytes) : (c.past k).Free := by
  refine ⟨?_, ?_⟩
  · rw [Cursor.past, h.remaining]
    rfl
  · intro hf
    simpa [Cursor.past, h.remaining] using hf

theorem Free.rest_eq (h : c.Free) (t : Table) : c.rest t = t.between c.lower c.upper := by
  rw [rest, h.remaining]
  split
  · next hf => exact (Table.between_eq_nil_of_crossed (h.crossed hf) t).symm
  · rfl

/-- Such a cursor gives the first row between its ends, and moves its lower end to the key. -/
theorem Free.next_cases (h : c.Free) (t : Table) :
    t.between c.lower c.upper = [] ∧ (c.next t).1 = none ∨
      ∃ e es, t.between c.lower c.upper = e :: es ∧ c.next t = (some e, c.past e.1) := by
  have hcons : c.Consistent := fun hr => absurd (h.remaining.symm.trans hr) nofun
  cases hb : t.between c.lower c.upper with
  | nil =>
      obtain ⟨d, hd⟩ := next_of_rest_nil hcons ((h.rest_eq t).trans hb)
      exact .inl ⟨rfl, congrArg Prod.fst hd⟩
  | cons e es =>
      exact .inr ⟨e, es, rfl, (next_of_rest_cons ((h.rest_eq t).trans hb)).1⟩

end Cursor

/-! ## Scans ahead -/

/-- What is left of a scan after the row under a key. -/
def Scan.past (s : Scan) (k : Bytes) : Scan :=
  { s with range := { s.range with lower := .exclusive k } }

/-- How a poll goes along scans: over those without rows and over rows that are filtered out, to a
row that gives a quad. -/
inductive Gives (t : Table) : List Scan → Quad → List Scan → Prop
  | here {s : Scan} {later : List Scan} {e : Entry} {es : List Entry} {q : Quad}
      (rows : s.rows t = e :: es) (decoded : Record.decode e.2 = .ok q)
      (passes : Scan.passes s.filter q = true) :
      Gives t (s :: later) q (s.past e.1 :: later)
  | exhausted {s : Scan} {later left : List Scan} {q : Quad} (rows : s.rows t = [])
      (next : Gives t later q left) : Gives t (s :: later) q left
  | filtered {s : Scan} {later left : List Scan} {e : Entry} {es : List Entry} {p q : Quad}
      (rows : s.rows t = e :: es) (decoded : Record.decode e.2 = .ok p)
      (fails : Scan.passes s.filter p = false) (next : Gives t (s.past e.1 :: later) q left) :
      Gives t (s :: later) q left

/-- What an active scan over a table has still to read. -/
def ActiveScan.ahead (a : ActiveScan Cursor) : Scan :=
  ⟨a.indexName, ⟨a.cursor.lower, a.cursor.upper, a.cursor.remaining⟩, a.filter⟩

namespace ResultStream

def agenda (st : ResultStream Cursor) : List Scan :=
  (st.active.map ActiveScan.ahead).toList ++ st.pending

/-- A stream that has not stopped, without a page and without limits of its scans. -/
structure Unpaged (st : ResultStream Cursor) : Prop where
  ready : st.phase = .ready
  skip : st.skip = 0
  remaining : st.remaining = none
  active : ∀ a, st.active = some a → a.cursor.Free
  pending : ∀ s ∈ st.pending, s.range.limit = none

variable {st st' : ResultStream Cursor} {t t' : Table}

theorem unpaged_ofScans {scans : List Scan} (h : ∀ s ∈ scans, s.range.limit = none) :
    (ofScans scans {} : ResultStream Cursor).Unpaged := ⟨rfl, rfl, rfl, nofun, h⟩

theorem Unpaged.steady (h : st.Unpaged) (t : Table) : st.Steady Table t := by
  refine ⟨?_, fun _ => by rw [h.remaining]; nofun, fun _ n hn => ?_⟩
  · intro a ha hr
    exact absurd ((h.active a ha).remaining.symm.trans hr) nofun
  · exact absurd (h.remaining.symm.trans hn) nofun

theorem Unpaged.limit (h : st.Unpaged) {s : Scan} (hs : s ∈ st.agenda) : s.range.limit = none := by
  rcases List.mem_append.1 hs with hs | hs
  · obtain ⟨a, ha, rfl⟩ := Option.map_eq_some_iff.1 (Option.mem_toList.1 hs)
    exact (h.active a ha).remaining
  · exact h.pending s hs

theorem Unpaged.owed_eq (h : st.Unpaged) (t : Table) :
    st.owed Table t = Paging.page 0 none (st.agenda.flatMap (·.items t)) := by
  rw [owed_of_ready h.ready, h.skip, h.remaining, unread, current, agenda, List.flatMap_append]
  cases ha : st.active with
  | none => rfl
  | some a =>
      have hitems : a.items Table t = a.ahead.items t := by
        rw [ActiveScan.items, Scan.items, ActiveScan.ahead, (h.active a ha).remaining]
        exact congrArg _ ((h.active a ha).rest_eq t)
      rw [Option.elim_some, hitems]
      simp

/-! ## Turns -/

/-- What a turn does to the scans ahead. -/
inductive Move (t : Table) (st : ResultStream Cursor) : Turn → ResultStream Cursor → Prop
  | opened {st' : ResultStream Cursor} (unpaged : st'.Unpaged) (agenda : st'.agenda = st.agenda) :
      Move t st .again st'
  | exhausted {s : Scan} {st' : ResultStream Cursor} (unpaged : st'.Unpaged)
      (rows : s.rows t = []) (agenda : st.agenda = s :: st'.agenda) : Move t st .again st'
  | filtered {s : Scan} {later : List Scan} {e : Entry} {es : List Entry} {q : Quad}
      {st' : ResultStream Cursor} (unpaged : st'.Unpaged) (before : st.agenda = s :: later)
      (rows : s.rows t = e :: es) (decoded : Record.decode e.2 = .ok q)
      (fails : Scan.passes s.filter q = false) (agenda : st'.agenda = s.past e.1 :: later) :
      Move t st .again st'
  | gave {s : Scan} {e : Entry} {es : List Entry} {q : Quad}
      {st' : ResultStream Cursor} (unpaged : st'.Unpaged) (before : st.agenda = s :: st'.pending)
      (rows : s.rows t = e :: es) (decoded : Record.decode e.2 = .ok q)
      (passes : Scan.passes s.filter q = true) (agenda : st'.agenda = s.past e.1 :: st'.pending) :
      Move t st (.give (some (.ok q))) st'
  | failed {e : QueryError} {st' : ResultStream Cursor} : Move t st (.give (some (.error e))) st'
  | ended {st' : ResultStream Cursor} : Move t st (.give none) st'

theorem Unpaged.accept_eq (h : st.Unpaged) (a : ActiveScan Cursor) (q : Quad) (t : Table) :
    st.accept a q t =
      if Scan.passes a.filter q then (.give (some (.ok q)), st, t)
      else (.again, st.note (.filteredOut q), t) := by
  obtain ⟨pending, active, skip, remaining, phase, journal⟩ := st
  obtain rfl : skip = 0 := h.skip
  obtain rfl : remaining = none := h.remaining
  rw [accept]
  cases Scan.passes a.filter q <;> simp

theorem Unpaged.advance_move (h : st.Unpaged) {a : ActiveScan Cursor} (ha : st.active = some a)
    (t : Table) : Move t st (st.advance a t).1 (st.advance a t).2.1 := by
  have hfree := h.active a ha
  have hagenda : st.agenda = a.ahead :: st.pending := by
    rw [agenda, ha]
    rfl
  rw [advance, Table.next_eq]
  rcases hfree.next_cases t with ⟨hrows, hnext⟩ | ⟨e, es, hrows, hnext⟩
  · rw [hnext]
    exact .exhausted (s := a.ahead) ⟨h.ready, h.skip, h.remaining, by simp, h.pending⟩ hrows hagenda
  · rw [hnext]
    let read : ActiveScan Cursor := { a with cursor := a.cursor.past e.1, rows := a.rows + 1 }
    have hunpaged : Unpaged { st with active := some read } := by
      refine ⟨h.ready, h.skip, h.remaining, ?_, h.pending⟩
      rintro b ⟨⟩
      exact hfree.past e.1
    have hahead : read.ahead = a.ahead.past e.1 := by
      simp [read, ActiveScan.ahead, Scan.past, Cursor.past, hfree.remaining]
    have hleft : agenda { st with active := some read } = a.ahead.past e.1 :: st.pending := by
      rw [← hahead]
      rfl
    dsimp only [Option.map_some]
    split
    · exact .failed
    · next q hd =>
      rw [hunpaged.accept_eq]
      split
      · next hpass =>
        exact .gave (s := a.ahead) hunpaged hagenda hrows hd hpass hleft
      · next hpass =>
        have hfails : Scan.passes a.filter q = false := by simpa using hpass
        exact .filtered (s := a.ahead) ⟨h.ready, h.skip, h.remaining, hunpaged.active, h.pending⟩
          hagenda hrows hd hfails hleft

theorem Unpaged.openScan_move (h : st.Unpaged) {scan : Scan} {pending : List Scan}
    (ha : st.active = none) (hp : st.pending = scan :: pending) (t : Table) :
    Move t st .again ({ st with pending }.openScan scan t).1 := by
  have hpending := h.pending
  rw [hp] at hpending
  have hlimit := hpending scan List.mem_cons_self
  have hcap : cap { st with pending } scan = none := by
    rw [cap]
    split
    · next n _ hr => exact absurd (hr.symm.trans h.remaining) (Option.some_ne_none n)
    · exact hlimit
  have hagenda : st.agenda = scan :: pending := by
    rw [agenda, ha, hp]
    rfl
  have hopened : ({ st with pending }.openScan scan t).1.agenda =
      ⟨scan.indexName, ⟨scan.range.lower, scan.range.upper, cap { st with pending } scan⟩,
        scan.filter⟩ :: pending := rfl
  rw [hcap, ← hlimit] at hopened
  refine .opened ⟨h.ready, h.skip, h.remaining, ?_, ?_⟩ (hopened.trans hagenda.symm)
  · rintro a ⟨⟩
    exact Cursor.free_ofRange hcap
  · exact fun s hs => hpending s (List.mem_cons_of_mem scan hs)

theorem Unpaged.move (h : st.Unpaged) (t : Table) : Move t st (st.turn t).1 (st.turn t).2.1 := by
  rw [turn, if_neg (not_not_intro h.ready)]
  split
  · next a ha => exact h.advance_move ha t
  · next scan pending ha hp => exact h.openScan_move ha hp t
  · exact .ended

/-! ## Polls -/

/-- A poll that gives a quad goes along the scans ahead, up to the one that gives it. -/
theorem Unpaged.gives {out : Option Item × ResultStream Cursor × Table} (h : st.Unpaged)
    (hpolled : Polled st t out) {q : Quad} (hq : out.1 = some (.ok q)) :
    out.2.1.Unpaged ∧ Gives t st.agenda q out.2.1.agenda ∧
      ∃ s, out.2.1.agenda = s :: out.2.1.pending := by
  induction hpolled with
  | @answer st st' t _ _ hturn =>
      have hmove := h.move t
      rw [hturn] at hmove
      obtain rfl := hq
      cases hmove with
      | gave hunpaged hbefore hrows hdecoded hpasses hagenda =>
          refine ⟨hunpaged, ?_, _, hagenda⟩
          rw [hbefore, hagenda]
          exact .here hrows hdecoded hpasses
  | @again st st' t _ _ hturn _ ih =>
      -- Each turn that gives nothing is one step along the scans, or opens the first of them.
      have hmove := h.move t
      obtain rfl := (turned_of_eq hturn).table_eq
      rw [hturn] at hmove
      cases hmove with
      | opened hunpaged hagenda =>
          rw [← hagenda]
          exact ih hunpaged hq
      | exhausted hunpaged hrows hagenda =>
          obtain ⟨hlast, hgives, hhead⟩ := ih hunpaged hq
          exact ⟨hlast, hagenda ▸ .exhausted hrows hgives, hhead⟩
      | filtered hunpaged hbefore hrows hdecoded hfails hagenda =>
          obtain ⟨hlast, hgives, hhead⟩ := ih hunpaged hq
          rw [hagenda] at hgives
          exact ⟨hlast, hbefore ▸ .filtered hrows hdecoded hfails hgives, hhead⟩

/-- A poll over well-formed records gives a quad of the scans ahead, or ends the stream because
nothing in them counts. -/
theorem Unpaged.poll_cases (h : st.Unpaged) {t : Table}
    (ht : ∀ e ∈ t.entries, ∃ q, Record.decode e.2 = .ok q) :
    (∃ q, (st.poll t).1 = some (.ok q) ∧ (st.poll t).2.1.Unpaged ∧
        Gives t st.agenda q (st.poll t).2.1.agenda ∧
        ∃ s, (st.poll t).2.1.agenda = s :: (st.poll t).2.1.pending) ∨
      (st.poll t).1 = none ∧ (st.poll t).2.1.phase ≠ .ready ∧
        ∀ s ∈ st.agenda, ∀ e ∈ s.rows t, Scan.readRow? s.filter e = none := by
  have hanswer := (poll_spec (h.steady t)).2.2
  have howed : st.owed Table (Engine.table t) = _ := h.owed_eq t
  rcases hpoll : st.poll t with ⟨item, st', t'⟩
  rw [hpoll] at hanswer
  cases hanswer with
  | @quad q _ _ =>
      have hgives := h.gives (polled (h.steady t).placed t) (congrArg Prod.fst hpoll)
      rw [hpoll] at hgives
      exact .inl ⟨q, rfl, hgives⟩
  | @error e _ herror _ =>
      -- No row that is well formed gives an error.
      have hmem : .error e ∈ st.agenda.flatMap (·.items t) := by
        apply Paging.mem_of_mem_page
        rw [← howed, herror]
        exact List.mem_cons_self
      obtain ⟨s, -, hs⟩ := List.mem_flatMap.1 hmem
      obtain ⟨r, hr, hread⟩ := List.mem_filterMap.1 hs
      obtain ⟨q, hq⟩ := ht r (Table.mem_between_iff.1 (Cursor.mem_of_mem_cut hr)).1
      rw [Scan.readRow?, hq] at hread
      cases hpass : Scan.passes s.filter q <;> simp [hpass] at hread
  | fault hloud => exact absurd trivial hloud
  | done hnone hstopped =>
      refine .inr ⟨rfl, hstopped, ?_⟩
      rw [howed] at hnone
      intro s hs
      have hitems := List.flatMap_eq_nil_iff.1 (Paging.eq_nil_of_page hnone) s hs
      rw [Scan.items, h.limit hs] at hitems
      exact List.filterMap_eq_nil_iff.1 hitems

end ResultStream
end QuadIndex
