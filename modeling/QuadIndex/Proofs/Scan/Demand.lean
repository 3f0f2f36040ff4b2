import Mathlib.Data.List.Basic
import QuadIndex.Proofs.Scan.Agenda
import QuadIndex.Proofs.Scan.Cursors
import QuadIndex.Proofs.Table.Traversal

/-! # How far a stream reads

A stream reads the rows of its scans one after the other, and stops at the row of the item that it
is asked for. So an engine that counts rows and cursors tells after every item which row it came
from. -/

namespace QuadIndex

/-! ## Rows in order -/

/-- A row of one of several scans, which are numbered. -/
structure ScanRow where
  number : Nat
  filter : Option (List Predicate)
  entry : Entry

namespace ScanRow

def item? (r : ScanRow) : Option Item := Scan.readRow? r.filter r.entry

def counts (r : ScanRow) : Bool := r.item?.isSome

/-- The rows of all scans, one scan after the other. The first scan has the number `n`. -/
def ofScans (t : Table) : Nat → List Scan → List ScanRow
  | _, [] => []
  | n, s :: scans => (s.rows t).map (⟨n, s.filter, ·⟩) ++ ofScans t (n + 1) scans

theorem countP_of_unfiltered {rows : List ScanRow} (h : ∀ r ∈ rows, r.filter = none) :
    rows.countP counts = rows.length := by
  rw [List.countP_eq_length]
  intro r hr
  rw [counts, item?, Scan.readRow?, h r hr]
  cases Record.decode r.entry.2 <;> rfl

theorem filter_ofScans {scans : List Scan} (h : ∀ s ∈ scans, s.filter = none) (t : Table)
    (n : Nat) : ∀ r ∈ ofScans t n scans, r.filter = none := by
  induction scans generalizing n with
  | nil => nofun
  | cons s scans ih =>
      intro r hr
      rw [ofScans] at hr
      obtain ⟨hs, hscans⟩ := List.forall_mem_cons.1 h
      rcases List.mem_append.1 hr with hr | hr
      · obtain ⟨x, -, rfl⟩ := List.mem_map.1 hr
        exact hs
      · exact ih hscans (n + 1) r hr

end ScanRow

namespace FaultyEngine

variable {e e' : FaultyEngine} {c : FaultyCursor}

/-- The engine has no fault in store, and holds records that can all be read and counted. -/
structure Flawless (e : FaultyEngine) : Prop where
  quiet : e.Quiet
  decodes : ∀ x ∈ e.table.entries, ∃ q, Record.decode x.2 = .ok q
  countable : e.table.size ≤ Paging.maxCount

structure Unread (e e' : FaultyEngine) : Prop where
  flawless : e.Flawless → e'.Flawless
  table : e'.table = e.table
  rowsRead : e'.counters.rowsRead = e.counters.rowsRead
  cursorsOpened : e'.counters.cursorsOpened = e.counters.cursorsOpened

theorem Unread.trans {e'' : FaultyEngine} (h : Unread e e') (h' : Unread e' e'') : Unread e e'' :=
  ⟨h'.flawless ∘ h.flawless, h'.table.trans h.table, h'.rowsRead.trans h.rowsRead,
    h'.cursorsOpened.trans h.cursorsOpened⟩

theorem unread_close (c : FaultyCursor) (e : FaultyEngine) : Unread e (close c e).2 := by
  rw [close]
  split
  · exact ⟨fun h => ⟨⟨h.quiet.read, h.quiet.write, h.quiet.failAfter⟩, h.decodes, h.countable⟩,
      rfl, rfl, rfl⟩
  · exact ⟨id, rfl, rfl, rfl⟩

theorem Flawless.scan (h : e.Flawless) (r : KeyRange) : (scan r e).2.Flawless :=
  ⟨⟨h.quiet.read, h.quiet.write, h.quiet.failAfter⟩, h.decodes, h.countable⟩

theorem Flawless.rowRead (h : e.Flawless) : e.rowRead.Flawless :=
  ⟨⟨h.quiet.read, h.quiet.write, by simp [FaultyEngine.rowRead, h.quiet.failAfter]⟩, h.decodes,
    h.countable⟩

/-- While the engine is quiet an open cursor gives a row, or is closed at the end. -/
theorem next_cases_of_quiet (h : c.isOpen = true) (hquiet : e.Quiet) :
    (∃ x inner, c.inner.next e.table = (some x, inner) ∧
        next c e = (some (.ok x.2), { c with inner }, e.rowRead)) ∨
      ∃ inner, c.inner.next e.table = (none, inner) ∧
        next c e = (none, close { c with inner } e) := by
  have hread := readFault_of_quiet hquiet
  rcases next_cases h e with ⟨error, herror, -⟩ | ⟨-, hnext⟩
  · rw [hread] at herror
    contradiction
  · rwa [hread] at hnext

end FaultyEngine

/-! ## The rows ahead of a stream -/

/-- The rows of its range that an active scan has not read, whatever its cap. -/
def ActiveScan.left (a : ActiveScan FaultyCursor) (t : Table) : List Entry :=
  t.between a.cursor.inner.lower a.cursor.inner.upper

namespace ResultStream

open FaultyEngine (Flawless Unread)

variable {st st' : ResultStream FaultyCursor} {e e' : FaultyEngine}

/-- The rows that a stream has not read. The active scan is the one that was opened last. -/
def ahead (st : ResultStream FaultyCursor) (e : FaultyEngine) : List ScanRow :=
  (st.active.elim [] fun a =>
      (a.left e.table).map (⟨e.counters.cursorsOpened, a.filter, ·⟩)) ++
    ScanRow.ofScans e.table (e.counters.cursorsOpened + 1) st.pending

/-- The number of rows that count up to the end of the page. -/
def reach (st : ResultStream FaultyCursor) : Option Nat := st.remaining.map (st.skip + ·)

/-- An active scan whose cursor is open. Its cap, if it has one, leaves all of its rows, or as many
as are wanted; only scans without a filter have one. -/
structure Serves (reach : Option Nat) (t : Table) (a : ActiveScan FaultyCursor) : Prop where
  isOpen : a.cursor.isOpen = true
  tidy : a.cursor.inner.Tidy
  ample : ∀ cap, a.cursor.inner.remaining = some cap →
    a.filter = none ∧ ∃ n, reach = some n ∧ ((a.left t).length ≤ cap ∨ n ≤ cap)

/-- A stream of scans without limits that goes on, over an engine without flaws. -/
structure Reached (reach : Option Nat) (st : ResultStream FaultyCursor) (e : FaultyEngine) :
    Prop where
  ready : st.phase = .ready
  wanted : st.remaining ≠ some 0
  flawless : e.Flawless
  limits : ∀ s ∈ st.pending, s.range.limit = none
  active : ∀ a, st.active = some a → Serves reach e.table a

theorem Reached.placed {reach : Option Nat} (h : st.Reached reach e) :
    st.Placed FaultyEngine := by
  intro c hc
  obtain ⟨a, ha, rfl⟩ := Option.map_eq_some_iff.1 hc
  change (FaultyEngine.place a.cursor).Consistent
  rw [FaultyEngine.place_of_isOpen (h.active a ha).isOpen]
  exact (h.active a ha).tidy.consistent

/-- A cursor that has finished has no row left, since the rows of its cap were enough. -/
theorem Reached.left_of_finished {a : ActiveScan FaultyCursor} (h : st.Reached st.reach e)
    (ha : st.active = some a) (hfinished : a.cursor.inner.finished = true) :
    a.left e.table = [] := by
  rcases (h.active a ha).tidy.1 hfinished with hspent | hcrossed
  · obtain ⟨-, n, hn, hempty | hzero⟩ := (h.active a ha).ample 0 hspent
    · exact List.eq_nil_of_length_eq_zero (Nat.le_zero.1 hempty)
    · obtain ⟨m, hm, rfl⟩ := Option.map_eq_some_iff.1 hn
      obtain rfl : m = 0 := by omega
      exact absurd hm h.wanted
  · exact Table.between_eq_nil_of_crossed hcrossed e.table

theorem ahead_of_unread (h : Unread e e') (st : ResultStream FaultyCursor) :
    st.ahead e' = st.ahead e := by
  rw [ahead, ahead, h.table, h.cursorsOpened]

/-! ## Turns -/

/-- What turns read of the rows ahead: rows that are passed over, and, if an item comes, its row
after them. -/
inductive Reads (st : ResultStream FaultyCursor) (e : FaultyEngine) :
    Turn × ResultStream FaultyCursor × FaultyEngine → Prop
  | passed {read : List ScanRow} {st' : ResultStream FaultyCursor} {e' : FaultyEngine}
      (place : st'.Reached st'.reach e') (ahead : st.ahead e = read ++ st'.ahead e')
      (rows : e'.counters.rowsRead = e.counters.rowsRead + read.length)
      (skip : st.skip = read.countP ScanRow.counts + st'.skip)
      (remaining : st'.remaining = st.remaining) : Reads st e (.again, st', e')
  | gave {read rest : List ScanRow} {row : ScanRow} {q : Quad} {st' : ResultStream FaultyCursor}
      {e' : FaultyEngine} (ahead : st.ahead e = read ++ row :: rest)
      (skipped : read.countP ScanRow.counts = st.skip) (item : row.item? = some (.ok q))
      (rows : e'.counters.rowsRead = e.counters.rowsRead + read.length + 1)
      (number : row.number = e'.counters.cursorsOpened)
      (later : st'.Reached st'.reach e' ∧ st'.ahead e' = rest ∧ st'.skip = 0 ∧
          st'.remaining = st.remaining.map (· - 1) ∨
        st'.phase ≠ .ready ∧ st.remaining = some 1) :
      Reads st e (.give (some (.ok q)), st', e')
  | ended {st' : ResultStream FaultyCursor} {e' : FaultyEngine}
      (short : (st.ahead e).countP ScanRow.counts ≤ st.skip)
      (rows : e'.counters.rowsRead = e.counters.rowsRead + (st.ahead e).length)
      (stopped : st'.phase ≠ .ready) : Reads st e (.give none, st', e')

theorem reads_openScan {scan : Scan} {pending : List Scan} (h : st.Reached st.reach e)
    (ha : st.active = none) (hp : st.pending = scan :: pending) :
    Reads st e (.again, { st with pending }.openScan scan e) := by
  obtain ⟨hlimit, hlimits⟩ := List.forall_mem_cons.1 (hp ▸ h.limits)
  have hahead : st.ahead e = ({ st with pending }.openScan scan e).1.ahead
      ({ st with pending }.openScan scan e).2 := by
    rw [ahead, ha, hp]
    rfl
  have hflawless : ({ st with pending }.openScan scan e).2.Flawless :=
    h.flawless.scan { scan.range with limit := st.cap scan }
  refine @Reads.passed st e [] _ _ ⟨h.ready, h.wanted, hflawless, hlimits, ?_⟩ hahead
    rfl (Nat.zero_add _).symm rfl
  rintro a ⟨⟩
  refine ⟨rfl, Cursor.tidy_ofRange _, fun cap hcap => ?_⟩
  change st.cap scan = some cap at hcap
  rw [ResultStream.cap] at hcap
  split at hcap
  · next n hf hr =>
    obtain rfl := Option.some.inj hcap
    refine ⟨hf, st.skip + n, congrArg (Option.map (st.skip + ·)) hr, ?_⟩
    have hlen := Nat.le_trans (e.table.length_between_le scan.range.lower scan.range.upper)
      h.flawless.countable
    rw [Paging.addCounts, Nat.min_def]
    split
    · exact .inr (Nat.le_refl _)
    · exact .inl hlen
  · rw [hlimit] at hcap
    contradiction

/-- A row that is skipped brings the end of the page one row nearer. -/
theorem reach_of_skip {skip : Nat} (hs : st.skip = skip + 1) :
    ({ st with skip } : ResultStream FaultyCursor).reach = st.reach.map (· - 1) := by
  rw [reach, reach, hs]
  cases st.remaining <;> simp

theorem reach_of_give (hs : st.skip = 0) :
    ({ st with skip := 0, remaining := st.remaining.map (· - 1) } :
      ResultStream FaultyCursor).reach = st.reach.map (· - 1) := by
  rw [reach, reach, hs]
  cases st.remaining <;> simp

theorem eq_one_of_last {remaining : Option Nat} (hwanted : remaining ≠ some 0)
    (hlast : remaining.map (· - 1) = some 0) : remaining = some 1 := by
  obtain ⟨n, rfl, hn⟩ := Option.map_eq_some_iff.1 hlast
  have hne : n ≠ 0 := fun h => hwanted (congrArg some h)
  exact congrArg some (by omega)

/-- A decoded quad is accounted for. Here `before` is the stream before it read the row. -/
theorem reads_accept {before : ResultStream FaultyCursor} {e₀ : FaultyEngine}
    {a : ActiveScan FaultyCursor} {x : Entry} {q : Quad}
    (h : st.Reached (st.reach.map (· - 1)) e) (ha : st.active = some a)
    (hd : Record.decode x.2 = .ok q) (hskip : st.skip = before.skip)
    (hremaining : st.remaining = before.remaining)
    (hahead : before.ahead e₀ = ⟨e.counters.cursorsOpened, a.filter, x⟩ :: st.ahead e)
    (hrows : e.counters.rowsRead = e₀.counters.rowsRead + 1) :
    Reads before e₀ (st.accept a q e) := by
  let row : ScanRow := ⟨e.counters.cursorsOpened, a.filter, x⟩
  rw [accept]
  cases hpass : Scan.passes a.filter q with
  | false =>
      have hcounts : row.counts = false := by
        simp [row, ScanRow.counts, ScanRow.item?, Scan.readRow?, hd, hpass]
      refine @Reads.passed before e₀ [row] _ _
        ⟨h.ready, h.wanted, h.flawless, h.limits, ?_⟩ hahead hrows ?_ hremaining
      · -- A row is filtered out only where there is no cap.
        intro b hb
        obtain rfl := Option.some.inj (ha.symm.trans hb)
        have hserves := h.active a ha
        refine ⟨hserves.isOpen, hserves.tidy, fun cap hcap => ?_⟩
        rw [(hserves.ample cap hcap).1] at hpass
        contradiction
      · simp [hcounts, ← hskip, note]
  | true =>
      have hitem : row.item? = some (.ok q) := by
        simp [row, ScanRow.item?, Scan.readRow?, hd, hpass]
      have hcounts : row.counts = true := by rw [ScanRow.counts, hitem]; rfl
      cases hs : st.skip with
      | succ skip =>
          have hserves := h.active
          rw [← reach_of_skip hs] at hserves
          refine @Reads.passed before e₀ [row] _ _
            ⟨h.ready, h.wanted, h.flawless, h.limits, hserves⟩ hahead hrows ?_ hremaining
          simp [hcounts, ← hskip, hs, Nat.add_comm]
      | zero =>
          simp only [Bool.not_true, Bool.false_eq_true, if_false, Nat.lt_irrefl]
          have hskipped : ([] : List ScanRow).countP ScanRow.counts = before.skip :=
            (hskip.symm.trans hs).symm
          by_cases hlast : st.remaining.map (· - 1) = some 0
          · have hone : before.remaining = some 1 :=
              hremaining.symm.trans (eq_one_of_last h.wanted hlast)
            have hunread := FaultyEngine.unread_close a.cursor e
            have hrelease : ({ st with skip := 0, remaining := st.remaining.map (· - 1) } :
                ResultStream FaultyCursor).releaseActive e = (FaultyEngine.close a.cursor e).2 := by
              rw [releaseActive, ha]
              rfl
            rw [if_pos hlast, finish, hrelease]
            exact .gave hahead hskipped hitem (hunread.rowsRead.trans hrows)
              hunread.cursorsOpened.symm (.inr ⟨(by decide : Phase.done ≠ .ready), hone⟩)
          · have hserves := h.active
            rw [← reach_of_give hs] at hserves
            rw [if_neg hlast]
            exact .gave hahead hskipped hitem hrows rfl
              (.inl ⟨⟨h.ready, hlast, h.flawless, h.limits, hserves⟩, rfl, rfl,
                congrArg (Option.map (· - 1)) hremaining⟩)

/-- Where the active scan is past a row, one row less is within reach. -/
theorem Reached.past_row {a : ActiveScan FaultyCursor} {x : Entry} {ys : List Entry}
    (h : st.Reached st.reach e) (ha : st.active = some a) (hleft : a.left e.table = x :: ys) :
    ({ st with active := some { a with
        cursor := ⟨a.cursor.inner.past x.1, a.cursor.isOpen⟩, rows := a.rows + 1 } } :
      ResultStream FaultyCursor).Reached (st.reach.map (· - 1)) e.rowRead := by
  refine ⟨h.ready, h.wanted, h.flawless.rowRead, h.limits, ?_⟩
  rintro b ⟨⟩
  refine ⟨(h.active a ha).isOpen, Cursor.tidy_past _ _, fun cap hcap => ?_⟩
  obtain ⟨c, hc, rfl⟩ := Option.map_eq_some_iff.1 hcap
  obtain ⟨hf, n, hreach, hle⟩ := (h.active a ha).ample c hc
  rw [hleft, List.length_cons] at hle
  have hlast : (e.table.between (.exclusive x.1) a.cursor.inner.upper).length = ys.length :=
    congrArg List.length (Table.between_exclusive_of_cons hleft)
  refine ⟨hf, n - 1, congrArg (Option.map (· - 1)) hreach, ?_⟩
  exact hle.imp (fun hrows => Nat.le_trans (Nat.le_of_eq hlast) (Nat.le_sub_one_of_lt hrows))
    fun hn => Nat.sub_le_sub_right hn 1

theorem ahead_of_active {a : ActiveScan FaultyCursor} (ha : st.active = some a)
    (e : FaultyEngine) : st.ahead e =
      (a.left e.table).map (⟨e.counters.cursorsOpened, a.filter, ·⟩) ++
        ScanRow.ofScans e.table (e.counters.cursorsOpened + 1) st.pending := by
  rw [ahead, ha]
  rfl

theorem reads_row {a : ActiveScan FaultyCursor} {x : Entry} {inner : Cursor}
    (h : st.Reached st.reach e) (ha : st.active = some a)
    (hinner : a.cursor.inner.next e.table = (some x, inner))
    (hnext : Engine.next a.cursor e =
      (some (Except.ok x.2), { a.cursor with inner }, e.rowRead)) :
    Reads st e (st.advance a e) := by
  obtain ⟨_, hnone, -⟩ | ⟨y, ys, -, hleft, hsome⟩ := a.cursor.inner.next_cases e.table
  · cases hinner.symm.trans hnone
  · obtain ⟨hx, rfl⟩ := Prod.mk.inj (hinner.symm.trans hsome)
    obtain rfl := Option.some.inj hx
    have hmem : x ∈ a.left e.table := by
      rw [ActiveScan.left, hleft]
      exact List.mem_cons_self
    obtain ⟨q, hq⟩ := h.flawless.decodes x (Table.mem_between_iff.1 hmem).1
    rw [advance, hnext]
    simp only [hq]
    refine reads_accept (x := x) (h.past_row ha hleft) rfl hq rfl rfl ?_ rfl
    rw [ahead_of_active ha, ActiveScan.left, hleft, ← Table.between_exclusive_of_cons hleft]
    rfl

theorem reads_end {a : ActiveScan FaultyCursor} {inner : Cursor}
    (h : st.Reached st.reach e) (ha : st.active = some a)
    (hinner : a.cursor.inner.next e.table = (none, inner))
    (hnext : Engine.next a.cursor e =
      ((none : Option (Except EngineError Bytes)), FaultyEngine.close { a.cursor with inner } e)) :
    Reads st e (st.advance a e) := by
  have hleft : a.left e.table = [] := by
    obtain ⟨_, -, -, hfinished | hnone⟩ | ⟨y, ys, -, -, hsome⟩ :=
      a.cursor.inner.next_cases e.table
    · exact h.left_of_finished ha hfinished
    · exact hnone
    · cases hinner.symm.trans hsome
  let closed := FaultyEngine.close { a.cursor with inner } e
  have hunread : Unread e (FaultyEngine.close closed.1 closed.2).2 :=
    (FaultyEngine.unread_close _ e).trans (FaultyEngine.unread_close _ _)
  rw [advance, hnext]
  refine @Reads.passed st e [] _ _ ⟨h.ready, h.wanted, hunread.flawless h.flawless, h.limits, ?_⟩
    ?_ hunread.rowsRead (Nat.zero_add _).symm rfl
  · rintro b ⟨⟩
  · refine Eq.trans ?_ (ahead_of_unread hunread _).symm
    rw [ahead_of_active ha, hleft]
    rfl

theorem reads_advance {a : ActiveScan FaultyCursor} (h : st.Reached st.reach e)
    (ha : st.active = some a) : Reads st e (st.advance a e) := by
  rcases FaultyEngine.next_cases_of_quiet (h.active a ha).isOpen h.flawless.quiet with
    ⟨x, inner, hinner, hnext⟩ | ⟨inner, hinner, hnext⟩
  · exact reads_row h ha hinner hnext
  · exact reads_end h ha hinner hnext

theorem reads_turn (h : st.Reached st.reach e) : Reads st e (st.turn e) := by
  rw [turn, if_neg (not_not_intro h.ready)]
  split
  · next a ha => exact reads_advance h ha
  · next scan pending ha hp => exact reads_openScan h ha hp
  · next ha hp =>
    have hahead : st.ahead e = [] := by
      rw [ahead, ha, hp]
      rfl
    have hrelease : st.releaseActive e = e := by rw [releaseActive, ha]
    rw [finish, hrelease]
    refine .ended ?_ ?_ (by decide : Phase.done ≠ .ready)
    · rw [hahead]
      exact Nat.zero_le _
    · rw [hahead]
      rfl

/-! ## Polls -/

/-- What was passed over in a turn that gave nothing was read for the answer after it. -/
theorem Reads.trans {answer : Option Item} {out : ResultStream FaultyCursor × FaultyEngine}
    (h : Reads st e (.again, st', e')) (h' : Reads st' e' (.give answer, out)) :
    Reads st e (.give answer, out) := by
  cases h with
  | @passed read _ _ _ hahead hrows hskip hremaining =>
      cases h' with
      | @gave read' rest row q _ _ hahead' hskipped hitem hrows' hnumber hlater =>
          refine @Reads.gave st e (read ++ read') rest row q _ _ ?_ ?_ hitem ?_ hnumber
            (hremaining ▸ hlater)
          · rw [hahead, hahead', List.append_assoc]
          · rw [List.countP_append, hskipped, hskip]
          · rw [hrows', hrows, List.length_append]
            omega
      | ended hshort hrows' hstopped =>
          refine .ended ?_ ?_ hstopped
          · rw [hahead, List.countP_append, hskip]
            exact Nat.add_le_add_left hshort _
          · rw [hrows', hrows, hahead, List.length_append, Nat.add_assoc]

theorem Polled.reads {out : Option Item × ResultStream FaultyCursor × FaultyEngine}
    (h : Polled st e out) (hst : st.Reached st.reach e) : Reads st e (.give out.1, out.2) := by
  induction h with
  | answer heq => exact heq ▸ reads_turn hst
  | again heq _ ih =>
      have hturn := reads_turn hst
      rw [heq] at hturn
      have hplace := hturn
      cases hplace with
      | passed place => exact hturn.trans (ih place)

/-- A stream and its engine after `k` polls. -/
def afterPolls {σ κ : Type} [Engine σ κ] (k : Nat) (st : ResultStream κ) (s : σ) :
    ResultStream κ × σ :=
  (StreamCall.performAll st s (List.replicate k .poll)).2

theorem afterPolls_succ {σ κ : Type} [Engine σ κ] (k : Nat) (st : ResultStream κ) (s : σ) :
    afterPolls (k + 1) st s = afterPolls k (st.poll s).2.1 (st.poll s).2.2 := rfl

theorem afterPolls_of_not_ready (h : st.phase ≠ .ready) (k : Nat) (e : FaultyEngine) :
    afterPolls k st e = (st, e) := by
  induction k with
  | zero => rfl
  | succ k ih => rw [afterPolls_succ, poll_of_not_ready h, ih]

theorem Reached.row_of_item {item : Item} (h : st.Reached st.reach e) (k : Nat)
    (hpoll : (afterPolls k st e).1.poll (afterPolls k st e).2 = (some item, st', e')) :
    ∃ (q : Quad) (read rest : List ScanRow) (row : ScanRow),
      item = .ok q ∧ st.ahead e = read ++ row :: rest ∧ row.item? = some (.ok q) ∧
      read.countP ScanRow.counts = st.skip + k ∧
      e'.counters.rowsRead = e.counters.rowsRead + read.length + 1 ∧
      e'.counters.cursorsOpened = row.number := by
  induction k generalizing st e with
  | zero =>
      have hreads := (polled h.placed e).reads h
      have hout : st.poll e = (some item, st', e') := hpoll
      rw [hout] at hreads
      cases hreads with
      | gave hahead hskipped hitem hrows hnumber =>
          exact ⟨_, _, _, _, rfl, hahead, hitem, hskipped, hrows, hnumber.symm⟩
  | succ k ih =>
      have hreads := (polled h.placed e).reads h
      rw [afterPolls_succ] at hpoll
      generalize st.poll e = out at hreads hpoll
      obtain ⟨answer, st₁, e₁⟩ := out
      have hstopped (hphase : st₁.phase ≠ .ready) : False := by
        rw [afterPolls_of_not_ready hphase, poll_of_not_ready hphase] at hpoll
        cases hpoll
      cases hreads with
      | @gave read rest row _ _ _ hahead hskipped hitem hrows _ hlater =>
          rcases hlater with ⟨hplace, hrest, hskip, -⟩ | ⟨hphase, -⟩
          · obtain ⟨q, read', rest', row', hq, hahead', hitem', hcount, hrows', hnumber⟩ :=
              ih hplace hpoll
            refine ⟨q, read ++ row :: read', rest', row', hq, ?_, hitem', ?_, ?_, hnumber⟩
            · rw [hahead, ← hrest, hahead', List.append_assoc]
              rfl
            · have hcounts : row.counts = true := by rw [ScanRow.counts, hitem]; rfl
              rw [List.countP_append, List.countP_cons_of_pos hcounts, hcount, hskipped, hskip]
              omega
            · rw [hrows', hrows, List.length_append, List.length_cons]
              omega
          · exact (hstopped hphase).elim
      | ended _ _ hphase => exact (hstopped hphase).elim

/-- When as many items were asked for as the page has, the stream has stopped. -/
theorem Reached.phase_afterPolls {n k : Nat} (h : st.Reached st.reach e)
    (hn : st.remaining = some n) (hk : n ≤ k) : (afterPolls k st e).1.phase ≠ .ready := by
  induction k generalizing st e n with
  | zero =>
      obtain rfl := Nat.le_zero.1 hk
      exact absurd hn h.wanted
  | succ k ih =>
      have hreads := (polled h.placed e).reads h
      rw [afterPolls_succ]
      generalize st.poll e = out at hreads ⊢
      obtain ⟨answer, st₁, e₁⟩ := out
      have hstopped (hphase : st₁.phase ≠ .ready) : (afterPolls k st₁ e₁).1.phase ≠ .ready := by
        rwa [afterPolls_of_not_ready hphase]
      cases hreads with
      | gave _ _ _ _ _ hlater =>
          rcases hlater with ⟨hplace, -, -, hremaining⟩ | ⟨hphase, -⟩
          · rw [hn] at hremaining
            exact ih hplace hremaining (Nat.sub_le_of_le_add hk)
          · exact hstopped hphase
      | ended _ _ hphase => exact hstopped hphase

/-- Where every row counts, no more rows are read than the page can reach. -/
theorem Reached.rowsRead_le {n : Nat} (h : st.Reached st.reach e) (hn : st.remaining = some n)
    (hunfiltered : ∀ r ∈ st.ahead e, r.filter = none) (k : Nat) :
    (afterPolls k st e).2.counters.rowsRead ≤ e.counters.rowsRead + (st.skip + n) := by
  induction k generalizing st e n with
  | zero => exact Nat.le_add_right _ _
  | succ k ih =>
      have hreads := (polled h.placed e).reads h
      rw [afterPolls_succ]
      generalize st.poll e = out at hreads ⊢
      obtain ⟨answer, st₁, e₁⟩ := out
      cases hreads with
      | @gave read rest row _ _ _ hahead hskipped _ hrows _ hlater =>
          rw [hahead] at hunfiltered
          obtain ⟨hread, hrest⟩ := List.forall_mem_append.1 hunfiltered
          rw [ScanRow.countP_of_unfiltered hread] at hskipped
          have hpos : n ≠ 0 := fun hzero => h.wanted (hzero ▸ hn)
          rcases hlater with ⟨hplace, hahead', hskip, hremaining⟩ | ⟨hphase, -⟩
          · rw [hn] at hremaining
            have hle := ih hplace hremaining (hahead' ▸ (List.forall_mem_cons.1 hrest).2)
            rw [hskip] at hle
            dsimp only at hrows hle ⊢
            omega
          · rw [afterPolls_of_not_ready hphase]
            dsimp only at hrows ⊢
            omega
      | ended hshort hrows hphase =>
          rw [ScanRow.countP_of_unfiltered hunfiltered] at hshort
          rw [afterPolls_of_not_ready hphase]
          dsimp only at hrows ⊢
          omega

/-! ## Streams from their start -/

theorem reached_ofScans {scans : List Scan} {paging : Paging} (he : e.Flawless)
    (hlimits : ∀ s ∈ scans, s.range.limit = none) (hwanted : paging.limit ≠ some 0) :
    (ofScans scans paging : ResultStream FaultyCursor).Reached (ofScans scans paging).reach e := by
  rw [ofScans, if_neg hwanted]
  refine ⟨rfl, hwanted, he, hlimits, ?_⟩
  rintro a ⟨⟩

theorem ahead_ofScans (scans : List Scan) {paging : Paging} (hwanted : paging.limit ≠ some 0)
    (e : FaultyEngine) : (ofScans scans paging).ahead e =
      ScanRow.ofScans e.table (e.counters.cursorsOpened + 1) scans := by
  rw [ofScans, if_neg hwanted]
  rfl

/-- Nothing is read before the first poll. The item of each poll comes from a row before which as
many rows counted as were passed over or given; the rows read are those up to this one, and the
cursors opened those up to its scan. Once the page is full, polls read nothing; and where there is
no filter, no more rows are read than the page has and passes over. -/
theorem reads_on_demand (scans : List Scan) (paging : Paging) (he : e.Flawless)
    (hlimits : ∀ s ∈ scans, s.range.limit = none) (hrows : e.counters.rowsRead = 0)
    (hcursors : e.counters.cursorsOpened = 0) :
    let rows := ScanRow.ofScans e.table 1 scans
    let seen (k : Nat) := afterPolls k (ofScans scans paging) e
    ((seen 0).2.counters.rowsRead = 0 ∧ (seen 0).2.counters.cursorsOpened = 0) ∧
      (∀ k item st' e', (seen k).1.poll (seen k).2 = (some item, st', e') →
        ∃ (q : Quad) (read rest : List ScanRow) (row : ScanRow),
          item = .ok q ∧ rows = read ++ row :: rest ∧ row.item? = some (.ok q) ∧
          read.countP ScanRow.counts = paging.offset + k ∧
          e'.counters.rowsRead = read.length + 1 ∧
          e'.counters.cursorsOpened = row.number) ∧
      (∀ n, paging.limit = some n → ∀ k, n ≤ k →
        (seen k).1.poll (seen k).2 = (none, seen k)) ∧
      ((∀ s ∈ scans, s.filter = none) → ∀ n, paging.limit = some n → ∀ k,
        (seen k).2.counters.rowsRead ≤ paging.offset + n) := by
  intro rows seen
  by_cases hwanted : paging.limit = some 0
  · have hphase : (ofScans scans paging : ResultStream FaultyCursor).phase ≠ .ready :=
      phase_ofScans_zero hwanted
    have hseen (k : Nat) : seen k = (ofScans scans paging, e) := afterPolls_of_not_ready hphase k e
    have hpoll (k : Nat) : (seen k).1.poll (seen k).2 = (none, seen k) := by
      rw [hseen]
      exact poll_of_not_ready hphase e
    refine ⟨⟨hrows, hcursors⟩, fun k item st' e' hitem => ?_, fun _ _ k _ => hpoll k,
      fun _ _ _ k => ?_⟩
    · rw [hpoll] at hitem
      cases hitem
    · rw [hseen, hrows]
      exact Nat.zero_le _
  · have hstart := reached_ofScans he hlimits hwanted
    have hahead : (ofScans scans paging).ahead e = rows := by
      rw [ahead_ofScans scans hwanted, hcursors]
    have hskip : (ofScans scans paging : ResultStream FaultyCursor).skip = paging.offset := by
      rw [ofScans, if_neg hwanted]
    have hremaining : (ofScans scans paging : ResultStream FaultyCursor).remaining =
        paging.limit := by
      rw [ofScans, if_neg hwanted]
    refine ⟨⟨hrows, hcursors⟩, fun k item st' e' hitem => ?_, fun n hn k hk => ?_,
      fun hfilter n hn k => ?_⟩
    · simpa only [hahead, hskip, hrows, Nat.zero_add] using hstart.row_of_item k hitem
    · exact poll_of_not_ready (hstart.phase_afterPolls (hremaining.trans hn) hk) _
    · have hle := hstart.rowsRead_le (hremaining.trans hn)
        (hahead ▸ ScanRow.filter_ofScans hfilter e.table 1) k
      rwa [hskip, hrows, Nat.zero_add] at hle

/-- The second item of a page comes from the first row of the second scan. -/
theorem reads_on_demand_second :
    let e : FaultyEngine := { FaultyEngine.make (fun _ => 0) .none with
      table := (Table.empty.insert [0] (Record.encode ⟨"s", "p", "o", "g"⟩)).insert [1]
        (Record.encode ⟨"t", "p", "o", "g"⟩) }
    let scan : Scan := ⟨"SPOG", ⟨.unbounded, .unbounded, none⟩, none⟩
    let seen (k : Nat) := afterPolls k (ofScans [scan, scan] ⟨1, some 2⟩) e
    let out := (seen 1).1.poll (seen 1).2
    out.1 = some (.ok ⟨"s", "p", "o", "g"⟩) ∧
      (∃ (read rest : List ScanRow) (row : ScanRow),
        ScanRow.ofScans e.table 1 [scan, scan] = read ++ row :: rest ∧
        row.item? = some (.ok ⟨"s", "p", "o", "g"⟩) ∧ read.length = 2 ∧ row.number = 2) ∧
      (seen 2).1.poll (seen 2).2 = (none, seen 2) ∧ (seen 2).2.counters.rowsRead ≤ 1 + 2 := by
  intro e scan seen out
  have hflawless : e.Flawless := by
    have hentries : e.table.entries = [([0], Record.encode ⟨"s", "p", "o", "g"⟩),
        ([1], Record.encode ⟨"t", "p", "o", "g"⟩)] := rfl
    have hquiet : e.Quiet := ⟨rfl, rfl, rfl⟩
    have hs : Record.decode (Record.encode ⟨"s", "p", "o", "g"⟩) = .ok ⟨"s", "p", "o", "g"⟩ := by
      decide +kernel
    have ht : Record.decode (Record.encode ⟨"t", "p", "o", "g"⟩) = .ok ⟨"t", "p", "o", "g"⟩ := by
      decide +kernel
    have hsize : e.table.size ≤ Paging.maxCount := by decide
    refine ⟨hquiet, ?_, hsize⟩
    rw [hentries, List.forall_mem_cons, List.forall_mem_singleton]
    exact ⟨⟨_, hs⟩, _, ht⟩
  have hzero : e.counters.rowsRead = 0 ∧ e.counters.cursorsOpened = 0 := ⟨rfl, rfl⟩
  have hscans : ∀ s ∈ [scan, scan], s.range.limit = none ∧ s.filter = none := by decide
  have hitem : out.1 = some (.ok ⟨"s", "p", "o", "g"⟩) := by decide +kernel
  have hread : out.2.2.counters.rowsRead = 3 ∧ out.2.2.counters.cursorsOpened = 2 := by
    decide +kernel
  -- What is left to say does not depend on what the engine holds.
  clear_value e scan
  obtain ⟨-, hrow, hfull, hbound⟩ := reads_on_demand [scan, scan] ⟨1, some 2⟩ hflawless
    (fun s hs => (hscans s hs).1) hzero.1 hzero.2
  obtain ⟨q, read, rest, row, hq, hrows, hrow, -, hlength, hnumber⟩ :=
    hrow 1 _ out.2.1 out.2.2 (Prod.ext hitem rfl)
  obtain rfl := Except.ok.inj hq
  refine ⟨hitem, ⟨read, rest, row, hrows, hrow, ?_, ?_⟩, hfull 2 rfl 2 (Nat.le_refl 2),
    hbound (fun s hs => (hscans s hs).2) 2 rfl 2⟩
  · exact Nat.succ.inj (hlength.symm.trans hread.1)
  · exact hnumber.symm.trans hread.2

end ResultStream
end QuadIndex
