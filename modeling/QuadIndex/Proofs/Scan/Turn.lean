import QuadIndex.Proofs.Engine.Lawful
import QuadIndex.Scan.Stream

/-! # The turns of a stream

What a turn can come to is said once. A poll is turns until one of them answers, and a drain is
polls until one of them gives no quad: each one before takes some work away, so neither lacks
fuel. -/

namespace QuadIndex.ResultStream

open LawfulEngine (place)

variable {σ κ : Type}

/-! ## One turn -/

/-- The cursor that a stream holds. -/
def cursor? (st : ResultStream κ) : Option κ := st.active.map (·.cursor)

/-- A stream that goes on, with what it has still to read and to give. -/
structure Going (st : ResultStream κ) (pending : List Scan) (cursor : Option κ)
    (remaining : Option Nat) : Prop where
  phase : st.phase = .ready
  pending : st.pending = pending
  cursor : st.cursor? = cursor
  remaining : st.remaining = remaining

/-- A stream that has stopped has nothing more to read and holds no cursor. -/
structure Stopped (st : ResultStream κ) (remaining : Option Nat) : Prop where
  phase : st.phase ≠ .ready
  pending : st.pending = []
  cursor : st.cursor? = none
  remaining : st.remaining = remaining

theorem going_of_ready {st : ResultStream κ} (h : st.phase = .ready) :
    st.Going st.pending st.cursor? st.remaining :=
  ⟨h, rfl, rfl, rfl⟩

section Turned

variable [Engine σ κ]

/-- What a turn comes to. Whenever a stream loses its cursor, the cursor is released. -/
inductive Turned (st : ResultStream κ) (s : σ) : Turn × ResultStream κ × σ → Prop
  | idle (phase : st.phase ≠ .ready) : Turned st s (.give none, st, s)
  | ended {st' : ResultStream κ} {remaining : Option Nat} (before : st.Going [] none remaining)
      (after : st'.Stopped remaining) : Turned st s (.give none, st', s)
  | opened {st' : ResultStream κ} {scan : Scan} {pending : List Scan} {remaining cap : Option Nat}
      (before : st.Going (scan :: pending) none remaining)
      (after : st'.Going pending (some (Engine.scan { scan.range with limit := cap } s).1)
        remaining) :
      Turned st s (.again, st', (Engine.scan { scan.range with limit := cap } s).2)
  | exhausted {st' : ResultStream κ} {pending : List Scan} {c c' : κ} {remaining : Option Nat}
      {s' : σ} (before : st.Going pending (some c) remaining)
      (next : Engine.next c s = (none, c', s')) (after : st'.Going pending none remaining) :
      Turned st s (.again, st', Engine.release c' s')
  | failed {st' : ResultStream κ} {pending : List Scan} {c c' : κ} {remaining : Option Nat}
      {s' : σ} {row : Except EngineError Bytes} {e : QueryError}
      (before : st.Going pending (some c) remaining)
      (next : Engine.next c s = (some row, c', s')) (after : st'.Stopped remaining) :
      Turned st s (.give (some (.error e)), st', Engine.release c' s')
  | passed {st' : ResultStream κ} {pending : List Scan} {c c' : κ} {remaining : Option Nat}
      {s' : σ} {value : Bytes} (before : st.Going pending (some c) remaining)
      (next : Engine.next c s = (some (.ok value), c', s'))
      (after : st'.Going pending (some c') remaining) : Turned st s (.again, st', s')
  | gave {st' : ResultStream κ} {pending : List Scan} {c c' : κ} {remaining : Option Nat} {s' : σ}
      {value : Bytes} {q : Quad} (before : st.Going pending (some c) remaining)
      (next : Engine.next c s = (some (.ok value), c', s'))
      (wanted : remaining.map (· - 1) ≠ some 0)
      (after : st'.Going pending (some c') (remaining.map (· - 1))) :
      Turned st s (.give (some (.ok q)), st', s')
  | last {st' : ResultStream κ} {pending : List Scan} {c c' : κ} {remaining : Option Nat} {s' : σ}
      {value : Bytes} {q : Quad} (before : st.Going pending (some c) remaining)
      (next : Engine.next c s = (some (.ok value), c', s'))
      (wanted : remaining.map (· - 1) = some 0)
      (after : st'.Stopped (remaining.map (· - 1))) :
      Turned st s (.give (some (.ok q)), st', Engine.release c' s')

theorem stopped_finish {phase : Phase} (h : phase ≠ .ready) (st : ResultStream κ) (s : σ) :
    (st.finish phase s).1.Stopped st.remaining :=
  ⟨h, rfl, rfl, rfl⟩

theorem turned_accept (st : ResultStream κ) {before : ResultStream κ} {s s₀ : σ}
    {a : ActiveScan κ} {c : κ} {value : Bytes} (hready : st.phase = .ready)
    (ha : st.active = some a)
    (hbefore : before.Going st.pending (some c) st.remaining)
    (hnext : Engine.next c s₀ = (some (.ok value), a.cursor, s)) (q : Quad) :
    Turned before s₀ (st.accept a q s) := by
  have hcursor : st.cursor? = some a.cursor := by
    rw [cursor?, ha]
    rfl
  rw [accept]
  split
  · exact .passed hbefore hnext ⟨hready, rfl, hcursor, rfl⟩
  · split
    · exact .passed hbefore hnext ⟨hready, rfl, hcursor, rfl⟩
    · by_cases hlast : st.remaining.map (· - 1) = some 0
      · have hrelease : ({ st with remaining := st.remaining.map (· - 1) } :
            ResultStream κ).releaseActive s = Engine.release a.cursor s := by
          rw [releaseActive, ha]
        have hstopped := stopped_finish (by decide : Phase.done ≠ .ready)
          { st with remaining := st.remaining.map (· - 1) } s
        simp only [if_pos hlast, finish, hrelease]
        exact .last hbefore hnext hlast hstopped
      · simp only [if_neg hlast]
        exact .gave hbefore hnext hlast ⟨hready, rfl, hcursor, rfl⟩

theorem turned_fail (st : ResultStream κ) {before : ResultStream κ} {s s₀ : σ}
    {a : ActiveScan κ} {c : κ} {row : Except EngineError Bytes} (ha : st.active = some a)
    (hbefore : before.Going st.pending (some c) st.remaining)
    (hnext : Engine.next c s₀ = (some row, a.cursor, s)) (indexName : String) (e : QueryError) :
    Turned before s₀ (st.fail indexName e s) := by
  have hrelease : (st.note (.failed indexName e)).releaseActive s = Engine.release a.cursor s := by
    rw [releaseActive, note, ha]
  rw [fail, finish, hrelease]
  exact .failed hbefore hnext (stopped_finish (by decide) _ s)

theorem turned (st : ResultStream κ) (s : σ) : Turned st s (st.turn s) := by
  rw [turn]
  by_cases hready : st.phase = .ready
  · rw [if_neg (not_not_intro hready)]
    split
    · next a ha =>
      have hbefore : st.Going st.pending (some a.cursor) st.remaining :=
        ⟨hready, rfl, by rw [cursor?, ha]; rfl, rfl⟩
      rw [advance]
      split
      · next cursor s' hn => exact .exhausted hbefore hn ⟨hready, rfl, rfl, rfl⟩
      · next e cursor s' hn =>
        exact turned_fail { st with active := some { a with cursor } } rfl hbefore hn _ _
      · next value cursor s' hn =>
        let read : ResultStream κ :=
          { st with active := some { a with cursor, rows := a.rows + 1 } }
        split
        · exact turned_fail read rfl hbefore hn _ _
        · exact turned_accept read hready rfl hbefore hn _
    · next scan pending ha hp =>
      exact .opened ⟨hready, hp, by rw [cursor?, ha]; rfl, rfl⟩ ⟨hready, rfl, rfl, rfl⟩
    · next ha hp =>
      have hrelease : st.releaseActive s = s := by rw [releaseActive, ha]
      rw [finish, hrelease]
      exact .ended ⟨hready, hp, by rw [cursor?, ha]; rfl, rfl⟩ ⟨nofun, rfl, rfl, rfl⟩
  · rw [if_pos hready]
    exact .idle hready

theorem turned_of_eq {st : ResultStream κ} {s : σ} {out : Turn × ResultStream κ × σ}
    (h : st.turn s = out) : Turned st s out :=
  h ▸ turned st s

end Turned

/-! ## Work -/

/-- A bound for the turns until a stream has read everything. -/
def work (σ : Type) {κ : Type} [Engine σ κ] [LawfulEngine σ κ] (t : Table)
    (st : ResultStream κ) : Nat :=
  (st.active.elim 0 fun a => ((place σ a.cursor).rest t).length + 1) +
    st.pending.length * (t.size + 2)

/-- The cursor of a stream says that it has finished once no row is left to its limit. -/
def Placed (σ : Type) {κ : Type} [Engine σ κ] [LawfulEngine σ κ] (st : ResultStream κ) : Prop :=
  ∀ c, st.cursor? = some c → (place σ c).Consistent

section Work

variable [Engine σ κ] [LawfulEngine σ κ] {st st' : ResultStream κ} {s s' : σ}
  {pending : List Scan} {cursor : Option κ} {remaining : Option Nat} {t : Table}

theorem Going.work_eq (h : st.Going pending cursor remaining) (t : Table) :
    st.work σ t = (cursor.elim 0 fun c => ((place σ c).rest t).length + 1) +
      pending.length * (t.size + 2) := by
  rw [work, ← h.pending, ← h.cursor, cursor?]
  cases st.active <;> rfl

theorem Stopped.work_eq (h : st.Stopped remaining) (t : Table) : st.work σ t = 0 := by
  have hactive : st.active = none := Option.map_eq_none_iff.1 h.cursor
  simp [work, h.pending, hactive]

theorem Stopped.placed (h : st.Stopped remaining) : st.Placed σ := by
  intro c hc
  rw [h.cursor] at hc
  contradiction

/-- A scan takes more work than the cursor that is opened for it. -/
theorem work_openScan {scan : Scan} {c : κ} (hbefore : st.Going (scan :: pending) none remaining)
    (hafter : st'.Going pending (some c) remaining) : st'.work σ t < st.work σ t := by
  have hlen := Cursor.length_rest_le (place σ c) t
  rw [hbefore.work_eq, hafter.work_eq, List.length_cons, Nat.add_mul]
  simp only [Option.elim_some, Option.elim_none]
  omega

/-- A row that is read is not left any more. -/
theorem work_row {c c' : κ} {value : Bytes} (hc : (place σ c).Consistent)
    (hbefore : st.Going pending (some c) remaining)
    (hnext : Engine.next c s = (some (.ok value), c', s')) {remaining' : Option Nat}
    (hafter : st'.Going pending (some c') remaining') :
    st'.work σ (Engine.table s) < st.work σ (Engine.table s) := by
  obtain ⟨-, k, hrest⟩ := LawfulEngine.rest_of_next_ok hc hnext
  rw [hbefore.work_eq, hafter.work_eq]
  simp only [Option.elim_some, hrest, List.length_cons]
  omega

theorem Turned.table_eq {out : Turn × ResultStream κ × σ} (h : Turned st s out) :
    Engine.table out.2.2 = Engine.table s := by
  have hnext {c c' : κ} {row : Option (Except EngineError Bytes)} {s' : σ}
      (hn : Engine.next c s = (row, c', s')) : Engine.table s' = Engine.table s := by
    have ht := LawfulEngine.table_next c s
    rwa [hn] at ht
  cases h with
  | idle | ended => rfl
  | opened => exact LawfulEngine.table_scan _ s
  | exhausted _ hn => exact (LawfulEngine.table_release _ _).trans (hnext hn)
  | failed _ hn => exact (LawfulEngine.table_release _ _).trans (hnext hn)
  | passed _ hn => exact hnext hn
  | gave _ hn => exact hnext hn
  | last _ hn => exact (LawfulEngine.table_release _ _).trans (hnext hn)

theorem Turned.placed {out : Turn × ResultStream κ × σ} (h : Turned st s out)
    (hst : st.Placed σ) : out.2.1.Placed σ := by
  cases h with
  | idle => exact hst
  | ended _ hafter => exact hafter.placed
  | opened _ hafter =>
      intro c hc
      rw [hafter.cursor] at hc
      rw [← Option.some.inj hc, LawfulEngine.place_scan]
      exact Cursor.consistent_ofRange _
  | exhausted _ _ hafter =>
      intro c hc
      rw [hafter.cursor] at hc
      contradiction
  | failed _ _ hafter => exact hafter.placed
  | passed hbefore hn hafter | gave hbefore hn _ hafter =>
      intro c hc
      rw [hafter.cursor] at hc
      rw [← Option.some.inj hc]
      exact (LawfulEngine.rest_of_next_ok (hst _ hbefore.cursor) hn).1
  | last _ _ _ hafter => exact hafter.placed

/-- A turn that gives no answer, or gives a quad, takes work away. -/
theorem Turned.work_lt {turn : Turn} (h : Turned st s (turn, st', s')) (hst : st.Placed σ)
    (ht : turn = .again ∨ ∃ q, turn = .give (some (.ok q))) :
    st'.work σ (Engine.table s) < st.work σ (Engine.table s) := by
  cases h with
  | idle => simp at ht
  | ended => simp at ht
  | opened hbefore hafter => exact work_openScan hbefore hafter
  | exhausted hbefore hn hafter =>
      rw [hbefore.work_eq, hafter.work_eq]
      simp only [Option.elim_some, Option.elim_none]
      omega
  | failed => simp at ht
  | passed hbefore hn hafter => exact work_row (hst _ hbefore.cursor) hbefore hn hafter
  | gave hbefore hn _ hafter => exact work_row (hst _ hbefore.cursor) hbefore hn hafter
  | last hbefore hn _ hafter =>
      rw [hbefore.work_eq, hafter.work_eq]
      simp only [Option.elim_some]
      omega

omit [LawfulEngine σ κ] in
theorem Turned.phase_of_error {out : Turn × ResultStream κ × σ} (h : Turned st s out)
    {e : QueryError} (he : out.1 = .give (some (.error e))) : out.2.1.phase ≠ .ready := by
  cases h with
  | failed _ _ hafter => exact hafter.phase
  | _ => simp at he

theorem work_lt_turnBound (st : ResultStream κ) (s : σ) :
    st.work σ (Engine.table s) < st.turnBound s := by
  have hactive : st.active.elim 0
      (fun a => ((place σ a.cursor).rest (Engine.table s)).length + 1) ≤
        (Engine.table s).size + 1 := by
    cases st.active with
    | none => exact Nat.zero_le _
    | some a => exact Nat.succ_le_succ (Cursor.length_rest_le _ _)
  rw [work, turnBound, Nat.add_mul, Nat.one_mul]
  omega

end Work

/-! ## Polls -/

section Polled

variable [Engine σ κ]

/-- A poll is turns that come to nothing, and one that answers. -/
inductive Polled : ResultStream κ → σ → Option Item × ResultStream κ × σ → Prop
  | answer {st st' : ResultStream κ} {s s' : σ} {item : Option Item}
      (turn : st.turn s = (.give item, st', s')) : Polled st s (item, st', s')
  | again {st st' : ResultStream κ} {s s' : σ} {out : Option Item × ResultStream κ × σ}
      (turn : st.turn s = (.again, st', s')) (rest : Polled st' s' out) : Polled st s out

theorem poll_of_not_ready {st : ResultStream κ} (h : st.phase ≠ .ready) (s : σ) :
    st.poll s = (none, st, s) := by
  have ht : st.turn s = (.give none, st, s) := if_pos h
  rw [poll, turnBound, pollUpTo, ht]

theorem drainUpTo_of_not_ready {st : ResultStream κ} (fuel : Nat) (h : st.phase ≠ .ready) (s : σ) :
    st.drainUpTo fuel s = ([], st, s) := by
  cases fuel with
  | zero => rfl
  | succ fuel => rw [drainUpTo, poll_of_not_ready h]

variable {st : ResultStream κ} {s : σ}

/-- What every turn keeps, a poll keeps. -/
theorem Polled.keeps {P : ResultStream κ → σ → Prop}
    (hturn : ∀ st s, P st s → P (st.turn s).2.1 (st.turn s).2.2)
    {out : Option Item × ResultStream κ × σ} (h : Polled st s out) (hst : P st s) :
    P out.2.1 out.2.2 := by
  induction h with
  | answer heq =>
      have hkept := hturn _ _ hst
      rwa [heq] at hkept
  | again heq _ ih =>
      have hkept := hturn _ _ hst
      rw [heq] at hkept
      exact ih hkept

theorem Polled.phase_of_error {out : Option Item × ResultStream κ × σ} (h : Polled st s out)
    {e : QueryError} (he : out.1 = some (.error e)) : out.2.1.phase ≠ .ready := by
  induction h with
  | answer heq => exact (turned_of_eq heq).phase_of_error (congrArg Turn.give he)
  | again _ _ ih => exact ih he

variable [LawfulEngine σ κ]

theorem polled_pollUpTo (fuel : Nat) (hst : st.Placed σ)
    (hfuel : st.work σ (Engine.table s) < fuel) : Polled st s (st.pollUpTo fuel s) := by
  induction fuel generalizing st s with
  | zero => exact absurd hfuel (Nat.not_lt_zero _)
  | succ fuel ih =>
      rw [pollUpTo]
      split
      · next st' s' heq =>
        have hturn := turned_of_eq heq
        have hless := Nat.lt_of_lt_of_le (hturn.work_lt hst (.inl rfl)) (Nat.le_of_lt_succ hfuel)
        rw [← hturn.table_eq] at hless
        exact .again heq (ih (hturn.placed hst) hless)
      · next item st' s' heq => exact .answer heq

theorem polled (hst : st.Placed σ) (s : σ) : Polled st s (st.poll s) :=
  polled_pollUpTo _ hst (work_lt_turnBound st s)

theorem Polled.table_eq {out : Option Item × ResultStream κ × σ} (h : Polled st s out) :
    Engine.table out.2.2 = Engine.table s :=
  h.keeps (P := fun _ s' => Engine.table s' = Engine.table s)
    (fun st s' hs' => (turned st s').table_eq.trans hs') rfl

theorem Polled.placed {out : Option Item × ResultStream κ × σ} (h : Polled st s out)
    (hst : st.Placed σ) : out.2.1.Placed σ :=
  h.keeps (P := fun st _ => st.Placed σ) (fun st s hst => (turned st s).placed hst) hst

theorem Polled.work_lt {out : Option Item × ResultStream κ × σ} (h : Polled st s out)
    (hst : st.Placed σ) {q : Quad} (hq : out.1 = some (.ok q)) :
    out.2.1.work σ (Engine.table s) < st.work σ (Engine.table s) := by
  induction h with
  | answer heq => exact (turned_of_eq heq).work_lt hst (.inr ⟨q, congrArg Turn.give hq⟩)
  | again heq _ ih =>
      have hturn := turned_of_eq heq
      have hless := ih (hturn.placed hst) hq
      rw [hturn.table_eq] at hless
      exact Nat.lt_trans hless (hturn.work_lt hst (.inl rfl))

end Polled

/-! ## Drains -/

section Drained

variable [Engine σ κ]

/-- A drain is polls that give quads, and one that ends it or fails. -/
inductive Drained : ResultStream κ → σ → List Item × ResultStream κ × σ → Prop
  | ended {st st' : ResultStream κ} {s s' : σ} (last : Polled st s (none, st', s')) :
      Drained st s ([], st', s')
  | failed {st st' : ResultStream κ} {s s' : σ} {e : QueryError}
      (last : Polled st s (some (.error e), st', s')) : Drained st s ([.error e], st', s')
  | gave {st st' : ResultStream κ} {s s' : σ} {q : Quad} {out : List Item × ResultStream κ × σ}
      (first : Polled st s (some (.ok q), st', s')) (rest : Drained st' s' out) :
      Drained st s (.ok q :: out.1, out.2)

variable {st : ResultStream κ} {s : σ}

theorem Drained.keeps {P : ResultStream κ → σ → Prop}
    (hturn : ∀ st s, P st s → P (st.turn s).2.1 (st.turn s).2.2)
    {out : List Item × ResultStream κ × σ} (h : Drained st s out) (hst : P st s) :
    P out.2.1 out.2.2 := by
  induction h with
  | ended hlast | failed hlast => exact hlast.keeps hturn hst
  | gave hfirst _ ih => exact ih (hfirst.keeps hturn hst)

variable [LawfulEngine σ κ]

theorem drained_drainUpTo (fuel : Nat) (hst : st.Placed σ)
    (hfuel : st.work σ (Engine.table s) < fuel) : Drained st s (st.drainUpTo fuel s) := by
  induction fuel generalizing st s with
  | zero => exact absurd hfuel (Nat.not_lt_zero _)
  | succ fuel ih =>
      have hpolled := polled hst s
      rw [drainUpTo]
      split
      · next st' s' heq =>
        rw [heq] at hpolled
        exact .ended hpolled
      · next item st' s' heq =>
        rw [heq] at hpolled
        cases item with
        | ok q =>
            have hless := Nat.lt_of_lt_of_le (hpolled.work_lt hst rfl) (Nat.le_of_lt_succ hfuel)
            rw [← hpolled.table_eq] at hless
            exact .gave hpolled (ih (hpolled.placed hst) hless)
        | error e =>
            rw [drainUpTo_of_not_ready fuel (hpolled.phase_of_error rfl)]
            exact .failed hpolled

theorem drained (hst : st.Placed σ) (s : σ) : Drained st s (st.drain s) :=
  drained_drainUpTo _ hst (work_lt_turnBound st s)

end Drained

/-! ## What is kept of cursors -/

section Custody

variable [Engine σ κ]

/-- A relation between what a stream has still to read, the cursor that it holds and the engine,
which opening, reading and releasing keep. -/
structure Custody (R : List Scan → Option κ → σ → Prop) : Prop where
  opened {scan : Scan} {pending : List Scan} {s : σ} (cap : Option Nat) :
    R (scan :: pending) none s →
      R pending (some (Engine.scan { scan.range with limit := cap } s).1)
        (Engine.scan { scan.range with limit := cap } s).2
  exhausted {pending : List Scan} {c c' : κ} {s s' : σ} :
    R pending (some c) s → Engine.next c s = (none, c', s') →
      R pending none (Engine.release c' s')
  row {pending : List Scan} {c c' : κ} {s s' : σ} {row : Except EngineError Bytes} :
    R pending (some c) s → Engine.next c s = (some row, c', s') → R pending (some c') s'
  released {pending : List Scan} {c : κ} {s : σ} :
    R pending (some c) s → R [] none (Engine.release c s)
  ended {pending : List Scan} {s : σ} : R pending none s → R [] none s

variable {R : List Scan → Option κ → σ → Prop} {st : ResultStream κ} {s : σ}

theorem Custody.turn (h : Custody R) (hst : R st.pending st.cursor? s) :
    R (st.turn s).2.1.pending (st.turn s).2.1.cursor? (st.turn s).2.2 := by
  have hturn := turned st s
  generalize st.turn s = out at hturn ⊢
  cases hturn with
  | idle => exact hst
  | ended hbefore hafter =>
      rw [hbefore.pending, hbefore.cursor] at hst
      rwa [hafter.pending, hafter.cursor]
  | opened hbefore hafter =>
      rw [hbefore.pending, hbefore.cursor] at hst
      rw [hafter.pending, hafter.cursor]
      exact h.opened _ hst
  | exhausted hbefore hn hafter =>
      rw [hbefore.pending, hbefore.cursor] at hst
      rw [hafter.pending, hafter.cursor]
      exact h.exhausted hst hn
  | failed hbefore hn hafter | last hbefore hn _ hafter =>
      rw [hbefore.pending, hbefore.cursor] at hst
      rw [hafter.pending, hafter.cursor]
      exact h.released (h.row hst hn)
  | passed hbefore hn hafter | gave hbefore hn _ hafter =>
      rw [hbefore.pending, hbefore.cursor] at hst
      rw [hafter.pending, hafter.cursor]
      exact h.row hst hn

theorem Custody.polled (h : Custody R) {out : Option Item × ResultStream κ × σ}
    (hp : Polled st s out) (hst : R st.pending st.cursor? s) :
    R out.2.1.pending out.2.1.cursor? out.2.2 :=
  hp.keeps (P := fun st s => R st.pending st.cursor? s) (fun _ _ hst => h.turn hst) hst

theorem Custody.drained (h : Custody R) {out : List Item × ResultStream κ × σ}
    (hd : Drained st s out) (hst : R st.pending st.cursor? s) :
    R out.2.1.pending out.2.1.cursor? out.2.2 :=
  hd.keeps (P := fun st s => R st.pending st.cursor? s) (fun _ _ hst => h.turn hst) hst

theorem Custody.close (h : Custody R) (hst : R st.pending st.cursor? s) :
    R (st.close s).1.pending (st.close s).1.cursor? (st.close s).2 := by
  rw [ResultStream.close]
  split
  · rw [cursor?] at hst
    simp only [finish, releaseActive, note, cursor?, Option.map_none]
    cases ha : st.active with
    | none =>
        rw [ha] at hst
        exact h.ended hst
    | some a =>
        rw [ha] at hst
        exact h.released hst
  · exact hst

end Custody

end QuadIndex.ResultStream
