import QuadIndex.Proofs.Scan.Turn

/-! # A record of cursors

A recorder stands between a stream and its engine. It changes nothing, and writes down which cursors
are opened, which of them come to their end, and which are given up. -/

namespace QuadIndex

/-! ## The recorder -/

/-- What happens to cursors. They are numbered in the order in which they are opened. -/
inductive CursorEvent where
  | opened (number : Nat) (range : KeyRange)
  /-- The cursor has come to the end of its range. -/
  | ended (number : Nat)
  | released (number : Nat)
  deriving DecidableEq

def CursorEvent.number : CursorEvent → Nat
  | opened n _ | ended n | released n => n

/-- An engine whose cursors are recorded, the earliest event first. -/
structure Recorder (σ : Type) where
  engine : σ
  count : Nat
  log : List CursorEvent

structure NumberedCursor (κ : Type) where
  number : Nat
  cursor : κ

namespace Recorder

variable {σ κ : Type}

def start (s : σ) : Recorder σ := ⟨s, 0, []⟩

variable [Engine σ κ]

instance : Engine (Recorder σ) (NumberedCursor κ) where
  table r := Engine.table r.engine
  write b r := ((Engine.write b r.engine).1, { r with engine := (Engine.write b r.engine).2 })
  scan range r :=
    (⟨r.count, (Engine.scan range r.engine).1⟩,
      ⟨(Engine.scan range r.engine).2, r.count + 1, r.log ++ [.opened r.count range]⟩)
  next c r :=
    match Engine.next c.cursor r.engine with
    | (none, cursor, engine) =>
      (none, ⟨c.number, cursor⟩, { r with engine, log := r.log ++ [.ended c.number] })
    | (some row, cursor, engine) => (some row, ⟨c.number, cursor⟩, { r with engine })
  release c r :=
    { r with engine := Engine.release c.cursor r.engine, log := r.log ++ [.released c.number] }

/-- What the recorder passes on when it is asked for a row. -/
theorem next_cases (c : NumberedCursor κ) (r : Recorder σ) :
    (∃ cursor engine, Engine.next c.cursor r.engine = (none, cursor, engine) ∧
        Engine.next c r = (none, ⟨c.number, cursor⟩,
          { r with engine, log := r.log ++ [.ended c.number] })) ∨
      ∃ row cursor engine, Engine.next c.cursor r.engine = (some row, cursor, engine) ∧
        Engine.next c r = (some row, ⟨c.number, cursor⟩, { r with engine }) := by
  rcases h : Engine.next c.cursor r.engine with ⟨_ | row, cursor, engine⟩
  · refine .inl ⟨cursor, engine, rfl, ?_⟩
    simp only [Engine.next] at h ⊢
    rw [h]
  · refine .inr ⟨row, cursor, engine, rfl, ?_⟩
    simp only [Engine.next] at h ⊢
    rw [h]

theorem engine_write {b : Batch} {r r' : Recorder σ} {a : Except EngineError Unit}
    (h : Engine.write b r = (a, r')) : Engine.write b r.engine = (a, r'.engine) :=
  Prod.ext (congrArg (·.1) h) (congrArg (·.2.engine) h)

variable [LawfulEngine σ κ]

instance : LawfulEngine (Recorder σ) (NumberedCursor κ) where
  place c := LawfulEngine.place σ c.cursor
  Quiet r := LawfulEngine.Quiet r.engine
  table_of_write_ok h := by
    have hw := LawfulEngine.table_of_write_ok (engine_write h)
    exact hw
  table_of_write_error h := by
    have hw := LawfulEngine.table_of_write_error (engine_write h)
    exact hw
  table_scan range r := LawfulEngine.table_scan range r.engine
  table_next c r := by
    have ht := LawfulEngine.table_next c.cursor r.engine
    rcases next_cases c r with ⟨_, _, hn, hr⟩ | ⟨_, _, _, hn, hr⟩
    all_goals
      rw [hn] at ht
      rw [hr]
      exact ht
  table_release c r := LawfulEngine.table_release c.cursor r.engine
  place_scan range r := LawfulEngine.place_scan range r.engine
  place_of_next_none {c _ r _} h := by
    rcases next_cases c r with ⟨_, _, hn, hr⟩ | ⟨_, _, _, hn, hr⟩
    · exact LawfulEngine.place_of_next_none hn
    · cases h.symm.trans hr
  place_of_next_ok {c _ _ r _} h := by
    rcases next_cases c r with ⟨_, _, hn, hr⟩ | ⟨_, _, _, hn, hr⟩
    · cases h.symm.trans hr
    · cases h.symm.trans hr
      exact LawfulEngine.place_of_next_ok hn
  quiet_write b hq := LawfulEngine.quiet_write b hq
  quiet_scan range hq := LawfulEngine.quiet_scan range hq
  quiet_next {r} c hq := by
    have hquiet := LawfulEngine.quiet_next c.cursor hq
    rcases next_cases c r with ⟨_, _, hn, hr⟩ | ⟨_, _, _, hn, hr⟩
    all_goals
      rw [hn] at hquiet
      rw [hr]
      exact hquiet
  quiet_release c hq := LawfulEngine.quiet_release c.cursor hq
  fault_of_next_error {c _ _ r _} h := by
    rcases next_cases c r with ⟨_, _, hn, hr⟩ | ⟨_, _, _, hn, hr⟩
    · cases h.symm.trans hr
    · cases h.symm.trans hr
      exact LawfulEngine.fault_of_next_error hn

end Recorder

/-! ## What the recorder leaves as it is -/

namespace ResultStream

variable {σ κ : Type} [Engine σ κ]

/-- The stream without the numbers of its cursors. -/
def plain (st : ResultStream (NumberedCursor κ)) : ResultStream κ where
  pending := st.pending
  active := st.active.map fun a => ⟨a.cursor.cursor, a.filter, a.indexName, a.rows⟩
  skip := st.skip
  remaining := st.remaining
  phase := st.phase
  journal := st.journal

theorem plain_ofScans (scans : List Scan) (paging : Paging) :
    (ofScans scans paging : ResultStream (NumberedCursor κ)).plain = ofScans scans paging := by
  rw [ofScans, ofScans]
  split <;> rfl

theorem releaseActive_plain (st : ResultStream (NumberedCursor κ)) (r : Recorder σ) :
    st.plain.releaseActive r.engine = (st.releaseActive r).engine := by
  rw [releaseActive, releaseActive, plain]
  cases st.active <;> rfl

theorem finish_plain (phase : Phase) (st : ResultStream (NumberedCursor κ)) (r : Recorder σ) :
    st.plain.finish phase r.engine = ((st.finish phase r).1.plain, (st.finish phase r).2.engine) :=
  Prod.ext rfl (releaseActive_plain st r)

theorem close_plain (st : ResultStream (NumberedCursor κ)) (r : Recorder σ) :
    st.plain.close r.engine = ((st.close r).1.plain, (st.close r).2.engine) := by
  rw [close, close]
  by_cases h : st.phase = .ready
  · rw [if_pos h, if_pos (show st.plain.phase = .ready from h)]
    exact finish_plain .done (st.note .closed) r
  · rw [if_neg h, if_neg (show ¬ st.plain.phase = .ready from h)]

theorem fail_plain (indexName : String) (e : QueryError) (st : ResultStream (NumberedCursor κ))
    (r : Recorder σ) : st.plain.fail indexName e r.engine =
      ((st.fail indexName e r).1, (st.fail indexName e r).2.1.plain,
        (st.fail indexName e r).2.2.engine) :=
  congrArg (Prod.mk _) (finish_plain .failed (st.note (.failed indexName e)) r)

theorem accept_plain (st : ResultStream (NumberedCursor κ)) (a : ActiveScan (NumberedCursor κ))
    (q : Quad) (r : Recorder σ) :
    st.plain.accept ⟨a.cursor.cursor, a.filter, a.indexName, a.rows⟩ q r.engine =
      ((st.accept a q r).1, (st.accept a q r).2.1.plain, (st.accept a q r).2.2.engine) := by
  rw [accept, accept]
  cases Scan.passes a.filter q with
  | false => rfl
  | true =>
      by_cases hskip : 0 < st.skip
      · simp only [Bool.not_true, Bool.false_eq_true, if_false, if_pos hskip,
          if_pos (show 0 < st.plain.skip from hskip)]
        rfl
      · simp only [Bool.not_true, Bool.false_eq_true, if_false, if_neg hskip,
          if_neg (show ¬ 0 < st.plain.skip from hskip)]
        by_cases hlast : st.remaining.map (· - 1) = some 0
        · rw [if_pos hlast, if_pos (show st.plain.remaining.map (· - 1) = some 0 from hlast)]
          exact congrArg (Prod.mk _)
            (finish_plain .done { st with remaining := st.remaining.map (· - 1) } r)
        · rw [if_neg hlast, if_neg (show ¬ st.plain.remaining.map (· - 1) = some 0 from hlast)]
          rfl

theorem advance_plain (st : ResultStream (NumberedCursor κ)) (a : ActiveScan (NumberedCursor κ))
    (r : Recorder σ) :
    st.plain.advance ⟨a.cursor.cursor, a.filter, a.indexName, a.rows⟩ r.engine =
      ((st.advance a r).1, (st.advance a r).2.1.plain, (st.advance a r).2.2.engine) := by
  rw [advance, advance]
  rcases Recorder.next_cases a.cursor r with
    ⟨cursor, engine, hn, hr⟩ | ⟨row, cursor, engine, hn, hr⟩
  · simp only [hn, hr]
    rfl
  · cases row with
    | error e =>
        simp only [hn, hr]
        exact fail_plain a.indexName (.engine e)
          { st with active := some { a with cursor := ⟨a.cursor.number, cursor⟩ } }
          { r with engine }
    | ok value =>
        simp only [hn, hr]
        let b : ActiveScan (NumberedCursor κ) :=
          { a with cursor := ⟨a.cursor.number, cursor⟩, rows := a.rows + 1 }
        cases Record.decode value with
        | error f =>
            exact fail_plain a.indexName (.engine (.corruption f.message))
              { st with active := some b } { r with engine }
        | ok q => exact accept_plain { st with active := some b } b q { r with engine }

/-- A turn is the same whether or not its cursors are recorded. -/
theorem turn_plain (st : ResultStream (NumberedCursor κ)) (r : Recorder σ) :
    st.plain.turn r.engine =
      ((st.turn r).1, (st.turn r).2.1.plain, (st.turn r).2.2.engine) := by
  rw [turn, turn]
  by_cases h : st.phase = .ready
  · rw [if_neg (not_not_intro h), if_neg (not_not_intro (show st.plain.phase = .ready from h))]
    cases ha : st.active with
    | some a =>
        have hp : st.plain.active = some ⟨a.cursor.cursor, a.filter, a.indexName, a.rows⟩ := by
          rw [plain, ha]
          rfl
        simp only [hp]
        exact advance_plain st a r
    | none =>
        have hp : st.plain.active = none := by
          rw [plain, ha]
          rfl
        have hpending : st.plain.pending = st.pending := rfl
        simp only [hp, hpending]
        cases st.pending with
        | cons scan pending => rfl
        | nil => exact congrArg (Prod.mk _) (finish_plain .done st r)
  · rw [if_pos h, if_pos (show st.plain.phase ≠ .ready from h)]

theorem pollUpTo_plain (fuel : Nat) (st : ResultStream (NumberedCursor κ)) (r : Recorder σ) :
    st.plain.pollUpTo fuel r.engine =
      ((st.pollUpTo fuel r).1, (st.pollUpTo fuel r).2.1.plain,
        (st.pollUpTo fuel r).2.2.engine) := by
  induction fuel generalizing st r with
  | zero => rfl
  | succ fuel ih =>
      rw [pollUpTo, pollUpTo, turn_plain]
      rcases st.turn r with ⟨_ | item, st', r'⟩
      · exact ih st' r'
      · rfl

theorem poll_plain (st : ResultStream (NumberedCursor κ)) (r : Recorder σ) :
    st.plain.poll r.engine = ((st.poll r).1, (st.poll r).2.1.plain, (st.poll r).2.2.engine) :=
  pollUpTo_plain _ st r

end ResultStream

/-! ## Cursors that are open -/

namespace CursorLog

variable {log : List CursorEvent} {e : CursorEvent} {number k : Nat}

/-- The cursor was opened and has not been released. -/
def StillOpen (log : List CursorEvent) (number : Nat) : Prop :=
  (∃ range, .opened number range ∈ log) ∧ .released number ∉ log

/-- At no time two cursors are open. -/
def OneOpen (log : List CursorEvent) : Prop :=
  ∀ n a b, StillOpen (log.take n) a → StillOpen (log.take n) b → a = b

/-- Each cursor is opened for its own scan, and only after the one before it has ended. -/
def InOrder (scans : List Scan) (log : List CursorEvent) : Prop :=
  ∀ earlier number range later, log = earlier ++ .opened number range :: later →
    (∃ scan, scans[number]? = some scan ∧ range.lower = scan.range.lower ∧
      range.upper = scan.range.upper) ∧ ∀ k, number = k + 1 → .ended k ∈ earlier

theorem OneOpen.snoc (h : OneOpen log)
    (he : ∀ a b, StillOpen (log ++ [e]) a → StillOpen (log ++ [e]) b → a = b) :
    OneOpen (log ++ [e]) := by
  intro n a b
  by_cases hn : n ≤ log.length
  · rw [List.take_append_of_le_length hn]
    exact h n a b
  · have hlen : (log ++ [e]).length ≤ n := by
      rw [List.length_append, List.length_singleton]
      omega
    rw [List.take_of_length_le hlen]
    exact he a b

theorem InOrder.snoc {scans : List Scan} (h : InOrder scans log)
    (he : ∀ number range, e = .opened number range →
      (∃ scan, scans[number]? = some scan ∧ range.lower = scan.range.lower ∧
        range.upper = scan.range.upper) ∧ ∀ k, number = k + 1 → .ended k ∈ log) :
    InOrder scans (log ++ [e]) := by
  intro earlier number range later heq
  rcases List.eq_nil_or_concat later with rfl | ⟨later, last, rfl⟩
  · obtain ⟨rfl, hlast⟩ := List.append_inj' heq rfl
    exact he number range (List.cons.inj hlast).1
  · have hsplit : log ++ [e] = (earlier ++ .opened number range :: later) ++ [last] := by
      rw [heq, List.append_assoc, List.cons_append, List.concat_eq_append]
    exact h earlier number range later (List.append_inj' hsplit rfl).1

theorem stillOpen_append_ended : StillOpen (log ++ [.ended k]) number ↔ StillOpen log number := by
  simp [StillOpen]

theorem stillOpen_append_released :
    StillOpen (log ++ [.released k]) number ↔ StillOpen log number ∧ number ≠ k := by
  simp only [StillOpen, List.mem_append, List.mem_singleton, reduceCtorEq, or_false, not_or,
    CursorEvent.released.injEq]
  exact and_assoc.symm

theorem stillOpen_append_opened {range : KeyRange} (hk : .released k ∉ log) :
    StillOpen (log ++ [.opened k range]) number ↔ StillOpen log number ∨ number = k := by
  simp only [StillOpen, List.mem_append, List.mem_singleton, reduceCtorEq, or_false,
    CursorEvent.opened.injEq]
  constructor
  · rintro ⟨⟨r, hr | ⟨hn, -⟩⟩, hreleased⟩
    · exact .inl ⟨⟨r, hr⟩, hreleased⟩
    · exact .inr hn
  · rintro (⟨⟨r, hr⟩, hreleased⟩ | rfl)
    · exact ⟨⟨r, .inl hr⟩, hreleased⟩
    · exact ⟨⟨range, .inr ⟨rfl, rfl⟩⟩, hk⟩

end CursorLog

namespace Recorder

open CursorLog

variable {σ κ : Type}

/-- The record agrees with what a stream over the scans has still to read and the cursor that it
holds. -/
structure Agrees (scans pending : List Scan) (cursor : Option (NumberedCursor κ))
    (r : Recorder σ) : Prop where
  oneOpen : OneOpen r.log
  inOrder : InOrder scans r.log
  stillOpen_iff : ∀ number, StillOpen r.log number ↔ cursor.map (·.number) = some number
  below : ∀ e ∈ r.log, e.number < r.count
  ahead : pending ≠ [] → pending = scans.drop r.count
  latest : ∀ c, cursor = some c → c.number + 1 = r.count
  ended : pending ≠ [] → cursor = none → ∀ k, r.count = k + 1 → .ended k ∈ r.log

theorem agrees_start (scans : List Scan) (s : σ) :
    Agrees scans scans (none : Option (NumberedCursor κ)) (start s) where
  oneOpen n a b h := by simp [start, StillOpen] at h
  inOrder earlier number range later h := by simp [start] at h
  stillOpen_iff number := by simp [start, StillOpen]
  below := by simp [start]
  ahead _ := rfl
  latest := nofun
  ended _ _ k h := by simp [start] at h

theorem agrees_ofScans (scans : List Scan) (paging : Paging) (s : σ) :
    Agrees scans (ResultStream.ofScans scans paging : ResultStream (NumberedCursor κ)).pending
      (ResultStream.ofScans scans paging : ResultStream (NumberedCursor κ)).cursor? (start s) := by
  have h := agrees_start (κ := κ) scans s
  rw [ResultStream.ofScans]
  split
  · exact ⟨h.oneOpen, h.inOrder, h.stillOpen_iff, h.below, absurd rfl, nofun, absurd rfl⟩
  · exact h

variable {scans pending : List Scan} {c : NumberedCursor κ} {r : Recorder σ}

theorem Agrees.ended_append (h : Agrees scans pending (some c) r) (cursor : κ) (engine : σ) :
    Agrees scans pending (some ⟨c.number, cursor⟩)
      { r with engine, log := r.log ++ [.ended c.number] } where
  oneOpen := h.oneOpen.snoc fun a b ha hb => by
    rw [stillOpen_append_ended, h.stillOpen_iff] at ha hb
    exact Option.some.inj (ha.symm.trans hb)
  inOrder := h.inOrder.snoc nofun
  stillOpen_iff number := stillOpen_append_ended.trans (h.stillOpen_iff number)
  below e he := by
    rcases List.mem_append.1 he with he | he
    · exact h.below e he
    · rw [List.mem_singleton.1 he]
      exact Nat.lt_of_succ_le (Nat.le_of_eq (h.latest c rfl))
  ahead := h.ahead
  latest c' hc' := by
    rw [← Option.some.inj hc']
    exact h.latest c rfl
  ended := nofun

theorem Agrees.released_append (h : Agrees scans pending (some c) r) (engine : σ)
    {pending' : List Scan} (hpending : pending' ≠ [] → pending' = pending)
    (hended : pending' ≠ [] → .ended c.number ∈ r.log) :
    Agrees scans pending' (none : Option (NumberedCursor κ))
      { r with engine, log := r.log ++ [.released c.number] } where
  oneOpen := h.oneOpen.snoc fun a b ha hb => by
    rw [stillOpen_append_released, h.stillOpen_iff] at ha hb
    exact Option.some.inj (ha.1.symm.trans hb.1)
  inOrder := h.inOrder.snoc nofun
  stillOpen_iff number := by
    rw [stillOpen_append_released, h.stillOpen_iff]
    refine iff_of_false ?_ nofun
    rintro ⟨hc, hne⟩
    exact hne (Option.some.inj hc).symm
  below e he := by
    rcases List.mem_append.1 he with he | he
    · exact h.below e he
    · rw [List.mem_singleton.1 he]
      exact Nat.lt_of_succ_le (Nat.le_of_eq (h.latest c rfl))
  ahead hne := (hpending hne).trans (h.ahead (hpending hne ▸ hne))
  latest := nofun
  ended hne _ k hk := by
    have hnumber : c.number = k := Nat.succ.inj ((h.latest c rfl).trans hk)
    exact List.mem_append_left _ (hnumber ▸ hended hne)

theorem Agrees.opened_append {scan : Scan}
    (h : Agrees scans (scan :: pending) (none : Option (NumberedCursor κ)) r) (cursor : κ)
    (engine : σ) (cap : Option Nat) :
    Agrees scans pending (some ⟨r.count, cursor⟩)
      ⟨engine, r.count + 1, r.log ++ [.opened r.count { scan.range with limit := cap }]⟩ := by
  have hdrop : scan :: pending = scans.drop r.count := h.ahead (List.cons_ne_nil _ _)
  have hscan : scans[r.count]? = some scan := by
    rw [← List.head?_drop, ← hdrop]
    rfl
  have hfresh : .released r.count ∉ r.log := fun hm => Nat.lt_irrefl _ (h.below _ hm)
  have hopen (number : Nat) : StillOpen
      (r.log ++ [.opened r.count { scan.range with limit := cap }]) number ↔
        some r.count = some number := by
    rw [stillOpen_append_opened hfresh, h.stillOpen_iff, Option.some.injEq, eq_comm (a := r.count)]
    exact or_iff_right nofun
  refine ⟨h.oneOpen.snoc fun a b ha hb => ?_, h.inOrder.snoc ?_, hopen, ?_, fun _ => ?_, ?_, nofun⟩
  · exact Option.some.inj (((hopen a).1 ha).symm.trans ((hopen b).1 hb))
  · rintro number range ⟨⟩
    exact ⟨⟨scan, hscan, rfl, rfl⟩, h.ended (List.cons_ne_nil _ _) rfl⟩
  · intro e he
    rcases List.mem_append.1 he with he | he
    · exact Nat.lt_succ_of_lt (h.below e he)
    · rw [List.mem_singleton.1 he]
      exact Nat.lt_succ_self _
  · rw [← List.drop_drop, ← hdrop]
    rfl
  · rintro _ ⟨⟩
    rfl

variable [Engine σ κ]

theorem custody_agrees (scans : List Scan) :
    ResultStream.Custody
      (Agrees scans : List Scan → Option (NumberedCursor κ) → Recorder σ → Prop) where
  opened cap h := h.opened_append _ _ cap
  exhausted {pending c c' r r'} h hn := by
    rcases next_cases c r with ⟨_, _, -, hr⟩ | ⟨_, _, _, -, hr⟩
    · cases hn.symm.trans hr
      exact (h.ended_append _ _).released_append _ (fun _ => rfl) fun _ =>
        List.mem_append_right _ List.mem_cons_self
    · cases hn.symm.trans hr
  row {pending c c' r r' row} h hn := by
    rcases next_cases c r with ⟨_, _, -, hr⟩ | ⟨_, cursor, _, -, hr⟩
    · cases hn.symm.trans hr
    · cases hn.symm.trans hr
      refine ⟨h.oneOpen, h.inOrder, h.stillOpen_iff, h.below, h.ahead, ?_, nofun⟩
      rintro _ ⟨⟩
      exact h.latest c rfl
  released h := h.released_append _ (absurd rfl) (absurd rfl)
  ended h := ⟨h.oneOpen, h.inOrder, h.stillOpen_iff, h.below, absurd rfl, nofun, absurd rfl⟩

end Recorder

end QuadIndex
