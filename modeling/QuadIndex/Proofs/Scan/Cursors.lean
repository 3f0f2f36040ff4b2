import QuadIndex.Proofs.Scan.Progress
import QuadIndex.Proofs.Scan.Recorder

/-! # The cursors of a stream

Whatever is called, and wherever a read fails, a stream has one cursor open at most, and none when
it is over. -/

namespace QuadIndex

/-! ## Calls -/

/-- What is done with a stream, and to its engine. -/
inductive StreamCall (σ : Type) where
  | poll
  /-- One turn of a poll, to look at what happens in the midst of it. -/
  | turn
  | close
  /-- The engine is changed from elsewhere. -/
  | elsewhere (change : σ → σ)

namespace StreamCall

variable {σ κ : Type}

def asks : StreamCall σ → Bool
  | poll | turn => true
  | close | elsewhere _ => false

/-- The call where the engine is recorded. -/
def recorded : StreamCall σ → StreamCall (Recorder σ)
  | poll => .poll
  | turn => .turn
  | close => .close
  | elsewhere change => .elsewhere fun r => { r with engine := change r.engine }

variable [Engine σ κ]

def perform (st : ResultStream κ) (s : σ) :
    StreamCall σ → List (Option Item) × ResultStream κ × σ
  | poll => ([(st.poll s).1], (st.poll s).2)
  | turn => ((st.turn s).1.answers, (st.turn s).2)
  | close => ([], st.close s)
  | elsewhere change => ([], st, change s)

def performAll (st : ResultStream κ) (s : σ) :
    List (StreamCall σ) → List (Option Item) × ResultStream κ × σ
  | [] => ([], st, s)
  | c :: cs =>
    let (answers, st, s) := c.perform st s
    let (later, out) := performAll st s cs
    (answers ++ later, out)

theorem performAll_cons (st : ResultStream κ) (s : σ) (c : StreamCall σ)
    (cs : List (StreamCall σ)) :
    performAll st s (c :: cs) =
      ((c.perform st s).1 ++ (performAll (c.perform st s).2.1 (c.perform st s).2.2 cs).1,
        (performAll (c.perform st s).2.1 (c.perform st s).2.2 cs).2) :=
  rfl

theorem performAll_append (st : ResultStream κ) (s : σ) (cs ds : List (StreamCall σ)) :
    performAll st s (cs ++ ds) =
      ((performAll st s cs).1 ++
          (performAll (performAll st s cs).2.1 (performAll st s cs).2.2 ds).1,
        (performAll (performAll st s cs).2.1 (performAll st s cs).2.2 ds).2) := by
  induction cs generalizing st s with
  | nil => rfl
  | cons c cs ih =>
      simp only [List.cons_append, performAll_cons, ih, List.append_assoc]

theorem perform_plain (c : StreamCall σ) (st : ResultStream (NumberedCursor κ)) (r : Recorder σ) :
    c.perform st.plain r.engine = ((c.recorded.perform st r).1,
      (c.recorded.perform st r).2.1.plain, (c.recorded.perform st r).2.2.engine) := by
  cases c with
  | poll =>
      rw [perform, ResultStream.poll_plain]
      rfl
  | turn =>
      rw [perform, ResultStream.turn_plain]
      rfl
  | close => exact congrArg (Prod.mk _) (ResultStream.close_plain st r)
  | elsewhere change => rfl

/-- Calls have the same answers and effects whether or not cursors are recorded. -/
theorem performAll_plain (cs : List (StreamCall σ)) (st : ResultStream (NumberedCursor κ))
    (r : Recorder σ) :
    performAll st.plain r.engine cs = ((performAll st r (cs.map recorded)).1,
      (performAll st r (cs.map recorded)).2.1.plain,
      (performAll st r (cs.map recorded)).2.2.engine) := by
  induction cs generalizing st r with
  | nil => rfl
  | cons c cs ih =>
      rw [performAll_cons, perform_plain, List.map_cons, performAll_cons]
      simp only [ih]

end StreamCall

/-! ## Progress -/

namespace StreamCall

variable {σ κ : Type} [Engine σ κ] [LawfulEngine σ κ]

open ResultStream

theorem progress_perform (c : StreamCall σ) {st : ResultStream κ} (hst : st.Sound)
    (hplaced : st.Placed σ) (s : σ) : Progress st (c.perform st s).1 (c.perform st s).2.1 := by
  cases c with
  | poll => exact (polled hplaced s).progress hst
  | turn => exact (turned st s).progress hst
  | close => exact progress_close hst s
  | elsewhere change => exact .refl hst

theorem placed_perform (c : StreamCall σ) {st : ResultStream κ} (hst : st.Placed σ) (s : σ) :
    (c.perform st s).2.1.Placed σ := by
  cases c with
  | poll => exact (polled hst s).placed hst
  | turn => exact (turned st s).placed hst
  | close =>
      rw [perform, ResultStream.close]
      split
      · exact (stopped_finish (by decide : Phase.done ≠ .ready) _ s).placed
      · exact hst
  | elsewhere change => exact hst

theorem progress_performAll (cs : List (StreamCall σ)) {st : ResultStream κ} (hst : st.Sound)
    (hplaced : st.Placed σ) (s : σ) :
    Progress st (performAll st s cs).1 (performAll st s cs).2.1 ∧
      (performAll st s cs).2.1.Placed σ := by
  induction cs generalizing st s with
  | nil => exact ⟨.refl hst, hplaced⟩
  | cons c cs ih =>
      have hprogress := c.progress_perform hst hplaced s
      obtain ⟨hrest, hlast⟩ := ih hprogress.sound (c.placed_perform hplaced s) _
      exact ⟨hprogress.trans hrest, hlast⟩

end StreamCall

/-! ## Every sequence of calls -/

namespace StreamCall

open ResultStream CursorLog

variable {σ κ : Type} [Engine σ κ]

/-- The stream has given an error, nothing, or its last item, or was closed. -/
inductive Over (paging : Paging) (calls : List (StreamCall σ)) (answers : List (Option Item)) : Prop
  | error {e : QueryError} (h : some (.error e) ∈ answers)
  | ended (h : none ∈ answers)
  | full {limit : Nat} (h : paging.limit = some limit) (given : limit ≤ quadsIn answers)
  | closed (h : close ∈ calls)

variable {st : ResultStream (NumberedCursor κ)} {r : Recorder σ}

/-- Nothing happens to cursors once a stream has stopped. -/
theorem log_of_not_ready (h : st.phase ≠ .ready) (r : Recorder σ) (cs : List (StreamCall σ)) :
    (performAll st r (cs.map recorded)).2.2.log = r.log := by
  induction cs generalizing r with
  | nil => rfl
  | cons c cs ih =>
      have hperform : (c.recorded.perform st r).2.1 = st ∧
          (c.recorded.perform st r).2.2.log = r.log := by
        cases c with
        | poll =>
            rw [recorded, perform, poll_of_not_ready h]
            exact ⟨rfl, rfl⟩
        | turn =>
            have ht : st.turn r = (.give none, st, r) := if_pos h
            rw [recorded, perform, ht]
            exact ⟨rfl, rfl⟩
        | close =>
            have hc : st.close r = (st, r) := if_neg h
            rw [recorded, perform, hc]
            exact ⟨rfl, rfl⟩
        | elsewhere change => exact ⟨rfl, rfl⟩
      rw [List.map_cons, performAll_cons, hperform.1]
      exact (ih _).trans hperform.2

/-- Nothing happens to cursors until the stream is asked for an item. -/
theorem log_of_not_asked (h : st.active = none) (r : Recorder σ) {cs : List (StreamCall σ)}
    (hcs : ∀ c ∈ cs, c.asks = false) : (performAll st r (cs.map recorded)).2.2.log = r.log := by
  induction cs generalizing st r with
  | nil => rfl
  | cons c cs ih =>
      have hperform : (c.recorded.perform st r).2.1.active = none ∧
          (c.recorded.perform st r).2.2.log = r.log := by
        cases c with
        | poll => exact absurd (hcs _ List.mem_cons_self) (by simp [asks])
        | turn => exact absurd (hcs _ List.mem_cons_self) (by simp [asks])
        | close =>
            rw [recorded, perform, ResultStream.close]
            split
            · simp [finish, releaseActive, note, h]
            · exact ⟨h, rfl⟩
        | elsewhere change => exact ⟨h, rfl⟩
      rw [List.map_cons, performAll_cons]
      exact (ih hperform.1 _ fun d hd => hcs d (List.mem_cons_of_mem c hd)).trans hperform.2

variable [LawfulEngine σ κ]

theorem agrees_performAll {scans : List Scan} (cs : List (StreamCall σ))
    (hplaced : st.Placed (Recorder σ)) (h : Recorder.Agrees scans st.pending st.cursor? r) :
    Recorder.Agrees scans (performAll st r (cs.map recorded)).2.1.pending
      (performAll st r (cs.map recorded)).2.1.cursor? (performAll st r (cs.map recorded)).2.2 := by
  induction cs generalizing st r with
  | nil => exact h
  | cons c cs ih =>
      have hcustody := Recorder.custody_agrees (σ := σ) (κ := κ) scans
      refine ih (c.recorded.placed_perform hplaced r) ?_
      cases c with
      | poll => exact hcustody.polled (polled hplaced r) h
      | turn => exact hcustody.turn h
      | close => exact hcustody.close h
      | elsewhere change =>
          exact ⟨h.oneOpen, h.inOrder, h.stillOpen_iff, h.below, h.ahead, h.latest, h.ended⟩

theorem Over.stopped {scans : List Scan} {paging : Paging} {calls : List (StreamCall σ)}
    (hplaced : (ofScans scans paging : ResultStream (NumberedCursor κ)).Placed (Recorder σ))
    (h : Over paging calls (performAll (ofScans scans paging : ResultStream (NumberedCursor κ)) r
      (calls.map recorded)).1) :
    (performAll (ofScans scans paging : ResultStream (NumberedCursor κ)) r
      (calls.map recorded)).2.1.phase ≠ .ready := by
  obtain ⟨hseen, -⟩ := progress_performAll (calls.map recorded) (sound_ofScans scans paging)
    hplaced r
  cases h with
  | error hmem => exact hseen.final ⟨_, hmem, isFinal_error _⟩
  | ended hmem => exact hseen.final ⟨_, hmem, isFinal_none⟩
  | full hlimit hgiven =>
      intro hready
      apply hseen.sound.wanted hready
      have hremaining : (ofScans scans paging : ResultStream (NumberedCursor κ)).remaining =
          paging.limit := by
        rw [ofScans]
        split <;> rfl
      rw [hseen.remaining, hremaining, hlimit, Option.map_some, Nat.sub_eq_zero_of_le hgiven]
  | closed hmem =>
      obtain ⟨earlier, later, rfl⟩ := List.append_of_mem hmem
      obtain ⟨hearlier, hlast⟩ := progress_performAll (earlier.map recorded)
        (sound_ofScans scans paging) hplaced r
      rw [List.map_append, List.map_cons, performAll_append, performAll_cons]
      generalize performAll (ofScans scans paging) r (earlier.map recorded) = seen at hearlier hlast
      obtain ⟨hlater, -⟩ := progress_performAll (later.map recorded)
        (progress_close hearlier.sound seen.2.2).sound
        ((close : StreamCall (Recorder σ)).placed_perform hlast seen.2.2) _
      have hclosed := phase_close seen.2.1 seen.2.2
      rw [← (hlater.idle hclosed).1] at hclosed
      exact hclosed

theorem perform_poll_eq_turns {st : ResultStream κ} (hplaced : st.Placed σ) (s : σ) :
    ∃ n, performAll st s (List.replicate n turn) = poll.perform st s := by
  have hpolled := polled hplaced s
  generalize hout : st.poll s = out at hpolled
  suffices h : ∃ n, performAll st s (List.replicate n turn) = ([out.1], out.2) by
    rwa [perform, hout]
  clear hout
  induction hpolled with
  | answer heq =>
      refine ⟨1, ?_⟩
      rw [List.replicate_one, performAll_cons, perform, heq]
      rfl
  | @again st _ s _ _ heq _ ih =>
      have hlater := (turned st s).placed hplaced
      rw [heq] at hlater
      obtain ⟨n, hn⟩ := ih hlater
      refine ⟨n + 1, ?_⟩
      rw [List.replicate_succ, performAll_cons, perform, heq]
      exact hn

/-- Whatever is called, a stream holds one cursor at most and opens its cursors in order, none of
them before it is asked for an item; once it is over it holds none, opens none and gives nothing;
and it never gives more items than it announces. A poll is some turns, so that this holds in the
midst of a poll too. -/
theorem cursors_of_stream (scans : List Scan) (paging : Paging) (s : σ)
    (before after : List (StreamCall σ)) :
    let start : ResultStream (NumberedCursor κ) := .ofScans scans paging
    let seen := performAll start (Recorder.start s) (before.map recorded)
    let later := performAll seen.2.1 seen.2.2 (after.map recorded)
    OneOpen seen.2.2.log ∧ InOrder scans seen.2.2.log ∧
      (paging.limit = some 0 ∨ (∀ c ∈ before, c.asks = false) → seen.2.2.log = []) ∧
      (Over paging before seen.1 → (∀ number, ¬ StillOpen seen.2.2.log number) ∧
        later.2.2.log = seen.2.2.log ∧ ∀ answer ∈ later.1, answer = none) ∧
      (seen.2.1.phase = .ready → seen.2.1.remaining ≠ some 0) ∧
      (∀ n, seen.2.1.sizeHint.2 = some n → itemsIn later.1 ≤ n) ∧
      performAll (ofScans scans paging) s (before ++ after) =
        (seen.1 ++ later.1, later.2.1.plain, later.2.2.engine) ∧
      ∃ n, performAll seen.2.1 seen.2.2 (List.replicate n turn) =
        poll.perform seen.2.1 seen.2.2 := by
  intro start seen later
  have hactive : start.active = none := active_ofScans scans paging
  have hplaced : start.Placed (Recorder σ) := placed_ofScans scans paging
  obtain ⟨hseen, hseenPlaced⟩ := progress_performAll (before.map recorded)
    (sound_ofScans scans paging) hplaced (Recorder.start s)
  obtain ⟨hlater, -⟩ := progress_performAll (after.map recorded) hseen.sound hseenPlaced seen.2.2
  have hlog := agrees_performAll before hplaced (Recorder.agrees_ofScans scans paging s)
  refine ⟨hlog.oneOpen, hlog.inOrder, ?_, fun hover => ?_, hseen.sound.wanted, ?_, ?_,
    perform_poll_eq_turns hseenPlaced seen.2.2⟩
  · rintro (hzero | hasks)
    · exact log_of_not_ready (phase_ofScans_zero hzero) _ before
    · exact log_of_not_asked hactive _ hasks
  · have hstopped : seen.2.1.phase ≠ .ready := hover.stopped hplaced
    have hnone : seen.2.1.cursor? = none := by
      cases hseen.sound with
      | ready hready => exact absurd hready hstopped
      | stopped h => exact h.cursor
    refine ⟨fun number hopen => ?_, log_of_not_ready hstopped _ after, (hlater.idle hstopped).2⟩
    rw [hlog.stillOpen_iff, hnone] at hopen
    contradiction
  · intro n hn
    obtain ⟨m, -, hle⟩ := hlater.hint n hn
    exact Nat.le_trans (Nat.le_add_left _ m) hle
  · have hplain : start.plain = ofScans scans paging := plain_ofScans scans paging
    have hbefore : performAll (ofScans scans paging) s before =
        (seen.1, seen.2.1.plain, seen.2.2.engine) :=
      hplain ▸ performAll_plain before start (Recorder.start s)
    rw [performAll_append, hbefore, performAll_plain]

/-- A record that cannot be read ends the stream before its second scan. -/
theorem cursors_of_corrupt_stream :
    let t : Table := Table.empty.insert [0] [0]
    let scan : Scan := ⟨"SPOG", ⟨.unbounded, .unbounded, none⟩, none⟩
    let start : ResultStream (NumberedCursor Cursor) := .ofScans [scan, scan] {}
    let seen := performAll start (Recorder.start t) [.poll]
    let later := performAll seen.2.1 seen.2.2 [.poll, .close, .turn]
    (∃ e, seen.1 = [some (.error e)]) ∧
      seen.2.2.log = [.opened 0 ⟨.unbounded, .unbounded, none⟩, .released 0] ∧
      later.2.2.log = seen.2.2.log ∧ ∀ answer ∈ later.1, answer = none := by
  intro t scan start seen later
  have herror : ∃ e, seen.1 = [some (.error e)] := ⟨_, rfl⟩
  refine ⟨herror, rfl, ?_⟩
  obtain ⟨e, he⟩ := herror
  have hover : Over {} [(poll : StreamCall Table)] seen.1 := .error (he ▸ List.mem_cons_self)
  exact ((cursors_of_stream [scan, scan] {} t [.poll] [.poll, .close, .turn]).2.2.2.1 hover).2

end StreamCall

end QuadIndex
