import Mathlib.Data.List.DropRight
import Mathlib.Data.List.Induction
import Mathlib.Order.Bounds.Basic
import QuadIndex.Proofs.Engine.Session

/-! # Counters and history

Whatever is asked of a failing engine, its counters say what its answers since the last reset say,
and it counts as open the cursors that are. -/

namespace QuadIndex

/-! ## What answers add to the counters -/

namespace EngineAnswer

def isOpened : EngineAnswer → Bool
  | opened _ => true
  | _ => false

def isRow : EngineAnswer → Bool
  | polled _ (some (.ok _)) => true
  | _ => false

def isWritten : EngineAnswer → Bool
  | written _ => true
  | _ => false

def isReadFault : EngineAnswer → Bool
  | polled _ (some (.error (.injectedFault _))) => true
  | _ => false

def isWriteFault : EngineAnswer → Bool
  | written (.error (.injectedFault _)) => true
  | _ => false

end EngineAnswer

/-- The counters have gone up by what the answers tell. -/
structure Counters.Gained (answers : List EngineAnswer) (c c' : Counters) : Prop where
  cursorsOpened : c'.cursorsOpened = c.cursorsOpened + answers.countP (·.isOpened)
  rowsRead : c'.rowsRead = c.rowsRead + answers.countP (·.isRow)
  batchesWritten : c'.batchesWritten = c.batchesWritten + answers.countP (·.isWritten)
  injectedReadErrors :
    c'.injectedReadErrors = c.injectedReadErrors + answers.countP (·.isReadFault)
  injectedWriteErrors :
    c'.injectedWriteErrors = c.injectedWriteErrors + answers.countP (·.isWriteFault)

namespace Counters.Gained

variable {as bs : List EngineAnswer} {c c' c'' : Counters}

theorem refl (c : Counters) : Gained [] c c := ⟨rfl, rfl, rfl, rfl, rfl⟩

theorem trans (h : Gained as c c') (h' : Gained bs c' c'') : Gained (as ++ bs) c c'' := by
  constructor
  · rw [h'.cursorsOpened, h.cursorsOpened, List.countP_append, Nat.add_assoc]
  · rw [h'.rowsRead, h.rowsRead, List.countP_append, Nat.add_assoc]
  · rw [h'.batchesWritten, h.batchesWritten, List.countP_append, Nat.add_assoc]
  · rw [h'.injectedReadErrors, h.injectedReadErrors, List.countP_append, Nat.add_assoc]
  · rw [h'.injectedWriteErrors, h.injectedWriteErrors, List.countP_append, Nat.add_assoc]

theorem closed (h : Gained as c c') : Gained as c c'.closed :=
  ⟨h.cursorsOpened, h.rowsRead, h.batchesWritten, h.injectedReadErrors, h.injectedWriteErrors⟩

end Counters.Gained

namespace FaultyEngine

variable {c : FaultyCursor} {e : FaultyEngine}

theorem close_of_isOpen (h : c.isOpen = true) (e : FaultyEngine) :
    close c e = ({ c with isOpen := false }, e.count Counters.closed) := if_pos h

theorem close_of_not_isOpen (h : c.isOpen = false) (e : FaultyEngine) : close c e = (c, e) :=
  if_neg (by simp [h])

/-- A read that meets a fault counts it, and any other changes no counter. -/
theorem counters_readFault (e : FaultyEngine) :
    e.readFault.2.counters =
      if e.readFault.1.isSome then e.readStruck.counters else e.counters := by
  rcases e.readFault_cases with ⟨-, h⟩ | ⟨-, _, h | h⟩
  · rw [h]
    rfl
  · rw [h]
    rfl
  · rw [h]
    rfl

theorem openCursors_readFault (e : FaultyEngine) :
    e.readFault.2.counters.openCursors = e.counters.openCursors ∧
      e.readFault.2.counters.maxOpenCursors = e.counters.maxOpenCursors := by
  rw [counters_readFault]
  split
  · exact ⟨rfl, rfl⟩
  · exact ⟨rfl, rfl⟩

theorem gained_write (b : Batch) (e : FaultyEngine) :
    e.counters.Gained [.written (write b e).1] (write b e).2.counters := by
  rcases write_cases b e with ⟨_, h | h⟩
  · rw [h]
    exact ⟨rfl, rfl, rfl, rfl, rfl⟩
  · rw [h]
    exact ⟨rfl, rfl, rfl, rfl, rfl⟩

theorem gained_next (number : Nat) (c : FaultyCursor) (e : FaultyEngine) :
    e.counters.Gained [.polled number (next c e).1] (next c e).2.2.counters := by
  have hr := e.counters_readFault
  cases ho : c.isOpen with
  | false =>
      rw [next_of_not_isOpen ho]
      exact ⟨rfl, rfl, rfl, rfl, rfl⟩
  | true =>
      rcases next_cases ho e with ⟨error, hf, hn⟩ | ⟨hf, ⟨entry, inner, -, hn⟩ | ⟨inner, -, hn⟩⟩
      · obtain ⟨reason, rfl⟩ := injected_of_readFault hf
        have hstruck : e.counters.Gained [.polled number (some (.error (.injectedFault reason)))]
            e.readStruck.counters := ⟨rfl, rfl, rfl, rfl, rfl⟩
        rw [hn, close_of_isOpen ho, count, hr, hf]
        exact hstruck.closed
      · have hrow : e.counters.Gained [.polled number (some (.ok entry.2))]
            e.rowRead.counters := ⟨rfl, rfl, rfl, rfl, rfl⟩
        rw [hn, rowRead, count, hr, hf]
        exact hrow
      · have hend : e.counters.Gained [.polled number none] e.counters :=
          ⟨rfl, rfl, rfl, rfl, rfl⟩
        rw [hn, close_of_isOpen (c := ⟨inner, c.isOpen⟩) ho, count, hr, hf]
        exact hend.closed

theorem gained_release (number : Nat) (c : FaultyCursor) (e : FaultyEngine) :
    e.counters.Gained [.dropped number] (close c e).2.counters := by
  have hdropped : e.counters.Gained [.dropped number] e.counters := ⟨rfl, rfl, rfl, rfl, rfl⟩
  rw [close]
  split
  · exact hdropped.closed
  · exact hdropped

end FaultyEngine

/-- The counters of an engine go up by what a call is answered. -/
theorem EngineCall.gained_perform (c : EngineCall) (s : Session FaultyEngine FaultyCursor) :
    s.engine.counters.Gained (c.perform s).1 (c.perform s).2.engine.counters := by
  cases c with
  | write b => exact FaultyEngine.gained_write b s.engine
  | scan r => exact ⟨rfl, rfl, rfl, rfl, rfl⟩
  | poll number =>
      rw [perform]
      cases s.cursor? number with
      | none => exact .refl _
      | some c => exact FaultyEngine.gained_next number c s.engine
  | drop number =>
      rw [perform]
      cases s.cursor? number with
      | none => exact .refl _
      | some c => exact FaultyEngine.gained_release number c s.engine

/-! ## Which cursors are counted as open -/

namespace Session

/-- The cursor is there, and its engine counts it as open. -/
def hasOpen (s : Session FaultyEngine FaultyCursor) (number : Nat) : Bool :=
  (s.cursor? number).any (·.isOpen)

/-- What a call does to the cursors that are open: none of them changes, one more is opened, or one
is closed. -/
inductive OpenStep (s : Session FaultyEngine FaultyCursor) :
    List EngineAnswer → Session FaultyEngine FaultyCursor → Prop
  | gone : OpenStep s [] s
  | kept {a : EngineAnswer} {s' : Session FaultyEngine FaultyCursor} (none : a.opened? = none)
      (idle : ∀ n, a.ends n = true → n < s.cursors.length ∧ s.hasOpen n = false)
      (places : s'.cursors.length = s.cursors.length) (hasOpen : s'.hasOpen = s.hasOpen)
      (count : s'.engine.counters.openCursors = s.engine.counters.openCursors)
      (peak : s'.engine.counters.maxOpenCursors = s.engine.counters.maxOpenCursors) :
      OpenStep s [a] s'
  | opened {s' : Session FaultyEngine FaultyCursor}
      (places : s'.cursors.length = s.cursors.length + 1)
      (hasOpen : s'.hasOpen = Function.update s.hasOpen s.cursors.length true)
      (counters : s'.engine.counters = s.engine.counters.opened) :
      OpenStep s [.opened s.cursors.length] s'
  | closed {a : EngineAnswer} {number : Nat} {s' : Session FaultyEngine FaultyCursor}
      (none : a.opened? = none) (ends : ∀ n, a.ends n = decide (number = n))
      (here : s.hasOpen number = true) (places : s'.cursors.length = s.cursors.length)
      (hasOpen : s'.hasOpen = Function.update s.hasOpen number false)
      (count : s'.engine.counters.openCursors = s.engine.counters.openCursors - 1)
      (peak : s'.engine.counters.maxOpenCursors = s.engine.counters.maxOpenCursors) :
      OpenStep s [a] s'

variable {s : Session FaultyEngine FaultyCursor} {c : FaultyCursor} {number : Nat}
  {e : FaultyEngine} {a : EngineAnswer}

theorem hasOpen_of_cursor? (h : s.cursor? number = some c) : s.hasOpen number = c.isOpen := by
  rw [hasOpen, h]
  rfl

theorem lt_length_of_hasOpen (h : s.hasOpen number = true) : number < s.cursors.length := by
  rw [hasOpen] at h
  cases hc : s.cursor? number with
  | none =>
      rw [hc] at h
      contradiction
  | some c => exact lt_length_of_cursor? hc

theorem hasOpen_set (h : s.cursor? number = some c) (e : FaultyEngine)
    (place : Option FaultyCursor) :
    hasOpen ⟨e, s.cursors.set number place⟩ =
      Function.update s.hasOpen number (place.any (·.isOpen)) := by
  funext n
  rw [hasOpen, cursor?_set h, Function.update_apply]
  split <;> rfl

theorem hasOpen_append (s : Session FaultyEngine FaultyCursor) (e : FaultyEngine)
    (c : FaultyCursor) :
    hasOpen ⟨e, s.cursors ++ [some c]⟩ = Function.update s.hasOpen s.cursors.length c.isOpen := by
  funext n
  rw [hasOpen, cursor?_append, Function.update_apply]
  split <;> rfl

theorem openStep_idle (h : s.cursor? number = some c) (ho : c.isOpen = false)
    (hnone : a.opened? = none) (hends : ∀ n, a.ends n = decide (number = n))
    {place : Option FaultyCursor} (hplace : place.any (·.isOpen) = false) :
    OpenStep s [a] ⟨s.engine, s.cursors.set number place⟩ := by
  have hidle : s.hasOpen number = false := (hasOpen_of_cursor? h).trans ho
  refine .kept hnone (fun n hn => ?_) (List.length_set ..) ?_ rfl rfl
  · rw [hends, decide_eq_true_eq] at hn
    subst hn
    exact ⟨lt_length_of_cursor? h, hidle⟩
  · rw [hasOpen_set h, hplace, ← hidle, Function.update_eq_self]

/-- A cursor that was open is closed, and counted as closed. -/
theorem openStep_close (h : s.cursor? number = some c) (ho : c.isOpen = true)
    (hnone : a.opened? = none) (hends : ∀ n, a.ends n = decide (number = n))
    {place : Option FaultyCursor} (hplace : place.any (·.isOpen) = false)
    (hcount : e.counters.openCursors = s.engine.counters.openCursors - 1)
    (hpeak : e.counters.maxOpenCursors = s.engine.counters.maxOpenCursors) :
    OpenStep s [a] ⟨e, s.cursors.set number place⟩ := by
  refine .closed hnone hends ((hasOpen_of_cursor? h).trans ho) (List.length_set ..) ?_ hcount hpeak
  rw [hasOpen_set h, hplace]

theorem openStep_poll (h : s.cursor? number = some c) :
    OpenStep s [.polled number (FaultyEngine.next c s.engine).1]
      ⟨(FaultyEngine.next c s.engine).2.2,
        s.cursors.set number (some (FaultyEngine.next c s.engine).2.1)⟩ := by
  obtain ⟨hcount, hpeak⟩ := s.engine.openCursors_readFault
  cases ho : c.isOpen with
  | false =>
      rw [FaultyEngine.next_of_not_isOpen ho]
      exact openStep_idle h ho rfl (fun _ => rfl) ho
  | true =>
      rcases FaultyEngine.next_cases ho s.engine with
        ⟨error, -, hn⟩ | ⟨-, ⟨entry, inner, -, hn⟩ | ⟨inner, -, hn⟩⟩
      · rw [hn, FaultyEngine.close_of_isOpen ho]
        exact openStep_close h ho rfl (fun _ => rfl) rfl (congrArg (· - 1) hcount) hpeak
      · rw [hn]
        refine .kept rfl nofun (List.length_set ..) ?_ hcount hpeak
        rw [hasOpen_set h, Option.any_some, ← hasOpen_of_cursor? h, Function.update_eq_self]
      · rw [hn, FaultyEngine.close_of_isOpen (c := ⟨inner, c.isOpen⟩) ho]
        exact openStep_close h ho rfl (fun _ => rfl) rfl (congrArg (· - 1) hcount) hpeak

theorem openStep_drop (h : s.cursor? number = some c) :
    OpenStep s [.dropped number]
      ⟨(FaultyEngine.close c s.engine).2, s.cursors.set number none⟩ := by
  cases ho : c.isOpen with
  | false =>
      rw [FaultyEngine.close_of_not_isOpen ho]
      exact openStep_idle h ho rfl (fun _ => rfl) rfl
  | true =>
      rw [FaultyEngine.close_of_isOpen ho]
      exact openStep_close h ho rfl (fun _ => rfl) rfl rfl rfl

theorem openStep_write (b : Batch) (s : Session FaultyEngine FaultyCursor) :
    OpenStep s [.written (FaultyEngine.write b s.engine).1]
      { s with engine := (FaultyEngine.write b s.engine).2 } := by
  rcases FaultyEngine.write_cases b s.engine with ⟨_, hw | hw⟩
  · rw [hw]
    exact .kept rfl nofun rfl rfl rfl rfl
  · rw [hw]
    exact .kept rfl nofun rfl rfl rfl rfl

theorem openStep_perform (call : EngineCall) (s : Session FaultyEngine FaultyCursor) :
    OpenStep s (call.perform s).1 (call.perform s).2 := by
  cases call with
  | write b => exact openStep_write b s
  | scan r => exact .opened (List.length_append ..) (hasOpen_append ..) rfl
  | poll number =>
      rw [EngineCall.perform]
      cases h : s.cursor? number with
      | none => exact .gone
      | some c => exact openStep_poll h
  | drop number =>
      rw [EngineCall.perform]
      cases h : s.cursor? number with
      | none => exact .gone
      | some c => exact openStep_drop h

/-- The session has open the cursors that are open by the answers so far. Its engine counts them,
besides the open cursors of others. -/
structure Tracks (others : Nat) (answers : List EngineAnswer)
    (s : Session FaultyEngine FaultyCursor) : Prop where
  placed : ∀ a ∈ answers, ∀ n, a.ends n = true → n < s.cursors.length
  mem_iff : ∀ n, n ∈ openNumbers answers ↔ s.hasOpen n = true
  count : s.engine.counters.openCursors = others + (openNumbers answers).card

variable {others : Nat} {answers as : List EngineAnswer}
  {s' : Session FaultyEngine FaultyCursor}

theorem tracks_start (e : FaultyEngine) : Tracks e.counters.openCursors [] (start e) where
  placed := nofun
  mem_iff _ := iff_of_false (Finset.notMem_empty _) Bool.false_ne_true
  count := rfl

theorem Tracks.step (h : Tracks others answers s) (hstep : OpenStep s as s') :
    Tracks others (answers ++ as) s' := by
  cases hstep with
  | gone => rwa [List.append_nil]
  | @kept a _ none idle places hasOpen count peak =>
      have hsame : openNumbers (answers ++ [a]) = openNumbers answers := by
        rw [openNumbers_append none, Finset.filter_eq_self]
        intro n hn
        refine Bool.eq_false_of_not_eq_true fun hends => ?_
        have hopen := (h.mem_iff n).1 hn
        rw [(idle n hends).2] at hopen
        contradiction
      refine ⟨List.forall_mem_append.2 ⟨?_, List.forall_mem_singleton.2 ?_⟩, ?_, ?_⟩
      · rw [places]
        exact h.placed
      · rw [places]
        exact fun n hn => (idle n hn).1
      · rw [hsame, hasOpen]
        exact h.mem_iff
      · rw [hsame, count, h.count]
  | opened places hasOpen counters =>
      have hnew : ∀ a ∈ answers, a.ends s.cursors.length = false := fun a ha =>
        Bool.eq_false_of_not_eq_true fun hends => Nat.lt_irrefl _ (h.placed a ha _ hends)
      have hclosed : s.cursors.length ∉ openNumbers answers := fun hn =>
        Nat.lt_irrefl _ (lt_length_of_hasOpen ((h.mem_iff _).1 hn))
      refine ⟨List.forall_mem_append.2 ⟨fun a ha n hn => ?_, List.forall_mem_singleton.2 nofun⟩,
        fun n => ?_, ?_⟩
      · rw [places]
        exact Nat.lt_succ_of_lt (h.placed a ha n hn)
      · rw [openNumbers_append_opened hnew, Finset.mem_insert, hasOpen, Function.update_apply,
          h.mem_iff]
        split
        · next hn => exact iff_of_true (.inl hn) rfl
        · next hn => exact or_iff_right hn
      · rw [openNumbers_append_opened hnew, Finset.card_insert_of_notMem hclosed, counters,
          ← Nat.add_assoc, ← h.count]
        rfl
  | @closed a number _ none ends here places hasOpen count peak =>
      have hopen : number ∈ openNumbers answers := (h.mem_iff number).2 here
      refine ⟨List.forall_mem_append.2 ⟨?_, List.forall_mem_singleton.2 fun n hn => ?_⟩,
        fun n => ?_, ?_⟩
      · rw [places]
        exact h.placed
      · rw [ends, decide_eq_true_eq] at hn
        rw [places, ← hn]
        exact lt_length_of_hasOpen here
      · rw [openNumbers_append_of_ends none ends, Finset.mem_erase, hasOpen,
          Function.update_apply, h.mem_iff]
        split
        · next hn => exact iff_of_false (fun hne => hne.1 hn) Bool.false_ne_true
        · next hn => exact and_iff_right hn
      · have hcard := Finset.card_pos.2 ⟨number, hopen⟩
        rw [openNumbers_append_of_ends none ends, Finset.card_erase_of_mem hopen, count, h.count]
        omega

theorem OpenStep.maxOpenCursors_eq (h : OpenStep s as s')
    (hle : s.engine.counters.openCursors ≤ s.engine.counters.maxOpenCursors) :
    s'.engine.counters.maxOpenCursors =
      max s.engine.counters.maxOpenCursors s'.engine.counters.openCursors := by
  cases h with
  | gone => exact (Nat.max_eq_left hle).symm
  | kept none idle places hasOpen count peak => rw [peak, count, Nat.max_eq_left hle]
  | opened places hasOpen counters =>
      rw [counters]
      rfl
  | closed none ends here places hasOpen count peak =>
      rw [peak, count, Nat.max_eq_left (Nat.le_trans (Nat.sub_le ..) hle)]

end Session

/-! ## Every sequence of calls -/

/-- What is asked of a failing engine, and how it is set up in between. -/
inductive FaultyCall where
  | ask (call : EngineCall)
  | reset
  | setRates (rates : FaultRates)
  | failScanAfter (rows : Nat)
  deriving DecidableEq

namespace FaultyCall

open Session

def perform : FaultyCall → Session FaultyEngine FaultyCursor →
    List EngineAnswer × Session FaultyEngine FaultyCursor
  | ask call, s => call.perform s
  | reset, s => ([], { s with engine := s.engine.resetCounters })
  | setRates rates, s => ([], { s with engine := s.engine.setRates rates })
  | failScanAfter rows, s => ([], { s with engine := s.engine.failScanAfter rows })

def upToReset (calls : List FaultyCall) : List FaultyCall := calls.rdropWhile (· ≠ reset)

def sinceReset (calls : List FaultyCall) : List FaultyCall := calls.rtakeWhile (· ≠ reset)

variable {others : Nat} {answers : List EngineAnswer} {s : Session FaultyEngine FaultyCursor}

theorem tracks_perform (h : Tracks others answers s) (call : FaultyCall) :
    Tracks others (answers ++ (call.perform s).1) (call.perform s).2 := by
  cases call with
  | ask call => exact h.step (openStep_perform call s)
  | reset =>
      rw [perform, List.append_nil]
      exact ⟨h.placed, h.mem_iff, h.count⟩
  | setRates rates =>
      rw [perform, List.append_nil]
      exact ⟨h.placed, h.mem_iff, h.count⟩
  | failScanAfter rows =>
      rw [perform, List.append_nil]
      exact ⟨h.placed, h.mem_iff, h.count⟩

theorem tracks_performAll (h : Tracks others answers s) (calls : List FaultyCall) :
    Tracks others (answers ++ (performAll perform calls s).1) (performAll perform calls s).2 :=
  performAll_keeps (P := Tracks others) (fun call _ _ h => tracks_perform h call) h calls

theorem gained_perform {call : FaultyCall} (hcall : call ≠ reset)
    (s : Session FaultyEngine FaultyCursor) :
    s.engine.counters.Gained (call.perform s).1 (call.perform s).2.engine.counters := by
  cases call with
  | ask call => exact call.gained_perform s
  | reset => exact absurd rfl hcall
  | setRates rates => exact .refl _
  | failScanAfter rows => exact .refl _

theorem gained_performAll {calls : List FaultyCall} (hcalls : ∀ call ∈ calls, call ≠ reset)
    (s : Session FaultyEngine FaultyCursor) :
    s.engine.counters.Gained (performAll perform calls s).1
      (performAll perform calls s).2.engine.counters := by
  induction calls generalizing s with
  | nil => exact .refl _
  | cons call calls ih =>
      obtain ⟨hcall, hlater⟩ := List.forall_mem_cons.1 hcalls
      exact (gained_perform hcall s).trans (ih hlater _)

theorem maxOpenCursors_perform {call : FaultyCall} (hcall : call ≠ reset)
    (hle : s.engine.counters.openCursors ≤ s.engine.counters.maxOpenCursors) :
    (call.perform s).2.engine.counters.maxOpenCursors =
      max s.engine.counters.maxOpenCursors (call.perform s).2.engine.counters.openCursors := by
  cases call with
  | ask call => exact (openStep_perform call s).maxOpenCursors_eq hle
  | reset => exact absurd rfl hcall
  | setRates rates => exact (Nat.max_eq_left hle).symm
  | failScanAfter rows => exact (Nat.max_eq_left hle).symm

/-- How many cursors an engine counts as open after some of the calls. -/
def openAfter (calls : List FaultyCall) (s : Session FaultyEngine FaultyCursor) (k : Nat) : Nat :=
  (performAll perform (calls.take k) s).2.engine.counters.openCursors

/-- The most cursors that were open at once were so before the calls, or after some of them. -/
theorem isGreatest_performAll {calls : List FaultyCall} (hcalls : ∀ call ∈ calls, call ≠ reset)
    (hle : s.engine.counters.openCursors ≤ s.engine.counters.maxOpenCursors) :
    IsGreatest (insert s.engine.counters.maxOpenCursors (Set.range (openAfter calls s)))
      (performAll perform calls s).2.engine.counters.maxOpenCursors := by
  induction calls generalizing s with
  | nil =>
      refine ⟨Set.mem_insert _ _, Set.forall_mem_insert.2 ⟨Nat.le_refl _, ?_⟩⟩
      rintro _ ⟨k, rfl⟩
      rw [openAfter, List.take_nil]
      exact hle
  | cons call calls ih =>
      obtain ⟨hcall, hlater⟩ := List.forall_mem_cons.1 hcalls
      have hmax := maxOpenCursors_perform hcall hle
      obtain ⟨hmem, hupper⟩ := ih hlater (hmax ▸ Nat.le_max_right _ _)
      obtain ⟨hfirst, hrest⟩ := Set.forall_mem_insert.1 hupper
      have hgrown := Nat.le_trans (hmax ▸ Nat.le_max_left _ _) hfirst
      refine ⟨?_, Set.forall_mem_insert.2 ⟨hgrown, ?_⟩⟩
      · rcases hmem with heq | ⟨k, hk⟩
        · rw [performAll, heq, hmax]
          rcases max_choice s.engine.counters.maxOpenCursors
            (call.perform s).2.engine.counters.openCursors with h | h
          · exact .inl h
          · exact .inr ⟨1, h.symm⟩
        · exact .inr ⟨k + 1, hk⟩
      · rintro _ ⟨k, rfl⟩
        cases k with
        | zero => exact Nat.le_trans hle hgrown
        | succ k => exact hrest _ ⟨k, rfl⟩

theorem ne_reset_of_mem_sinceReset {calls : List FaultyCall} :
    ∀ call ∈ sinceReset calls, call ≠ reset :=
  fun _ hcall => of_decide_eq_true (List.mem_rtakeWhile_imp (p := (· ≠ reset)) hcall)

theorem upToReset_eq (calls : List FaultyCall) :
    upToReset calls = [] ∨ ∃ earlier, upToReset calls = earlier ++ [reset] := by
  by_cases hne : upToReset calls = []
  · exact .inl hne
  · have hlast := List.rdropWhile_last_not (p := (· ≠ reset)) (l := calls) hne
    refine .inr ⟨(upToReset calls).dropLast, ?_⟩
    conv_lhs => rw [← List.dropLast_append_getLast hne]
    rw [List.append_right_inj, List.singleton_inj]
    exact Decidable.of_not_not fun hne => hlast (decide_eq_true hne)

/-- After the last reset nothing is counted but the cursors that are open. -/
theorem counters_upToReset (words : Nat → UInt32) (rates : FaultRates) (calls : List FaultyCall) :
    ∃ n, (performAll perform (upToReset calls) (start (.make words rates))).2.engine.counters =
      { openCursors := n, maxOpenCursors := n } := by
  rcases upToReset_eq calls with hnil | ⟨earlier, hlast⟩
  · rw [hnil]
    exact ⟨0, rfl⟩
  · rw [hlast, performAll_append, performAll_singleton]
    exact ⟨_, rfl⟩

/-- The counters of a failing engine tell its history, whatever its faults. -/
theorem counters_tell_history (words : Nat → UInt32) (rates : FaultRates)
    (calls : List FaultyCall) :
    let earlier := performAll perform (upToReset calls) (start (.make words rates))
    let recent := performAll perform (sinceReset calls) earlier.2
    let counters := recent.2.engine.counters
    performAll perform calls (start (.make words rates)) = (earlier.1 ++ recent.1, recent.2) ∧
      (∀ n, n ∈ openNumbers (earlier.1 ++ recent.1) ↔ recent.2.hasOpen n = true) ∧
      counters.openCursors = (openNumbers (earlier.1 ++ recent.1)).card ∧
      (∀ n, recent.2.hasOpen n = true → 0 < counters.openCursors) ∧
      IsGreatest (Set.range (openAfter (sinceReset calls) earlier.2)) counters.maxOpenCursors ∧
      counters.cursorsOpened = recent.1.countP (·.isOpened) ∧
      counters.rowsRead = recent.1.countP (·.isRow) ∧
      counters.batchesWritten = recent.1.countP (·.isWritten) ∧
      counters.injectedReadErrors = recent.1.countP (·.isReadFault) ∧
      counters.injectedWriteErrors = recent.1.countP (·.isWriteFault) := by
  intro earlier recent counters
  obtain ⟨n, hfresh⟩ := counters_upToReset words rates calls
  have hfirst : earlier.2.engine.counters = { openCursors := n, maxOpenCursors := n } := hfresh
  have hsplit : performAll perform calls (start (.make words rates)) =
      (earlier.1 ++ recent.1, recent.2) := by
    rw [← List.rdropWhile_append_rtakeWhile (p := (· ≠ reset)) (l := calls)]
    exact performAll_append ..
  have htracks : Tracks 0 (earlier.1 ++ recent.1) recent.2 := by
    have h := tracks_performAll (tracks_start (.make words rates)) calls
    rwa [hsplit] at h
  have hgained : Counters.Gained recent.1 { openCursors := n, maxOpenCursors := n } counters :=
    hfirst ▸ gained_performAll ne_reset_of_mem_sinceReset earlier.2
  have hcount : counters.openCursors = (openNumbers (earlier.1 ++ recent.1)).card :=
    htracks.count.trans (Nat.zero_add _)
  refine ⟨hsplit, htracks.mem_iff, hcount, fun n hn => ?_, ?_,
    hgained.cursorsOpened.trans (Nat.zero_add _), hgained.rowsRead.trans (Nat.zero_add _),
    hgained.batchesWritten.trans (Nat.zero_add _),
    hgained.injectedReadErrors.trans (Nat.zero_add _),
    hgained.injectedWriteErrors.trans (Nat.zero_add _)⟩
  · rw [hcount]
    exact Finset.card_pos.2 ⟨n, (htracks.mem_iff n).2 hn⟩
  · have hpeak : earlier.2.engine.counters.openCursors =
        earlier.2.engine.counters.maxOpenCursors := by rw [hfirst]
    have hstart : earlier.2.engine.counters.maxOpenCursors ∈
        Set.range (openAfter (sinceReset calls) earlier.2) := ⟨0, hpeak⟩
    rw [← Set.insert_eq_of_mem hstart]
    exact isGreatest_performAll ne_reset_of_mem_sinceReset (Nat.le_of_eq hpeak)

/-- Two cursors are open at a reset. Then one fails, which closes it once, and the other comes to
its end and is dropped. -/
theorem counters_tell_history_across_reset :
    let range : KeyRange := ⟨.unbounded, .unbounded, none⟩
    let calls : List FaultyCall :=
      [.ask (.write [.put [1] [1], .put [2] [2]]), .ask (.scan range), .ask (.scan range),
        .ask (.poll 0), .reset, .failScanAfter 1, .ask (.poll 0), .ask (.poll 1), .ask (.poll 1),
        .ask (.poll 0), .ask (.poll 0), .ask (.drop 0)]
    let s := (performAll perform (upToReset calls) (start (.make (fun _ => 0) .none))).2
    let counters := (performAll perform (sinceReset calls) s).2.engine.counters
    counters.openCursors = 0 ∧ IsGreatest (Set.range (openAfter (sinceReset calls) s)) 2 ∧
      counters.cursorsOpened = 0 ∧ counters.rowsRead = 1 ∧ counters.injectedReadErrors = 1 := by
  intro range calls
  obtain ⟨-, -, hopen, -, hpeak, hopened, hrows, -, hfaults, -⟩ :=
    counters_tell_history (fun _ => 0) .none calls
  have hearlier : (performAll perform (upToReset calls) (start (.make (fun _ => 0) .none))).1 =
      [.written (.ok ()), .opened 0, .opened 1, .polled 0 (some (.ok [1]))] := rfl
  have hrecent : (performAll perform (sinceReset calls)
      (performAll perform (upToReset calls) (start (.make (fun _ => 0) .none))).2).1 =
      [.polled 0 (some (.ok [2])),
        .polled 1 (some (.error (.injectedFault "simulated scan failure"))), .polled 1 none,
        .polled 0 none, .polled 0 none, .dropped 0] := rfl
  have hmost : (performAll perform (sinceReset calls) (performAll perform (upToReset calls)
      (start (.make (fun _ => 0) .none))).2).2.engine.counters.maxOpenCursors = 2 := rfl
  rw [hearlier, hrecent] at hopen
  rw [hrecent] at hopened hrows hfaults
  rw [hmost] at hpeak
  exact ⟨hopen, hpeak, hopened, hrows, hfaults⟩

end FaultyCall

end QuadIndex
