import QuadIndex.Proofs.Scan.Progress

/-! # What a failing engine counts

An engine that serves one stream at a time counts one open cursor while the stream holds it, and
none afterwards. Its faults are those that its rates call for, and every batch that it is handed
counts. -/

namespace QuadIndex

namespace FaultyEngine

/-- The engine has faults by the given rates only, and has counted one open cursor at most: the
given one, until it is closed. -/
structure Tended (rates : FaultRates) (cursor : Option FaultyCursor) (e : FaultyEngine) : Prop where
  rates : e.rates = rates
  failAfter : e.failAfter = none
  openCursors : e.counters.openCursors = (cursor.any (·.isOpen)).toNat
  maxOpenCursors : e.counters.maxOpenCursors ≤ 1

theorem tended_make (words : Nat → UInt32) (rates : FaultRates) :
    Tended rates none (make words rates) :=
  ⟨rfl, rfl, rfl, Nat.zero_le 1⟩

namespace Tended

variable {rates : FaultRates} {cursor : Option FaultyCursor} {c : FaultyCursor} {e : FaultyEngine}

/-! ## Reads -/

theorem readFault (h : Tended rates cursor e) : Tended rates cursor e.readFault.2 := by
  rcases e.readFault_cases with ⟨-, hr⟩ | ⟨-, _, hr | hr⟩
  · rw [hr]
    exact ⟨h.rates, rfl, h.openCursors, h.maxOpenCursors⟩
  · rw [hr]
    exact ⟨h.rates, h.failAfter, h.openCursors, h.maxOpenCursors⟩
  · rw [hr]
    exact ⟨h.rates, h.failAfter, h.openCursors, h.maxOpenCursors⟩

theorem scan (h : Tended rates none e) (r : KeyRange) :
    Tended rates (some (FaultyEngine.scan r e).1) (FaultyEngine.scan r e).2 := by
  have hnone : e.counters.openCursors = 0 := h.openCursors
  refine ⟨h.rates, h.failAfter, congrArg (· + 1) hnone, Nat.max_le.2 ⟨h.maxOpenCursors, ?_⟩⟩
  exact Nat.le_of_eq (congrArg (· + 1) hnone)

theorem close (h : Tended rates (some c) e) : Tended rates none (FaultyEngine.close c e).2 := by
  have hopen := h.openCursors
  rw [FaultyEngine.close]
  split
  · next ho =>
    rw [Option.any_some, ho] at hopen
    exact ⟨h.rates, h.failAfter, congrArg (· - 1) hopen, h.maxOpenCursors⟩
  · next ho =>
    rw [Option.any_some, Bool.of_not_eq_true ho] at hopen
    exact ⟨h.rates, h.failAfter, hopen, h.maxOpenCursors⟩

theorem of_none (h : Tended rates none e) (hc : c.isOpen = false) : Tended rates (some c) e :=
  ⟨h.rates, h.failAfter, by rw [h.openCursors, Option.any_some, hc]; rfl, h.maxOpenCursors⟩

theorem isOpen_close (c : FaultyCursor) (e : FaultyEngine) :
    (FaultyEngine.close c e).1.isOpen = false := by
  rw [FaultyEngine.close]
  split
  · rfl
  · next ho => exact Bool.of_not_eq_true ho

theorem next (h : Tended rates (some c) e) :
    Tended rates (some (FaultyEngine.next c e).2.1) (FaultyEngine.next c e).2.2 := by
  have hr := h.readFault
  cases ho : c.isOpen with
  | false => rwa [next_of_not_isOpen ho]
  | true =>
      have closed {inner : Cursor} : Tended rates
          (some (FaultyEngine.close { c with inner } e.readFault.2).1)
          (FaultyEngine.close { c with inner } e.readFault.2).2 :=
        have hc : Tended rates (some { c with inner }) e.readFault.2 :=
          ⟨hr.rates, hr.failAfter, hr.openCursors, hr.maxOpenCursors⟩
        hc.close.of_none (isOpen_close _ _)
      rcases next_cases ho e with ⟨_, -, hn⟩ | ⟨-, ⟨_, _, -, hn⟩ | ⟨_, -, hn⟩⟩
      · rw [hn]
        exact closed
      · rw [hn]
        exact ⟨hr.rates, by simp [rowRead, hr.failAfter], hr.openCursors, hr.maxOpenCursors⟩
      · rw [hn]
        exact closed

/-- Streams leave the count of open cursors as it is when they hold none. -/
theorem custody (rates : FaultRates) :
    ResultStream.Custody fun (_ : List Scan) => Tended rates where
  opened _ h := h.scan _
  exhausted h hn := by
    have hnext := h.next
    change FaultyEngine.next _ _ = _ at hn
    rw [hn] at hnext
    exact hnext.close
  row h hn := by
    have hnext := h.next
    change FaultyEngine.next _ _ = _ at hn
    rwa [hn] at hnext
  released h := h.close
  ended h := h

/-- Only the rates can make an engine fail. -/
theorem injects_of_not_quiet (h : Tended rates cursor e) (hloud : ¬ Quiet e) :
    rates.injects = true := by
  rw [← h.rates]
  refine Bool.of_not_eq_false fun hinjects => hloud ?_
  rw [FaultRates.injects, Bool.or_eq_false_iff] at hinjects
  exact ⟨hinjects.1, hinjects.2, h.failAfter⟩

theorem resetCounters (h : Tended rates none e) : Tended rates none e.resetCounters :=
  ⟨h.rates, h.failAfter, h.openCursors, Nat.le_trans (Nat.le_of_eq h.openCursors) (Nat.zero_le 1)⟩

/-! ## Writes -/

theorem write (h : Tended rates cursor e) (b : Batch) : Tended rates cursor (e.write b).2 := by
  rcases write_cases b e with ⟨_, hw | hw⟩
  · rw [hw]
    exact ⟨h.rates, h.failAfter, h.openCursors, h.maxOpenCursors⟩
  · rw [hw]
    exact ⟨h.rates, h.failAfter, h.openCursors, h.maxOpenCursors⟩

theorem fault_of_write_error (h : Tended rates cursor e) {b : Batch} {error : EngineError}
    {e' : FaultyEngine} (hw : e.write b = (.error error, e')) :
    rates.injects = true ∧ ∃ reason, error = .injectedFault reason := by
  refine ⟨h.injects_of_not_quiet fun hq => ?_, ?_⟩
  · have hok := (write_of_quiet b hq).1
    rw [hw] at hok
    contradiction
  · rcases write_cases b e with ⟨_, hok | herror⟩
    · cases hw.symm.trans hok
    · exact ⟨_, Except.error.inj (congrArg Prod.fst (hw.symm.trans herror))⟩

end Tended
end FaultyEngine

/-! ## Batches of a run -/

/-- Operations lead from one state of an engine to another, and hand it the batches. -/
inductive EngineRun {σ κ : Type} [Engine σ κ] (s : σ) : List Batch → σ → Prop
  | start : EngineRun s [] s
  | scan {bs : List Batch} {s' : σ} (h : EngineRun s bs s') (r : KeyRange) :
      EngineRun s bs (Engine.scan r s').2
  | next {bs : List Batch} {s' : σ} (h : EngineRun s bs s') (c : κ) :
      EngineRun s bs (Engine.next c s').2.2
  | release {bs : List Batch} {s' : σ} (h : EngineRun s bs s') (c : κ) :
      EngineRun s bs (Engine.release c s')
  | write {bs : List Batch} {s' : σ} (h : EngineRun s bs s') (b : Batch) :
      EngineRun s (bs ++ [b]) (Engine.write b s').2

theorem EngineRun.custody {σ κ : Type} [Engine σ κ] (s : σ) (bs : List Batch) :
    ResultStream.Custody fun (_ : List Scan) (_ : Option κ) s' => EngineRun s bs s' where
  opened _ h := h.scan _
  exhausted {_ c _ _ _} h hn := by
    have hnext := h.next c
    rw [hn] at hnext
    exact hnext.release _
  row {_ c _ _ _ _} h hn := by
    have hnext := h.next c
    rwa [hn] at hnext
  released h := h.release _
  ended h := h

namespace FaultyEngine

variable {e e' : FaultyEngine} {bs : List Batch}

theorem batchesWritten_close (c : FaultyCursor) (e : FaultyEngine) :
    (close c e).2.counters.batchesWritten = e.counters.batchesWritten := by
  rw [close]
  split <;> rfl

theorem batchesWritten_readFault (e : FaultyEngine) :
    e.readFault.2.counters.batchesWritten = e.counters.batchesWritten := by
  rcases e.readFault_cases with ⟨-, h⟩ | ⟨-, _, h | h⟩
  · rw [h]
    rfl
  · rw [h]
    rfl
  · rw [h]

theorem batchesWritten_next (c : FaultyCursor) (e : FaultyEngine) :
    (next c e).2.2.counters.batchesWritten = e.counters.batchesWritten :=
  next_keeps (P := fun e' => e'.counters.batchesWritten = e.counters.batchesWritten) rfl
    e.batchesWritten_readFault (fun _ => id) (fun c e' => (batchesWritten_close c e').trans) c

theorem batchesWritten_write (b : Batch) (e : FaultyEngine) :
    (e.write b).2.counters.batchesWritten = e.counters.batchesWritten + 1 := by
  rcases write_cases b e with ⟨_, hw | hw⟩
  · rw [hw]
    rfl
  · rw [hw]
    rfl

/-- The engine counts the batches of a run, whether or not they were applied. -/
theorem batchesWritten_run (h : EngineRun e bs e') :
    e'.counters.batchesWritten = e.counters.batchesWritten + bs.length := by
  induction h with
  | start => rfl
  | scan _ _ ih => exact ih
  | next _ c ih => exact (batchesWritten_next c _).trans ih
  | release _ c ih => exact (batchesWritten_close c _).trans ih
  | write _ b ih =>
      refine (batchesWritten_write b _).trans ?_
      rw [ih, List.length_append, List.length_singleton, Nat.add_assoc]

end FaultyEngine

end QuadIndex
