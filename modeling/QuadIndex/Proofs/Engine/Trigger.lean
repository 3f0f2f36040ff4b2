import QuadIndex.Proofs.Engine.Tally
import QuadIndex.Proofs.Table.Traversal

/-! # One fault, after a set number of rows

An engine whose rates are not positive answers as its table does. If it is told to fail after a
number of rows, it does so at the first poll of an open cursor after them, and then never again. -/

namespace QuadIndex

def rowsIn (answers : List EngineAnswer) : Nat := answers.countP (·.isRow)

theorem rowsIn_append (as bs : List EngineAnswer) : rowsIn (as ++ bs) = rowsIn as + rowsIn bs :=
  List.countP_append

theorem Cursor.finished_of_next_none {c d : Cursor} {t : Table} (h : c.next t = (none, d)) :
    d.finished = true := by
  rcases next_cases c t with ⟨d', hd, hfinished, -⟩ | ⟨_, _, -, -, hsome⟩
  · cases h.symm.trans hd
    exact hfinished
  · cases h.symm.trans hsome

/-! ## Engines that cannot fail by chance -/

namespace FaultyEngine

/-- No fault comes by chance, and one comes after the given number of rows, if there is one. -/
structure Armed (trigger : Option Nat) (e : FaultyEngine) : Prop where
  read : e.rates.read.isPositive = false
  write : e.rates.write.isPositive = false
  failAfter : e.failAfter = trigger

/-- A cursor that has finished stands where it is, open or not. -/
theorem place_of_finished {c : FaultyCursor} (h : c.inner.finished = true) : place c = c.inner := by
  rw [place, ← h]
  exact ite_self _

namespace Armed

variable {trigger : Option Nat} {e : FaultyEngine} {c : FaultyCursor}

theorem readFault (h : Armed trigger e) (hunset : trigger ≠ some 0) : e.readFault = (none, e) := by
  rw [FaultyEngine.readFault, h.failAfter, if_neg hunset, e.strikes_of_not_isPositive h.read]

theorem readFault_struck (h : Armed (some 0) e) :
    e.readFault =
      (some (.injectedFault "simulated scan failure"), { e with failAfter := none }.readStruck) :=
  if_pos h.failAfter

theorem write_eq (h : Armed trigger e) (b : Batch) :
    FaultyEngine.write b e = (.ok (), { e.handed with table := e.table.apply b }) := by
  unfold FaultyEngine.write
  dsimp only
  rw [strikes_of_not_isPositive _ (r := (count e _).rates.write) h.write]
  rfl

theorem count (h : Armed trigger e) (f : Counters → Counters) : Armed trigger (e.count f) :=
  ⟨h.read, h.write, h.failAfter⟩

theorem close (h : Armed trigger e) (c : FaultyCursor) : Armed trigger (close c e).2 := by
  rw [FaultyEngine.close]
  split
  · exact h.count _
  · exact h

theorem rowRead (h : Armed trigger e) : Armed (trigger.map (· - 1)) e.rowRead :=
  ⟨h.read, h.write, congrArg (Option.map (· - 1)) h.failAfter⟩

theorem idle (h : Armed trigger e) {answers : List EngineAnswer} (hrows : rowsIn answers = 0) :
    Armed (trigger.map (· - rowsIn answers)) e := by
  have hsame : trigger.map (· - rowsIn answers) = trigger := by
    rw [hrows]
    exact Option.map_id'
  rwa [hsame]

/-- A poll that meets no fault is one of the table. -/
theorem next (h : Armed trigger e) (hc : trigger = some 0 → c.isOpen = false) (number : Nat) :
    Engine.next (place c) e.table =
        ((FaultyEngine.next c e).1, place (FaultyEngine.next c e).2.1,
          (FaultyEngine.next c e).2.2.table) ∧
      Armed (trigger.map (· - rowsIn [.polled number (FaultyEngine.next c e).1]))
        (FaultyEngine.next c e).2.2 := by
  cases ho : c.isOpen with
  | false =>
      have hplace : place c = { c.inner with finished := true } := if_neg (by simp [ho])
      rw [next_of_not_isOpen ho, Table.next_eq, hplace, Cursor.next_of_finished rfl]
      exact ⟨rfl, h.idle rfl⟩
  | true =>
      have hr : e.readFault = (none, e) := h.readFault fun h0 => by simp [hc h0] at ho
      rw [Table.next_eq, place_of_isOpen ho]
      rcases next_cases ho e with ⟨error, hf, -⟩ | ⟨-, ⟨entry, inner, hi, hn⟩ | ⟨inner, hi, hn⟩⟩
      · rw [hr] at hf
        contradiction
      · rw [hn, hr, hi, place_of_isOpen (c := ⟨inner, c.isOpen⟩) ho]
        exact ⟨rfl, h.rowRead⟩
      · have hplace : place ⟨inner, false⟩ = inner :=
          place_of_finished (Cursor.finished_of_next_none hi)
        rw [hn, hr, hi, close_of_isOpen (c := ⟨inner, c.isOpen⟩) ho, hplace]
        exact ⟨rfl, (h.count _).idle rfl⟩

end Armed

end FaultyEngine

namespace Session

open FaultyEngine

def plain (s : Session FaultyEngine FaultyCursor) : Session Table Cursor :=
  ⟨s.engine.table, s.cursors.map (·.map place)⟩

theorem cursor?_plain (s : Session FaultyEngine FaultyCursor) (n : Nat) :
    s.plain.cursor? n = (s.cursor? n).map place := by
  rw [cursor?, plain, List.getElem?_map, cursor?]
  cases s.cursors[n]? <;> rfl

theorem plain_set (s : Session FaultyEngine FaultyCursor) (e : FaultyEngine) (number : Nat)
    (c : Option FaultyCursor) :
    plain ⟨e, s.cursors.set number c⟩ =
      ⟨e.table, s.plain.cursors.set number (c.map place)⟩ := by
  rw [plain, List.map_set]
  rfl

variable {trigger : Option Nat} {s : Session FaultyEngine FaultyCursor}

/-- A call that meets no fault is answered as over the table. -/
theorem perform_plain (h : Armed trigger s.engine) {call : EngineCall}
    (hcall : trigger = some 0 → ∀ n, call = .poll n → s.hasOpen n = false) :
    call.perform s.plain = ((call.perform s).1, (call.perform s).2.plain) ∧
      Armed (trigger.map (· - rowsIn (call.perform s).1)) (call.perform s).2.engine := by
  cases call with
  | write b =>
      have hw : Engine.write b s.engine = _ := h.write_eq b
      have hwritten : Armed trigger { s.engine.handed with table := s.engine.table.apply b } :=
        ⟨h.read, h.write, h.failAfter⟩
      rw [EngineCall.perform, EngineCall.perform, hw]
      exact ⟨rfl, hwritten.idle rfl⟩
  | scan r =>
      refine ⟨?_, (h.count _).idle rfl⟩
      rw [EngineCall.perform, EngineCall.perform, plain, plain, List.length_map, List.map_append]
      rfl
  | poll number =>
      rw [EngineCall.perform, EngineCall.perform, cursor?_plain]
      cases hs : s.cursor? number with
      | none => exact ⟨rfl, h.idle rfl⟩
      | some c =>
          have hc : trigger = some 0 → c.isOpen = false := fun h0 =>
            (hasOpen_of_cursor? hs).symm.trans (hcall h0 number rfl)
          obtain ⟨hnext, harmed⟩ := h.next hc number
          refine ⟨?_, harmed⟩
          have hplain : Engine.next (place c) s.plain.engine = _ := hnext
          simp only [Option.map_some, hplain, plain_set]
          rfl
  | drop number =>
      rw [EngineCall.perform, EngineCall.perform, cursor?_plain]
      cases hs : s.cursor? number with
      | none => exact ⟨rfl, h.idle rfl⟩
      | some c =>
          refine ⟨?_, (h.close c).idle rfl⟩
          simp only [Option.map_some, plain_set]
          exact congrArg (fun t => ([EngineAnswer.dropped number], (⟨t, _⟩ : Session Table Cursor)))
            (table_close c s.engine).symm

/-! ## Runs without a fault -/

/-- The calls poll no open cursor once there were that many rows. -/
def Spares (rows : Nat) (history : List EngineAnswer) (t : Session Table Cursor)
    (calls : List EngineCall) : Prop :=
  ∀ earlier number later, calls = earlier ++ .poll number :: later →
    number ∈ openNumbers (history ++ t.answers earlier) → rowsIn (t.answers earlier) < rows

variable {rows others number : Nat} {history : List EngineAnswer} {t t' : Session Table Cursor}
  {call : EngineCall} {calls : List EngineCall}

theorem spares_nil : Spares rows history t [] := fun earlier _ _ h => by simp at h

theorem spares_concat_iff :
    Spares rows history t (calls ++ [call]) ↔
      Spares rows history t calls ∧
        ∀ n, call = .poll n → n ∈ openNumbers (history ++ t.answers calls) →
          rowsIn (t.answers calls) < rows := by
  constructor
  · intro h
    refine ⟨fun earlier n later heq => h earlier n (later ++ [call]) ?_, ?_⟩
    · rw [heq, List.append_assoc, List.cons_append]
    · rintro n rfl
      exact h calls n [] rfl
  · rintro ⟨hcalls, hcall⟩ earlier n later heq
    rcases List.eq_nil_or_concat later with rfl | ⟨later, last, rfl⟩
    · obtain ⟨rfl, hlast⟩ := List.append_inj' heq rfl
      exact hcall n (List.singleton_inj.1 hlast)
    · rw [List.concat_eq_append, ← List.cons_append, ← List.append_assoc] at heq
      exact hcalls earlier n later (List.append_inj' heq rfl).1

theorem Tracks.after (h : Tracks others history s) (calls : List EngineCall) :
    Tracks others (history ++ s.answers calls) (s.after calls) :=
  performAll_keeps (P := Tracks others) (fun call _ _ h => h.step (openStep_perform call _)) h calls

/-- A poll of an open cursor is spared only while there are rows to come. -/
theorem rowsIn_lt_of_hasOpen (ht : Tracks others history s)
    (hs : Spares rows history s.plain (calls ++ [.poll number]))
    (hanswers : s.plain.answers calls = s.answers calls)
    (hopen : (s.after calls).hasOpen number = true) : rowsIn (s.answers calls) < rows := by
  have hmem := ((ht.after calls).mem_iff number).2 hopen
  rw [← hanswers] at hmem ⊢
  exact hs calls number [] rfl hmem

/-- Calls that meet no fault are answered as over the table. -/
theorem run_plain (h : Armed trigger s.engine) (ht : Tracks others history s)
    (calls : List EngineCall)
    (hs : ∀ rows, trigger = some rows → Spares rows history s.plain calls) :
    s.plain.answers calls = s.answers calls ∧ s.plain.after calls = (s.after calls).plain ∧
      Armed (trigger.map (· - rowsIn (s.answers calls))) (s.after calls).engine := by
  induction calls using List.reverseRecOn with
  | nil => exact ⟨rfl, rfl, h.idle rfl⟩
  | append_singleton calls call ih =>
      obtain ⟨hanswers, hafter, harmed⟩ := ih fun rows hrows =>
        (spares_concat_iff.1 (hs rows hrows)).1
      have hcall : trigger.map (· - rowsIn (s.answers calls)) = some 0 →
          ∀ n, call = .poll n → (s.after calls).hasOpen n = false := by
        rintro hzero n rfl
        obtain ⟨rows, hrows, hspent⟩ := Option.map_eq_some_iff.1 hzero
        by_contra hopen
        have hlt := rowsIn_lt_of_hasOpen ht (hs rows hrows) hanswers
          (Bool.eq_true_of_not_eq_false hopen)
        exact Nat.sub_ne_zero_of_lt hlt hspent
      obtain ⟨hperform, harmed'⟩ := perform_plain harmed hcall
      have hsum : trigger.map (· - rowsIn (s.answers calls ++ (call.perform (s.after calls)).1)) =
          (trigger.map (· - rowsIn (s.answers calls))).map
            (· - rowsIn (call.perform (s.after calls)).1) := by
        rw [Option.map_map, rowsIn_append]
        exact congrArg (Option.map · trigger) (funext fun n => Nat.sub_add_eq n _ _)
      rw [answers_append, after_append, answers_append, after_append, hanswers, hafter,
        answers_singleton, after_singleton, answers_singleton, after_singleton, hperform, hsum]
      exact ⟨rfl, rfl, harmed'⟩

theorem run_spares (h : Armed (some rows) s.engine) (ht : Tracks others history s)
    (hs : Spares rows history s.plain calls) :
    s.plain.answers calls = s.answers calls ∧ s.plain.after calls = (s.after calls).plain ∧
      Armed (some (rows - rowsIn (s.answers calls))) (s.after calls).engine :=
  run_plain h ht calls fun _ hrows => Option.some.inj hrows ▸ hs

/-! ## The fault -/

/-- The calls give that many rows, and none of them polls an open cursor after these rows. The
cursor with the number is still open. -/
structure Strikes (rows : Nat) (history : List EngineAnswer) (t : Session Table Cursor)
    (calls : List EngineCall) (number : Nat) : Prop where
  spares : Spares rows history t calls
  rows_eq : rowsIn (t.answers calls) = rows
  isOpen : number ∈ openNumbers (history ++ t.answers calls)

/-- The places of a cursor are the same, except that the second has finished at the number. -/
inductive Follows (number n : Nat) : Option Cursor → Option Cursor → Prop
  | gone : Follows number n none none
  | finished {c c' : Cursor} (here : n = number) (finished : c'.finished = true) :
      Follows number n (some c) (some c')
  | same {c : Cursor} (other : n ≠ number) : Follows number n (some c) (some c)

/-- The second session is as the first, but one of its cursors has finished. -/
structure Apart (number : Nat) (t t' : Session Table Cursor) : Prop where
  engine : t'.engine = t.engine
  length : t'.cursors.length = t.cursors.length
  within : number < t.cursors.length
  follows : ∀ n, Follows number n (t.cursor? n) (t'.cursor? n)

end Session

/-- The answer, if the cursor finds nothing more. -/
def EngineAnswer.silenced (number : Nat) : EngineAnswer → EngineAnswer
  | polled n row => polled n (if n = number then none else row)
  | a => a

namespace Session

open FaultyEngine

variable {rows others number : Nat} {history : List EngineAnswer} {t t' : Session Table Cursor}
  {calls : List EngineCall}

namespace Apart

theorem set {n : Nat} {c c' : Cursor} {p p' : Option Cursor} (h : Apart number t t')
    (hc : t.cursor? n = some c) (hc' : t'.cursor? n = some c') (hp : Follows number n p p') :
    Apart number ⟨t.engine, t.cursors.set n p⟩ ⟨t'.engine, t'.cursors.set n p'⟩ := by
  refine ⟨h.engine, ?_, ?_, fun m => ?_⟩
  · simp only [List.length_set, h.length]
  · simpa only [List.length_set] using h.within
  · rw [cursor?_set hc', cursor?_set hc]
    split
    · next hm => rwa [hm]
    · exact h.follows m

theorem perform (h : Apart number t t') (call : EngineCall) :
    (call.perform t').1 = (call.perform t).1.map (·.silenced number) ∧
      Apart number (call.perform t).2 (call.perform t').2 := by
  cases call with
  | write b => exact ⟨rfl, congrArg (Table.apply · b) h.engine, h.length, h.within, h.follows⟩
  | scan r =>
      rw [EngineCall.perform, EngineCall.perform, h.length]
      refine ⟨rfl, h.engine, ?_, ?_, fun n => ?_⟩
      · simp only [List.length_append, List.length_singleton, h.length]
      · rw [List.length_append]
        exact Nat.lt_add_right 1 h.within
      · rw [cursor?_append, cursor?_append, h.length]
        split
        · next hn => exact .same (hn ▸ Nat.ne_of_gt h.within)
        · exact h.follows n
  | poll n =>
      have hn := h.follows n
      rw [EngineCall.perform, EngineCall.perform]
      generalize hp : t.cursor? n = p at hn ⊢
      generalize hp' : t'.cursor? n = p' at hn ⊢
      cases hn with
      | gone => exact ⟨rfl, h⟩
      | finished here finished =>
          simp only [Table.next_eq, Cursor.next_of_finished finished]
          refine ⟨?_, h.set hp hp' (.finished here finished)⟩
          rw [List.map_singleton, EngineAnswer.silenced, if_pos here]
          rfl
      | same other =>
          simp only [Table.next_eq, h.engine]
          refine ⟨?_, h.engine ▸ h.set hp hp' (.same other)⟩
          rw [List.map_singleton, EngineAnswer.silenced, if_neg other]
  | drop n =>
      have hn := h.follows n
      rw [EngineCall.perform, EngineCall.perform]
      generalize hp : t.cursor? n = p at hn ⊢
      generalize hp' : t'.cursor? n = p' at hn ⊢
      cases hn with
      | gone => exact ⟨rfl, h⟩
      | finished => exact ⟨rfl, h.set hp hp' .gone⟩
      | same => exact ⟨rfl, h.set hp hp' .gone⟩

theorem run (h : Apart number t t') (calls : List EngineCall) :
    t'.answers calls = (t.answers calls).map (·.silenced number) := by
  induction calls generalizing t t' with
  | nil => rfl
  | cons call calls ih =>
      obtain ⟨hanswers, hafter⟩ := h.perform call
      calc t'.answers (call :: calls)
        _ = (call.perform t').1 ++ (call.perform t').2.answers calls := rfl
        _ = ((call.perform t).1 ++ (call.perform t).2.answers calls).map (·.silenced number) := by
          rw [hanswers, ih hafter, List.map_append]

end Apart

theorem apart_of_finished {c c' : Cursor} (hc : t.cursor? number = some c)
    (hfinished : c'.finished = true) :
    Apart number t ⟨t.engine, t.cursors.set number (some c')⟩ := by
  refine ⟨rfl, List.length_set .., lt_length_of_cursor? hc, fun n => ?_⟩
  rw [cursor?_set hc]
  split
  · next hn => rw [hn, hc]; exact .finished rfl hfinished
  · next hn =>
    cases t.cursor? n with
    | none => exact .gone
    | some c => exact .same hn

/-- The poll that comes after the set number of rows fails, and finishes its cursor. -/
theorem perform_poll_struck (h : Armed (some 0) s.engine) (hopen : s.hasOpen number = true) :
    ((EngineCall.poll number).perform s).1 =
        [.polled number (some (.error (.injectedFault "simulated scan failure")))] ∧
      Armed none ((EngineCall.poll number).perform s).2.engine ∧
      Apart number s.plain ((EngineCall.poll number).perform s).2.plain := by
  cases hs : s.cursor? number with
  | none =>
      rw [hasOpen, hs] at hopen
      contradiction
  | some c =>
      have ho : c.isOpen = true := (hasOpen_of_cursor? hs).symm.trans hopen
      have hnext : Engine.next c s.engine =
          (some (.error (.injectedFault "simulated scan failure")), { c with isOpen := false },
            { s.engine with failAfter := none }.readStruck.count Counters.closed) := by
        change FaultyEngine.next c s.engine = _
        rw [FaultyEngine.next, if_pos ho, h.readFault_struck]
        simp only [close_of_isOpen ho]
      have hplain : s.plain.cursor? number = some (place c) := by rw [cursor?_plain, hs]; rfl
      rw [EngineCall.perform, hs]
      dsimp only
      rw [hnext]
      refine ⟨rfl, ⟨h.read, h.write, rfl⟩, ?_⟩
      dsimp only
      rw [plain_set]
      exact apart_of_finished hplain rfl

/-! ## When the fault comes -/

theorem rowsIn_perform_le (call : EngineCall) (s : Session FaultyEngine FaultyCursor) :
    rowsIn (call.perform s).1 ≤ 1 := by
  refine Nat.le_trans List.countP_le_length ?_
  cases call with
  | write b => exact Nat.le_refl 1
  | scan r => exact Nat.le_refl 1
  | poll n =>
      rw [EngineCall.perform]
      split
      · exact Nat.zero_le 1
      · exact Nat.le_refl 1
  | drop n =>
      rw [EngineCall.perform]
      split
      · exact Nat.zero_le 1
      · exact Nat.le_refl 1

theorem rowsIn_perform_eq_zero {call : EngineCall}
    (h : ∀ n, call = .poll n → s.hasOpen n = false) : rowsIn (call.perform s).1 = 0 := by
  cases call with
  | write b => rfl
  | scan r => rfl
  | poll n =>
      rw [EngineCall.perform]
      cases hs : s.cursor? n with
      | none => rfl
      | some c =>
          have hnext : Engine.next c s.engine = _ :=
            next_of_not_isOpen ((hasOpen_of_cursor? hs).symm.trans (h n rfl)) s.engine
          dsimp only
          rw [hnext]
          rfl
  | drop n =>
      rw [EngineCall.perform]
      split <;> rfl

theorem rowsIn_le_of_spares (h : Armed (some rows) s.engine) (ht : Tracks others history s)
    (hs : Spares rows history s.plain calls) : rowsIn (s.answers calls) ≤ rows := by
  induction calls using List.reverseRecOn with
  | nil => exact Nat.zero_le rows
  | append_singleton calls call ih =>
      have hcalls := (spares_concat_iff.1 hs).1
      rw [answers_append, answers_singleton, rowsIn_append]
      by_cases hopen : ∀ n, call = .poll n → (s.after calls).hasOpen n = false
      · rw [rowsIn_perform_eq_zero hopen]
        exact ih hcalls
      · push Not at hopen
        obtain ⟨n, rfl, hopen⟩ := hopen
        have hlt := rowsIn_lt_of_hasOpen ht hs (run_spares h ht hcalls).1
          (Bool.eq_true_of_not_eq_false hopen)
        exact Nat.le_trans (Nat.add_le_add_left (rowsIn_perform_le _ _) _) hlt

/-- The calls either meet no fault, or they do so at one place. -/
theorem spares_or_strikes (h : Armed (some rows) s.engine) (ht : Tracks others history s)
    (calls : List EngineCall) :
    Spares rows history s.plain calls ∨ ∃ during number later,
      calls = during ++ .poll number :: later ∧ Strikes rows history s.plain during number := by
  induction calls using List.reverseRecOn with
  | nil => exact .inl spares_nil
  | append_singleton calls call ih =>
      rcases ih with hspares | ⟨during, number, later, heq, hstrikes⟩
      · by_cases hcall : ∀ n, call = .poll n → n ∈ openNumbers (history ++ s.plain.answers calls) →
          rowsIn (s.plain.answers calls) < rows
        · exact .inl (spares_concat_iff.2 ⟨hspares, hcall⟩)
        · push Not at hcall
          obtain ⟨n, rfl, hopen, hge⟩ := hcall
          have hanswers := (run_spares h ht hspares).1
          have hle := rowsIn_le_of_spares h ht hspares
          exact .inr ⟨calls, n, [], rfl, hspares, Nat.le_antisymm (hanswers ▸ hle) hge, hopen⟩
      · refine .inr ⟨during, number, later ++ [call], ?_, hstrikes⟩
        rw [heq, List.append_assoc, List.cons_append]

/-- After the fault the engine answers as its table does again, but for the cursor that met it. -/
theorem run_strikes (h : Armed (some rows) s.engine) (ht : Tracks others history s)
    (hs : Strikes rows history s.plain calls number) (later : List EngineCall) :
    s.answers (calls ++ .poll number :: later) =
        s.plain.answers calls ++
          .polled number (some (.error (.injectedFault "simulated scan failure"))) ::
            ((s.plain.after calls).answers later).map (·.silenced number) ∧
      Armed none (s.after (calls ++ .poll number :: later)).engine ∧
      ∀ n, (s.after (calls ++ [.poll number])).hasOpen n = true ↔
        n ≠ number ∧ (s.after calls).hasOpen n = true := by
  obtain ⟨hanswers, hafter, harmed⟩ := run_spares h ht hs.spares
  have hready : Armed (some 0) (s.after calls).engine := by
    rwa [← hanswers, hs.rows_eq, Nat.sub_self] at harmed
  have hopen : (s.after calls).hasOpen number = true :=
    ((ht.after calls).mem_iff number).1 (hanswers ▸ hs.isOpen)
  obtain ⟨hpoll, hcleared, hapart⟩ := perform_poll_struck hready hopen
  have hstruck := ht.after (calls ++ [.poll number])
  rw [after_append, after_singleton] at hstruck
  obtain ⟨hplain, -, hlater⟩ := run_plain hcleared hstruck later nofun
  rw [List.append_cons, answers_append, answers_append, after_append, after_append, after_append,
    answers_singleton, after_singleton, hpoll, ← hplain, hapart.run, ← hafter, hanswers,
    List.append_assoc]
  refine ⟨rfl, hlater, fun n => ?_⟩
  rw [← hstruck.mem_iff, answers_append, answers_singleton, hpoll, ← List.append_assoc,
    openNumbers_append_of_ends rfl fun _ => rfl, Finset.mem_erase, (ht.after calls).mem_iff]

end Session

/-! ## How many faults there are -/

def EngineAnswer.Faultless (a : EngineAnswer) : Prop :=
  a.isReadFault = false ∧ a.isWriteFault = false

namespace Session

variable {number : Nat}

theorem gained_after (s : Session FaultyEngine FaultyCursor) (calls : List EngineCall) :
    s.engine.counters.Gained (s.answers calls) (s.after calls).engine.counters :=
  performAll_keeps (P := fun as s' => s.engine.counters.Gained as s'.engine.counters)
    (fun call _ s' h => h.trans (call.gained_perform s')) (.refl _) calls

theorem faultless_perform (call : EngineCall) (t : Session Table Cursor) :
    ∀ a ∈ (call.perform t).1, a.Faultless := by
  cases call with
  | write b => exact List.forall_mem_singleton.2 ⟨rfl, rfl⟩
  | scan r => exact List.forall_mem_singleton.2 ⟨rfl, rfl⟩
  | poll n =>
      rw [EngineCall.perform]
      split
      · exact List.forall_mem_nil _
      · next c _ =>
        rw [Table.next_eq]
        refine List.forall_mem_singleton.2 ?_
        cases (c.next t.engine).1 with
        | none => exact ⟨rfl, rfl⟩
        | some entry => exact ⟨rfl, rfl⟩
  | drop n =>
      rw [EngineCall.perform]
      split
      · exact List.forall_mem_nil _
      · exact List.forall_mem_singleton.2 ⟨rfl, rfl⟩

theorem faultless_answers (t : Session Table Cursor) (calls : List EngineCall) :
    ∀ a ∈ t.answers calls, a.Faultless := by
  have hnone : ∀ a ∈ ([] : List EngineAnswer), a.Faultless := List.forall_mem_nil _
  exact performAll_keeps (P := fun as _ => ∀ a ∈ as, a.Faultless)
    (fun call _ t h => List.forall_mem_append.2 ⟨h, faultless_perform call t⟩) hnone calls

theorem faultless_silenced {a : EngineAnswer} (h : a.Faultless) :
    (a.silenced number).Faultless := by
  cases a with
  | polled n row =>
      rw [EngineAnswer.silenced]
      split
      · exact ⟨rfl, rfl⟩
      · exact h
  | _ => exact h

end Session

/-- Where one fault of a read stands among answers that are none, it is the only one. -/
theorem Counters.Gained.one_fault {a : EngineAnswer} {as bs : List EngineAnswer} {c c' : Counters}
    (h : Gained (as ++ a :: bs) c c') (has : ∀ a ∈ as, a.Faultless) (hbs : ∀ a ∈ bs, a.Faultless)
    (hread : a.isReadFault = true) (hwrite : a.isWriteFault = false) :
    c'.injectedReadErrors = c.injectedReadErrors + 1 ∧
      c'.injectedWriteErrors = c.injectedWriteErrors := by
  have hzero : ∀ l : List EngineAnswer, (∀ a ∈ l, a.Faultless) →
      l.countP (·.isReadFault) = 0 ∧ l.countP (·.isWriteFault) = 0 := fun l hl =>
    ⟨List.countP_eq_zero.2 fun a ha => by simp [(hl a ha).1],
      List.countP_eq_zero.2 fun a ha => by simp [(hl a ha).2]⟩
  constructor
  · rw [h.injectedReadErrors, List.countP_append, List.countP_cons, (hzero as has).1,
      (hzero bs hbs).1, if_pos hread]
  · rw [h.injectedWriteErrors, List.countP_append, List.countP_cons, (hzero as has).2,
      (hzero bs hbs).2, if_neg (by simp [hwrite])]
    rfl

/-! ## Every sequence of calls -/

namespace FaultyCall

open Session

/-- Whatever an engine went through, while its rates are not positive it answers as its table does
if no fault is set. If one is set, it comes at the first poll of an open cursor after the given
number of rows, finishes that cursor alone, and is the only one. -/
theorem one_fault_after_rows {e : FaultyEngine} {before : List FaultyCall}
    {history : List EngineAnswer} {s : Session FaultyEngine FaultyCursor}
    (hs : performAll perform before (start e) = (history, s))
    (hread : s.engine.rates.read.isPositive = false)
    (hwrite : s.engine.rates.write.isPositive = false) :
    (start e).plain = start e.table ∧
      (s.engine.failAfter = none → ∀ calls,
        s.answers calls = s.plain.answers calls ∧ (s.after calls).plain = s.plain.after calls) ∧
      ∀ rows,
        let armed := ((failScanAfter rows).perform s).2
        (∀ calls, Spares rows history s.plain calls ∨ ∃ during number later,
          calls = during ++ .poll number :: later ∧
            Strikes rows history s.plain during number) ∧
        (∀ calls, Spares rows history s.plain calls →
          armed.answers calls = s.plain.answers calls) ∧
        ∀ during number later, Strikes rows history s.plain during number →
          let struck := armed.after (during ++ .poll number :: later)
          armed.answers (during ++ .poll number :: later) =
              s.plain.answers during ++
                .polled number (some (.error (.injectedFault "simulated scan failure"))) ::
                  ((s.plain.after during).answers later).map (·.silenced number) ∧
            (∀ n, (armed.after (during ++ [.poll number])).hasOpen n = true ↔
              n ≠ number ∧ (armed.after during).hasOpen n = true) ∧
            struck.engine.failAfter = none ∧
            struck.engine.counters.injectedReadErrors =
              s.engine.counters.injectedReadErrors + 1 ∧
            struck.engine.counters.injectedWriteErrors =
              s.engine.counters.injectedWriteErrors := by
  have htracks : Tracks e.counters.openCursors history s := by
    have h := tracks_performAll (tracks_start e) before
    rwa [hs] at h
  refine ⟨rfl, fun hnone calls => ?_, ?_⟩
  · obtain ⟨hanswers, hafter, -⟩ := run_plain ⟨hread, hwrite, hnone⟩ htracks calls nofun
    exact ⟨hanswers.symm, hafter.symm⟩
  · intro rows armed
    have harmed : FaultyEngine.Armed (some rows) armed.engine := ⟨hread, hwrite, rfl⟩
    have htracks' : Tracks e.counters.openCursors history armed :=
      ⟨htracks.placed, htracks.mem_iff, htracks.count⟩
    refine ⟨spares_or_strikes (s := armed) harmed htracks', fun calls hspares => ?_,
      fun during number later hstrikes => ?_⟩
    · exact (run_spares (s := armed) harmed htracks' hspares).1.symm
    · obtain ⟨hanswers, hcleared, hopen⟩ := run_strikes (s := armed) harmed htracks' hstrikes later
      have hgained : armed.engine.counters.Gained
          (armed.answers (during ++ .poll number :: later))
          (armed.after (during ++ .poll number :: later)).engine.counters :=
        gained_after _ _
      rw [hanswers] at hgained
      obtain ⟨hreads, hwrites⟩ := hgained.one_fault (faultless_answers _ _)
        (List.forall_mem_map.2 fun a ha => faultless_silenced (faultless_answers _ _ a ha)) rfl rfl
      exact ⟨hanswers, hopen, hcleared.failAfter, hreads, hwrites⟩

/-- Two cursors are open. One gives the row that was left to give, and the other, whose range is
empty, meets the fault in place of its end. The first goes on. -/
theorem one_fault_after_rows_of_two_cursors :
    let before : List FaultyCall :=
      [.ask (.write [.put [1] [1], .put [2] [2]]), .ask (.scan ⟨.unbounded, .unbounded, none⟩),
        .ask (.scan ⟨.exclusive [2], .unbounded, none⟩)]
    let s := (performAll perform before (start (.make (fun _ => 0) .none))).2
    let armed := ((failScanAfter 1).perform s).2
    let calls : List EngineCall := [.poll 0] ++ .poll 1 :: [.poll 1, .poll 0, .poll 0]
    s.plain.answers [.poll 0, .poll 0, .poll 1] =
        [.polled 0 (some (.ok [1])), .polled 0 (some (.ok [2])), .polled 1 none] ∧
      s.answers [.poll 0, .poll 0, .poll 1] = s.plain.answers [.poll 0, .poll 0, .poll 1] ∧
      armed.answers calls =
        [.polled 0 (some (.ok [1])),
          .polled 1 (some (.error (.injectedFault "simulated scan failure"))), .polled 1 none,
          .polled 0 (some (.ok [2])), .polled 0 none] ∧
      (armed.after calls).engine.counters.injectedReadErrors = 1 := by
  intro before s armed calls
  have hs : performAll perform before (start (.make (fun _ => 0) .none)) =
      ([.written (.ok ()), .opened 0, .opened 1], s) := rfl
  obtain ⟨-, hquiet, hset⟩ := one_fault_after_rows hs rfl rfl
  obtain ⟨-, -, hstruck⟩ := hset 1
  have hstrikes : Strikes 1 [.written (.ok ()), .opened 0, .opened 1] s.plain [.poll 0] 1 :=
    ⟨spares_concat_iff.2 ⟨spares_nil, fun _ _ _ => Nat.zero_lt_one⟩, rfl, by decide⟩
  obtain ⟨hanswers, -, -, hreads, -⟩ := hstruck [.poll 0] 1 [.poll 1, .poll 0, .poll 0] hstrikes
  exact ⟨rfl, (hquiet rfl _).1, hanswers, hreads⟩

end FaultyCall

end QuadIndex
