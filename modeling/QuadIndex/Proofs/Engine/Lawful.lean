import QuadIndex.Engine.Faulty
import QuadIndex.Proofs.Table.Cursor

/-! # What every engine has in common

A write takes effect as a whole or not at all, and a read that does not fail gives what a cursor
over the table would give. Reads fail only by injected faults, and not at all while the engine is
quiet. -/

namespace QuadIndex

class LawfulEngine (σ : Type) (κ : outParam Type) [Engine σ κ] where
  /-- The place in the table at which a cursor stands. -/
  place : κ → Cursor
  /-- No operation can fail. -/
  Quiet : σ → Prop
  table_of_write_ok {b : Batch} {s s' : σ} :
    Engine.write b s = (.ok (), s') → Engine.table s' = (Engine.table s).apply b
  table_of_write_error {b : Batch} {e : EngineError} {s s' : σ} :
    Engine.write b s = (.error e, s') → Engine.table s' = Engine.table s
  table_scan (r : KeyRange) (s : σ) : Engine.table (Engine.scan r s).2 = Engine.table s
  table_next (c : κ) (s : σ) : Engine.table (Engine.next c s).2.2 = Engine.table s
  table_release (c : κ) (s : σ) : Engine.table (Engine.release c s) = Engine.table s
  place_scan (r : KeyRange) (s : σ) : place (Engine.scan r s).1 = .ofRange r
  place_of_next_none {c c' : κ} {s s' : σ} :
    Engine.next c s = (none, c', s') → ((place c).next (Engine.table s)).1 = none
  place_of_next_ok {c c' : κ} {v : Bytes} {s s' : σ} :
    Engine.next c s = (some (.ok v), c', s') →
      ∃ k, (place c).next (Engine.table s) = (some (k, v), place c')
  quiet_write {s : σ} (b : Batch) :
    Quiet s → (Engine.write b s).1 = .ok () ∧ Quiet (Engine.write b s).2
  quiet_scan {s : σ} (r : KeyRange) : Quiet s → Quiet (Engine.scan r s).2
  quiet_next {s : σ} (c : κ) : Quiet s → Quiet (Engine.next c s).2.2
  quiet_release {s : σ} (c : κ) : Quiet s → Quiet (Engine.release c s)
  fault_of_next_error {c c' : κ} {e : EngineError} {s s' : σ} :
    Engine.next c s = (some (.error e), c', s') →
      ¬ Quiet s ∧ ∃ reason, e = .injectedFault reason

namespace LawfulEngine

variable {σ κ : Type} [Engine σ κ] [LawfulEngine σ κ] {c c' : κ} {v : Bytes} {s s' : σ}

/-- At the end of a cursor nothing is left. -/
theorem rest_of_next_none (h : Engine.next c s = (none, c', s')) :
    (place σ c).rest (Engine.table s) = [] := by
  have hn := place_of_next_none h
  cases hr : (place σ c).rest (Engine.table s) with
  | nil => rfl
  | cons e es =>
      rw [(Cursor.next_of_rest_cons hr).1] at hn
      contradiction

/-- A row is the first that was left, and leaves the others. -/
theorem rest_of_next_ok (hc : (place σ c).Consistent)
    (h : Engine.next c s = (some (.ok v), c', s')) :
    (place σ c').Consistent ∧ ∃ k, (place σ c).rest (Engine.table s) =
      (k, v) :: (place σ c').rest (Engine.table s) := by
  obtain ⟨k, hk⟩ := place_of_next_ok h
  cases hr : (place σ c).rest (Engine.table s) with
  | nil =>
      obtain ⟨d, hd⟩ := Cursor.next_of_rest_nil hc hr
      cases hd.symm.trans hk
  | cons e es =>
      obtain ⟨hn, hes⟩ := Cursor.next_of_rest_cons hr
      obtain ⟨he, hp⟩ := Prod.mk.inj (hn.symm.trans hk)
      obtain rfl := Option.some.inj he
      rw [← hp]
      exact ⟨Cursor.consistent_past _ _, k, by rw [hes]⟩

end LawfulEngine

/-! ## Tables -/

theorem Table.next_eq (c : Cursor) (t : Table) :
    Engine.next c t = ((c.next t).1.map fun e => Except.ok e.2, (c.next t).2, t) := rfl

instance : LawfulEngine Table Cursor where
  place c := c
  Quiet _ := True
  table_of_write_ok h := by
    cases h
    rfl
  table_of_write_error h := by cases h
  table_scan _ _ := rfl
  table_next _ _ := rfl
  table_release _ _ := rfl
  place_scan _ _ := rfl
  place_of_next_none {c _ s _} h := by
    have hn : (c.next s).1.map (fun e => Except.ok e.2) = none := congrArg Prod.fst h
    exact Option.map_eq_none_iff.1 hn
  place_of_next_ok {c _ _ s _} h := by
    rw [Table.next_eq] at h
    obtain ⟨hv, hc⟩ := Prod.mk.inj h
    obtain ⟨e, he, hev⟩ := Option.map_eq_some_iff.1 hv
    obtain rfl := Except.ok.inj hev
    exact ⟨e.1, Prod.ext he (Prod.mk.inj hc).1⟩
  quiet_write _ _ := ⟨rfl, trivial⟩
  quiet_scan _ _ := trivial
  quiet_next _ _ := trivial
  quiet_release _ _ := trivial
  fault_of_next_error {c _ _ s _} h := by
    rw [Table.next_eq] at h
    cases hn : (c.next s).1 <;> simp [hn] at h

/-! ## Engines that fail on purpose -/

namespace FaultyEngine

variable {e e' : FaultyEngine} {r : Rate} {c : FaultyCursor}

structure Quiet (e : FaultyEngine) : Prop where
  read : e.rates.read.isPositive = false
  write : e.rates.write.isPositive = false
  failAfter : e.failAfter = none

/-- The place of a cursor; one that is closed has finished. -/
def place (c : FaultyCursor) : Cursor :=
  if c.isOpen then c.inner else { c.inner with finished := true }

/-- A strike changes nothing but what is left of chance. -/
theorem strikes_eq (e : FaultyEngine) (r : Rate) :
    ∃ struck chance, e.strikes r = (struck, { e with chance }) := by
  rw [strikes]
  split
  · exact ⟨_, _, rfl⟩
  · exact ⟨false, e.chance, rfl⟩

theorem strikes_of_not_isPositive (e : FaultyEngine) (h : r.isPositive = false) :
    e.strikes r = (false, e) := by
  rw [strikes, if_neg (by simp [h])]

theorem table_close (c : FaultyCursor) (e : FaultyEngine) : (close c e).2.table = e.table := by
  rw [close]
  split <;> rfl

theorem quiet_close (c : FaultyCursor) (h : e.Quiet) : (close c e).2.Quiet := by
  rw [close]
  split
  · exact ⟨h.read, h.write, h.failAfter⟩
  · exact h

def readStruck (e : FaultyEngine) : FaultyEngine :=
  e.count fun c => { c with injectedReadErrors := c.injectedReadErrors + 1 }

/-- What a read meets: the fault that was set, a fault by chance, or none. -/
theorem readFault_cases (e : FaultyEngine) :
    (e.failAfter = some 0 ∧ e.readFault =
        (some (.injectedFault "simulated scan failure"), { e with failAfter := none }.readStruck)) ∨
      e.failAfter ≠ some 0 ∧ ∃ chance, e.readFault =
          (some (.injectedFault "simulated read error"), { e with chance }.readStruck) ∨
        e.readFault = (none, { e with chance }) := by
  obtain ⟨struck, chance, hs⟩ := e.strikes_eq e.rates.read
  rw [readFault]
  split
  · next hset => exact .inl ⟨hset, rfl⟩
  · next hunset =>
    rw [hs]
    refine .inr ⟨hunset, chance, ?_⟩
    cases struck with
    | true => exact .inl rfl
    | false => exact .inr rfl

theorem table_readFault (e : FaultyEngine) : e.readFault.2.table = e.table := by
  rcases e.readFault_cases with ⟨-, h⟩ | ⟨-, _, h | h⟩
  · rw [h]
    rfl
  · rw [h]
    rfl
  · rw [h]

theorem injected_of_readFault {error : EngineError} (h : e.readFault.1 = some error) :
    ∃ reason, error = .injectedFault reason := by
  rcases e.readFault_cases with ⟨-, hr⟩ | ⟨-, _, hr | hr⟩
  · rw [hr] at h
    exact ⟨_, (Option.some.inj h).symm⟩
  · rw [hr] at h
    exact ⟨_, (Option.some.inj h).symm⟩
  · rw [hr] at h
    contradiction

theorem readFault_of_quiet (h : e.Quiet) : e.readFault = (none, e) := by
  rw [readFault, if_neg (by simp [h.failAfter]), e.strikes_of_not_isPositive h.read]

def handed (e : FaultyEngine) : FaultyEngine :=
  e.count fun c => { c with batchesWritten := c.batchesWritten + 1 }

def writeStruck (e : FaultyEngine) : FaultyEngine :=
  e.count fun c => { c with injectedWriteErrors := c.injectedWriteErrors + 1 }

theorem write_cases (b : Batch) (e : FaultyEngine) :
    ∃ chance, e.write b = (.ok (), { e.handed with chance, table := e.table.apply b }) ∨
      e.write b = (.error (.injectedFault "simulated write error"),
        { e.handed with chance }.writeStruck) := by
  obtain ⟨struck, chance, hs⟩ := e.handed.strikes_eq e.handed.rates.write
  refine ⟨chance, ?_⟩
  unfold write
  dsimp only
  split
  · next heq =>
    obtain ⟨-, rfl⟩ := Prod.mk.inj (hs.symm.trans heq)
    exact .inr rfl
  · next heq =>
    obtain ⟨-, rfl⟩ := Prod.mk.inj (hs.symm.trans heq)
    exact .inl rfl

theorem write_of_quiet (b : Batch) (h : e.Quiet) :
    (e.write b).1 = .ok () ∧ (e.write b).2.Quiet := by
  unfold write
  dsimp only
  rw [strikes_of_not_isPositive _ (r := (count e _).rates.write) h.write]
  exact ⟨rfl, h.read, h.write, h.failAfter⟩

/-- What asking an open cursor for a row comes to: a fault, a row, or the end. -/
theorem next_cases (h : c.isOpen = true) (e : FaultyEngine) :
    (∃ error, (e.readFault).1 = some error ∧
        next c e = (some (.error error), close c e.readFault.2)) ∨
      (e.readFault).1 = none ∧
        ((∃ entry inner, c.inner.next e.table = (some entry, inner) ∧
            next c e = (some (.ok entry.2), { c with inner }, e.readFault.2.rowRead)) ∨
          ∃ inner, c.inner.next e.table = (none, inner) ∧
            next c e = (none, close { c with inner } e.readFault.2)) := by
  have ht := e.table_readFault
  unfold next
  rw [if_pos h]
  split
  · next error e' heq =>
    rw [heq]
    exact .inl ⟨error, rfl, rfl⟩
  · next e' heq =>
    rw [heq] at ht ⊢
    refine .inr ⟨rfl, ?_⟩
    split
    · next entry inner hn => exact .inl ⟨entry, inner, ht ▸ hn, rfl⟩
    · next inner hn => exact .inr ⟨inner, ht ▸ hn, rfl⟩

theorem next_of_not_isOpen (h : c.isOpen = false) (e : FaultyEngine) :
    next c e = (none, c, e) := by
  rw [next, if_neg (by simp [h])]

theorem place_next_of_not_isOpen (h : c.isOpen = false) (t : Table) :
    ((place c).next t).1 = none := by
  simp [place, h, Cursor.next]

theorem place_of_isOpen (h : c.isOpen = true) : place c = c.inner := if_pos h

/-- What faults, rows and closed cursors keep is kept by every poll of a cursor. -/
theorem next_keeps {P : FaultyEngine → Prop} (h : P e) (hfault : P e.readFault.2)
    (hrow : ∀ e', P e' → P e'.rowRead) (hclose : ∀ c e', P e' → P (close c e').2)
    (c : FaultyCursor) : P (next c e).2.2 := by
  cases ho : c.isOpen with
  | false => rwa [next_of_not_isOpen ho]
  | true =>
      rcases next_cases ho e with ⟨_, -, hn⟩ | ⟨-, ⟨_, _, -, hn⟩ | ⟨_, -, hn⟩⟩
      · rw [hn]
        exact hclose _ _ hfault
      · rw [hn]
        exact hrow _ hfault
      · rw [hn]
        exact hclose _ _ hfault

theorem table_next (c : FaultyCursor) (e : FaultyEngine) : (next c e).2.2.table = e.table :=
  next_keeps (P := fun e' => e'.table = e.table) rfl e.table_readFault (fun _ => id)
    (fun c e' => (table_close c e').trans) c

theorem quiet_next (c : FaultyCursor) (h : e.Quiet) : (next c e).2.2.Quiet := by
  refine next_keeps h ?_ ?_ (fun c _ => quiet_close c) c
  · rwa [readFault_of_quiet h]
  · exact fun _ he => ⟨he.read, he.write, by simp [rowRead, he.failAfter]⟩

end FaultyEngine

instance : LawfulEngine FaultyEngine FaultyCursor where
  place := FaultyEngine.place
  Quiet := FaultyEngine.Quiet
  table_of_write_ok {b s s'} h := by
    rcases FaultyEngine.write_cases b s with ⟨_, hw | hw⟩
    · obtain ⟨-, rfl⟩ := Prod.mk.inj (h.symm.trans hw)
      rfl
    · cases h.symm.trans hw
  table_of_write_error {b e s s'} h := by
    rcases FaultyEngine.write_cases b s with ⟨_, hw | hw⟩
    · cases h.symm.trans hw
    · obtain ⟨-, rfl⟩ := Prod.mk.inj (h.symm.trans hw)
      rfl
  table_scan _ _ := rfl
  table_next := FaultyEngine.table_next
  table_release := FaultyEngine.table_close
  place_scan _ _ := rfl
  place_of_next_none {c c' s s'} h := by
    change FaultyEngine.next c s = _ at h
    cases ho : c.isOpen with
    | false => exact FaultyEngine.place_next_of_not_isOpen ho s.table
    | true =>
        rw [FaultyEngine.place_of_isOpen ho]
        rcases FaultyEngine.next_cases ho s with ⟨_, -, hn⟩ | ⟨-, ⟨_, _, -, hn⟩ | ⟨_, hi, -⟩⟩
        · cases h.symm.trans hn
        · cases h.symm.trans hn
        · exact congrArg Prod.fst hi
  place_of_next_ok {c c' v s s'} h := by
    change FaultyEngine.next c s = _ at h
    cases ho : c.isOpen with
    | false => cases h.symm.trans (FaultyEngine.next_of_not_isOpen ho s)
    | true =>
        rw [FaultyEngine.place_of_isOpen ho]
        rcases FaultyEngine.next_cases ho s with
          ⟨_, -, hn⟩ | ⟨-, ⟨entry, inner, hi, hn⟩ | ⟨_, -, hn⟩⟩
        · cases h.symm.trans hn
        · cases h.symm.trans hn
          have hp : FaultyEngine.place ⟨inner, c.isOpen⟩ = inner := if_pos ho
          exact ⟨entry.1, hi.trans (by rw [hp])⟩
        · cases h.symm.trans hn
  quiet_write := FaultyEngine.write_of_quiet
  quiet_scan _ h := ⟨h.read, h.write, h.failAfter⟩
  quiet_next := FaultyEngine.quiet_next
  quiet_release := FaultyEngine.quiet_close
  fault_of_next_error {c c' e s s'} h := by
    change FaultyEngine.next c s = _ at h
    cases ho : c.isOpen with
    | false => cases h.symm.trans (FaultyEngine.next_of_not_isOpen ho s)
    | true =>
        rcases FaultyEngine.next_cases ho s with
          ⟨error, hr, hn⟩ | ⟨-, ⟨_, _, -, hn⟩ | ⟨_, -, hn⟩⟩
        · have he : e = error :=
            Except.error.inj (Option.some.inj (congrArg Prod.fst (h.symm.trans hn)))
          refine ⟨?_, he ▸ FaultyEngine.injected_of_readFault hr⟩
          intro hq
          rw [FaultyEngine.readFault_of_quiet hq] at hr
          contradiction
        · cases h.symm.trans hn
        · cases h.symm.trans hn

end QuadIndex
