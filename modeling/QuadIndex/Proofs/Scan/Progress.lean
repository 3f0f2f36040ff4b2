import QuadIndex.Proofs.Scan.Turn

/-! # What answers say about a stream

Each answer takes its part of what a stream may still give. An error, or the last item, leaves
nothing, and the stream has given up its cursor by then. -/

namespace QuadIndex

/-- The answer of a turn, if it comes to one. -/
def ResultStream.Turn.answers : Turn → List (Option Item)
  | again => []
  | give item => [item]

/-- The answer says that the stream is over. -/
def ResultStream.IsFinal (answer : Option Item) : Prop := ∀ q, answer ≠ some (.ok q)

theorem ResultStream.isFinal_none : IsFinal none := nofun

theorem ResultStream.isFinal_error (e : QueryError) : IsFinal (some (.error e)) := nofun

def ResultStream.quadsIn (answers : List (Option Item)) : Nat :=
  answers.countP fun answer => answer matches some (.ok _)

def ResultStream.itemsIn (answers : List (Option Item)) : Nat := answers.countP (·.isSome)

namespace ResultStream

variable {σ κ : Type}

/-- A ready stream wants at least one item more; one that has stopped holds nothing. -/
inductive Sound (st : ResultStream κ) : Prop
  | ready (phase : st.phase = .ready) (wanted : st.remaining ≠ some 0)
  | stopped {remaining : Option Nat} (h : st.Stopped remaining)

theorem sound_ofScans (scans : List Scan) (paging : Paging) :
    (ofScans scans paging : ResultStream κ).Sound := by
  rw [ofScans]
  split
  · exact .stopped ⟨nofun, rfl, rfl, rfl⟩
  · next h => exact .ready rfl h

theorem active_ofScans (scans : List Scan) (paging : Paging) :
    (ofScans scans paging : ResultStream κ).active = none := by
  rw [ofScans]
  split <;> rfl

theorem phase_ofScans_zero {scans : List Scan} {paging : Paging} (h : paging.limit = some 0) :
    (ofScans scans paging : ResultStream κ).phase ≠ .ready := by
  rw [ofScans, if_pos h]
  exact (by decide : Phase.done ≠ .ready)

/-- What answers do to the account of a stream. -/
structure Progress (st : ResultStream κ) (answers : List (Option Item)) (st' : ResultStream κ) :
    Prop where
  sound : st'.Sound
  remaining : st'.remaining = st.remaining.map (· - quadsIn answers)
  final : (∃ answer ∈ answers, IsFinal answer) → st'.phase ≠ .ready
  idle : st.phase ≠ .ready → st' = st ∧ ∀ answer ∈ answers, answer = none
  hint : ∀ n, st.sizeHint.2 = some n → ∃ m, st'.sizeHint.2 = some m ∧ m + itemsIn answers ≤ n

theorem Progress.refl {st : ResultStream κ} (h : st.Sound) : Progress st [] st where
  sound := h
  remaining := by simp [quadsIn]
  final := by simp
  idle _ := ⟨rfl, nofun⟩
  hint n hn := ⟨n, hn, Nat.le_refl n⟩

theorem Progress.trans {st st' st'' : ResultStream κ} {answers later : List (Option Item)}
    (h : Progress st answers st') (h' : Progress st' later st'') :
    Progress st (answers ++ later) st'' where
  sound := h'.sound
  remaining := by
    rw [h'.remaining, h.remaining, Option.map_map]
    refine congrArg (fun f => Option.map f st.remaining) (funext fun n => ?_)
    simp only [Function.comp_apply, quadsIn, List.countP_append]
    omega
  final := by
    rintro ⟨answer, hmem, hfinal⟩
    rcases List.mem_append.1 hmem with hmem | hmem
    · have hstopped := h.final ⟨answer, hmem, hfinal⟩
      rwa [(h'.idle hstopped).1]
    · exact h'.final ⟨answer, hmem, hfinal⟩
  idle hstopped := by
    obtain ⟨rfl, hnone⟩ := h.idle hstopped
    obtain ⟨rfl, hnone'⟩ := h'.idle hstopped
    exact ⟨rfl, fun answer hmem => (List.mem_append.1 hmem).elim (hnone answer) (hnone' answer)⟩
  hint n hn := by
    obtain ⟨m, hm, hle⟩ := h.hint n hn
    obtain ⟨k, hk, hle'⟩ := h'.hint m hm
    refine ⟨k, hk, ?_⟩
    rw [itemsIn, List.countP_append]
    rw [itemsIn] at hle hle'
    omega

variable {st st' : ResultStream κ}

theorem sizeHint_of_going {pending : List Scan} {cursor : Option κ} {remaining : Option Nat}
    (h : st.Going pending cursor remaining) : st.sizeHint.2 = remaining :=
  (if_pos h.phase).trans h.remaining

theorem sizeHint_of_stopped (h : st.phase ≠ .ready) : st.sizeHint.2 = some 0 := if_neg h

theorem Sound.wanted (h : st.Sound) (hready : st.phase = .ready) : st.remaining ≠ some 0 := by
  cases h with
  | ready _ hwanted => exact hwanted
  | stopped hstopped => exact absurd hready hstopped.phase

/-- A stream that stops with its last item, or at the end, has nothing more to come. -/
theorem progress_stopped {remaining : Option Nat} {answers : List (Option Item)}
    (hready : st.phase = .ready) (hst : st.Sound) (hafter : st'.Stopped remaining)
    (hremaining : remaining = st.remaining.map (· - quadsIn answers))
    (hitems : itemsIn answers ≤ 1) : Progress st answers st' where
  sound := .stopped hafter
  remaining := hafter.remaining.trans hremaining
  final _ := hafter.phase
  idle h := absurd hready h
  hint n hn := by
    have hne := hst.wanted hready
    rw [sizeHint_of_going (going_of_ready hready)] at hn
    rw [hn] at hne
    have hpos : n ≠ 0 := fun h => hne (congrArg some h)
    exact ⟨0, sizeHint_of_stopped hafter.phase, by omega⟩

/-- A stream that goes on has given a quad, or nothing yet. -/
theorem progress_going {pending : List Scan} {cursor : Option κ} {remaining : Option Nat}
    {answers : List (Option Item)} (hready : st.phase = .ready)
    (hafter : st'.Going pending cursor remaining) (hwanted : remaining ≠ some 0)
    (hremaining : remaining = st.remaining.map (· - quadsIn answers))
    (hquads : ∀ answer ∈ answers, ¬ IsFinal answer) (hitems : itemsIn answers = quadsIn answers) :
    Progress st answers st' where
  sound := .ready hafter.phase (hafter.remaining ▸ hwanted)
  remaining := hafter.remaining.trans hremaining
  final h := by
    obtain ⟨answer, hmem, hfinal⟩ := h
    exact absurd hfinal (hquads answer hmem)
  idle h := absurd hready h
  hint n hn := by
    rw [sizeHint_of_going (going_of_ready hready)] at hn
    rw [hn, Option.map_some] at hremaining
    refine ⟨_, (sizeHint_of_going hafter).trans hremaining, ?_⟩
    have hpos : n - quadsIn answers ≠ 0 := fun h => hwanted (hremaining.trans (congrArg some h))
    omega

variable [Engine σ κ] {s s' : σ}

theorem Turned.progress {turn : Turn} (h : Turned st s (turn, st', s')) (hst : st.Sound) :
    Progress st turn.answers st' := by
  cases h with
  | idle hphase =>
      refine ⟨hst, ?_, fun _ => hphase, fun _ => ⟨rfl, ?_⟩, fun n hn => ⟨n, hn, ?_⟩⟩
      · simp [Turn.answers, quadsIn]
      · simp [Turn.answers]
      · simp [Turn.answers, itemsIn]
  | ended hbefore hafter =>
      refine progress_stopped hbefore.phase hst hafter ?_ (Nat.zero_le _)
      simp [hbefore.remaining, Turn.answers, quadsIn]
  | opened hbefore hafter =>
      have hwanted := hbefore.remaining ▸ hst.wanted hbefore.phase
      refine progress_going hbefore.phase hafter hwanted ?_ nofun rfl
      simp [hbefore.remaining, Turn.answers, quadsIn]
  | exhausted hbefore _ hafter | passed hbefore _ hafter =>
      have hwanted := hbefore.remaining ▸ hst.wanted hbefore.phase
      refine progress_going hbefore.phase hafter hwanted ?_ nofun rfl
      simp [hbefore.remaining, Turn.answers, quadsIn]
  | failed hbefore _ hafter =>
      refine progress_stopped hbefore.phase hst hafter ?_ (Nat.le_refl 1)
      simp [hbefore.remaining, Turn.answers, quadsIn]
  | gave hbefore _ hwanted hafter =>
      refine progress_going hbefore.phase hafter hwanted ?_ ?_ rfl
      · rw [hbefore.remaining]
        rfl
      · intro answer hmem hfinal
        exact hfinal _ (List.mem_singleton.1 hmem)
  | last hbefore _ _ hafter =>
      refine progress_stopped hbefore.phase hst hafter ?_ (Nat.le_refl 1)
      rw [hbefore.remaining]
      rfl

theorem Polled.progress {out : Option Item × ResultStream κ × σ} (h : Polled st s out)
    (hst : st.Sound) : Progress st [out.1] out.2.1 := by
  induction h with
  | answer heq => exact (turned_of_eq heq).progress hst
  | again heq _ ih =>
      have hprogress := (turned_of_eq heq).progress hst
      exact hprogress.trans (ih hprogress.sound)

theorem progress_close (hst : st.Sound) (s : σ) : Progress st [] (st.close s).1 := by
  rw [close]
  split
  · next hready =>
    have hstopped := stopped_finish (by decide : Phase.done ≠ .ready) (st.note .closed) s
    refine progress_stopped hready hst hstopped ?_ (Nat.zero_le _)
    simp [note, quadsIn]
  · exact .refl hst

theorem phase_close (st : ResultStream κ) (s : σ) : (st.close s).1.phase ≠ .ready := by
  rw [close]
  split
  · exact (stopped_finish (by decide : Phase.done ≠ .ready) _ s).phase
  · assumption

/-! ## Drained streams -/

section Drained

variable [LawfulEngine σ κ] {R : List Scan → Option κ → σ → Prop}

theorem placed_ofScans (scans : List Scan) (paging : Paging) :
    (ofScans scans paging : ResultStream κ).Placed σ := by
  intro c hc
  rw [cursor?, active_ofScans] at hc
  contradiction

omit [LawfulEngine σ κ] in
theorem Drained.phase {out : List Item × ResultStream κ × σ} (h : Drained st s out)
    (hst : st.Sound) : out.2.1.phase ≠ .ready := by
  induction h with
  | ended hlast => exact (hlast.progress hst).final ⟨none, by simp, isFinal_none⟩
  | failed hlast => exact hlast.phase_of_error rfl
  | gave hfirst _ ih => exact ih (hfirst.progress hst).sound

/-- A stream that is drained has given up its cursor, whether it came to its end or to an error. -/
theorem Custody.collect (h : Custody R) (scans : List Scan) (paging : Paging)
    (hs : R scans none s) : R [] none ((ofScans scans paging : ResultStream κ).collect s).2 := by
  let start : ResultStream κ := ofScans scans paging
  have hsound : start.Sound := sound_ofScans scans paging
  have hdrained := ResultStream.drained (placed_ofScans scans paging : start.Placed σ) s
  have hstart : R start.pending start.cursor? s := by
    rw [cursor?, (active_ofScans scans paging : start.active = none)]
    change R (ofScans scans paging : ResultStream κ).pending none s
    rw [ofScans]
    split
    · exact h.ended hs
    · exact hs
  have hlast := h.drained hdrained hstart
  have hstopped : (start.drain s).2.1.Sound := hdrained.keeps (P := fun st _ => st.Sound)
    (fun st s hst => ((turned st s).progress hst).sound) hsound
  cases hstopped with
  | ready hready => exact absurd hready (hdrained.phase hsound)
  | stopped hstopped =>
      rw [hstopped.pending, hstopped.cursor] at hlast
      exact hlast

end Drained

end ResultStream

end QuadIndex
