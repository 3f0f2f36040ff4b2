import QuadIndex.Proofs.Table.Traversal

/-! # Polls that cannot fail

An ordered map refuses a search between ends that are in the wrong order or that both leave out one
key, and a counter of rows cannot go below zero. A guarded cursor stops at either. Whatever is
written between its polls, a cursor of a range is never stopped. -/

namespace QuadIndex

/-! ## Searches -/

namespace Bound

def key? : Bound → Option Bytes
  | unbounded => none
  | inclusive k | exclusive k => some k

def isExclusive : Bound → Bool
  | exclusive _ => true
  | _ => false

/-- What an ordered map asks of the ends of a search. -/
structure Searchable (lower upper : Bound) : Prop where
  ordered : ∀ l ∈ lower.key?, ∀ u ∈ upper.key?, l ≤ u
  apart : ¬ (lower.key? = upper.key? ∧ lower.isExclusive = true ∧ upper.isExclusive = true)

instance (lower upper : Bound) : Decidable (Searchable lower upper) :=
  decidable_of_iff
    ((∀ l ∈ lower.key?, ∀ u ∈ upper.key?, l ≤ u) ∧
      ¬ (lower.key? = upper.key? ∧ lower.isExclusive = true ∧ upper.isExclusive = true))
    ⟨fun h => ⟨h.1, h.2⟩, fun h => ⟨h.ordered, h.apart⟩⟩

variable {lower upper : Bound}

theorem le_of_not_crossed {l u : Bytes} (h : lower.crossed upper = false)
    (hl : lower.key? = some l) (hu : upper.key? = some u) : l ≤ u := by
  cases lower with
  | unbounded => contradiction
  | inclusive k =>
      obtain rfl := Option.some.inj hl
      cases upper with
      | unbounded => contradiction
      | inclusive m =>
          obtain rfl := Option.some.inj hu
          exact Std.not_lt.1 (of_decide_eq_false h)
      | exclusive m =>
          obtain rfl := Option.some.inj hu
          exact Std.le_of_lt (Std.not_le.1 (of_decide_eq_false h))
  | exclusive k =>
      obtain rfl := Option.some.inj hl
      cases upper with
      | unbounded => contradiction
      | inclusive m | exclusive m =>
          obtain rfl := Option.some.inj hu
          exact Std.le_of_lt (Std.not_le.1 (of_decide_eq_false h))

theorem exclusive_crossed_self (k : Bytes) : (exclusive k).crossed (exclusive k) = true :=
  decide_eq_true (Std.le_refl k)

/-- Ends that have not crossed can be searched. The converse fails where two ends touch in a key
that only one of them leaves out. -/
theorem searchable_of_not_crossed (h : lower.crossed upper = false) : Searchable lower upper := by
  refine ⟨fun l hl u hu => le_of_not_crossed h hl hu, ?_⟩
  rintro ⟨hkey, hlower, hupper⟩
  cases lower with
  | exclusive k =>
      cases upper with
      | exclusive m =>
          obtain rfl := Option.some.inj hkey
          rw [exclusive_crossed_self] at h
          contradiction
      | _ => contradiction
  | _ => contradiction

end Bound

/-! ## Guarded polls -/

inductive Misstep where
  | search (lower upper : Bound)
  | countDown
  deriving DecidableEq

namespace Cursor

variable {c : Cursor} {t : Table}

/-- The next entry as by `next`, with a check before the table is searched and before the row is
counted. -/
def guardedNext (c : Cursor) (t : Table) : Except Misstep (Option Entry × Cursor) :=
  if c.finished then .ok (none, c)
  else if Bound.Searchable c.lower c.upper then
    match t.first? c.lower c.upper with
    | none => .ok (none, { c with finished := true })
    | some e => if c.remaining = some 0 then .error .countDown else .ok (some e, c.past e.1)
  else .error (.search c.lower c.upper)

/-- A poll searches only between ends that the map takes, and counts a row only where one is left
to count. -/
structure Permitted (c : Cursor) (t : Table) : Prop where
  search : c.finished = false → Bound.Searchable c.lower c.upper
  count : (c.next t).1.isSome = true → ∀ n, c.remaining = some n → 1 ≤ n

theorem one_le_iff {limit : Option Nat} : (∀ n, limit = some n → 1 ≤ n) ↔ limit ≠ some 0 := by
  cases limit with
  | none => simp
  | some n => simp [Nat.one_le_iff_ne_zero]

/-- The guarded poll is stopped exactly if the poll is not permitted, and is the poll otherwise. -/
theorem guardedNext_eq_ok_iff {x : Option Entry × Cursor} :
    c.guardedNext t = .ok x ↔ c.Permitted t ∧ c.next t = x := by
  cases hf : c.finished with
  | true =>
      have hnext : c.next t = (none, c) := next_of_finished hf t
      have hpermitted : c.Permitted t := ⟨by simp [hf], by simp [hnext]⟩
      simp [guardedNext, hf, hnext, hpermitted]
  | false =>
      by_cases hs : Bound.Searchable c.lower c.upper
      · cases he : t.first? c.lower c.upper with
        | none =>
            have hnext : c.next t = (none, { c with finished := true }) := by simp [next, hf, he]
            have hpermitted : c.Permitted t := ⟨fun _ => hs, by simp [hnext]⟩
            simp [guardedNext, hf, hs, he, hnext, hpermitted]
        | some e =>
            have hnext : c.next t = (some e, c.past e.1) := by simp [next, hf, he]
            have hpermitted : c.Permitted t ↔ c.remaining ≠ some 0 := by
              rw [← one_le_iff]
              exact ⟨fun h => h.count (by simp [hnext]), fun h => ⟨fun _ => hs, fun _ => h⟩⟩
            by_cases hr : c.remaining = some 0
            · simp [guardedNext, hf, hs, he, hpermitted, hr]
            · simp [guardedNext, hf, hs, he, hpermitted, hr, hnext]
      · have hpermitted : ¬ c.Permitted t := fun h => hs (h.search hf)
        simp [guardedNext, hf, hs, hpermitted]

/-- The guard is there: ends that both leave out one key stop a cursor that has not finished. -/
example : guardedNext ⟨.exclusive [1], .exclusive [1], none, false⟩ .empty =
    .error (.search (.exclusive [1]) (.exclusive [1])) := rfl

/-! ## Runs -/

/-- Unless it has finished, a cursor has ends that have not crossed, and a row to give. -/
structure Ready (c : Cursor) : Prop where
  ends : c.finished = false → c.lower.crossed c.upper = false
  wanted : c.finished = false → c.remaining ≠ some 0

theorem Tidy.ready (h : c.Tidy) : c.Ready := by
  refine ⟨fun hf => ?_, fun hf hr => ?_⟩
  · cases hc : c.lower.crossed c.upper with
    | true => simp [h.2 (.inr hc)] at hf
    | false => rfl
  · simp [h.2 (.inl hr)] at hf

/-- A poll leaves a cursor ready: either it finishes it or it moves the lower end to the key that it
found, and looks there whether another row can follow. -/
theorem ready_next (c : Cursor) (t : Table) : (c.next t).2.Ready := by
  rcases c.next_cases t with ⟨d, hnext, hd, -⟩ | ⟨e, es, -, -, hnext⟩
  · rw [hnext]
    exact ⟨by simp [hd], by simp [hd]⟩
  · rw [hnext]
    exact (tidy_past c e.1).ready

theorem Ready.permitted (h : c.Ready) (t : Table) : c.Permitted t := by
  refine ⟨fun hf => Bound.searchable_of_not_crossed (h.ends hf), fun hrow => ?_⟩
  cases hf : c.finished with
  | true => simp [next_of_finished hf] at hrow
  | false => exact one_le_iff.2 (h.wanted hf)

/-- The cursor and the table at each poll, where some batches are written before every poll. -/
def polls (c : Cursor) (t : Table) : List (List Batch) → List (Cursor × Table)
  | [] => []
  | bs :: rounds =>
    let t := bs.foldl Table.apply t
    (c, t) :: polls (c.next t).2 t rounds

/-- The visits of a guarded cursor, up to its first misstep. -/
def guardedVisits (c : Cursor) (t : Table) : List (List Batch) → Except Misstep (List Visit)
  | [] => .ok []
  | bs :: rounds => do
    let t := bs.foldl Table.apply t
    let (row, d) ← c.guardedNext t
    let vs ← guardedVisits d t rounds
    return ⟨t, row.map fun e => .ok e.2, row⟩ :: vs

theorem Ready.permitted_polls (h : c.Ready) (t : Table) (rounds : List (List Batch)) :
    ∀ p ∈ c.polls t rounds, p.1.Permitted p.2 := by
  induction rounds generalizing c t with
  | nil => simp [polls]
  | cons bs rounds ih =>
      rw [polls]
      exact List.forall_mem_cons.2 ⟨h.permitted _, ih (ready_next c _) _⟩

theorem Ready.guardedVisits_eq (h : c.Ready) (t : Table) (rounds : List (List Batch)) :
    c.guardedVisits t rounds = .ok (c.visits t rounds) := by
  induction rounds generalizing c t with
  | nil => rfl
  | cons bs rounds ih =>
      have hnext := guardedNext_eq_ok_iff.2 ⟨h.permitted (bs.foldl Table.apply t), rfl⟩
      have hrest := ih (ready_next c (bs.foldl Table.apply t)) (bs.foldl Table.apply t)
      rw [guardedVisits, hnext, visits_cons]
      simp only [bind, Except.bind, hrest, pure, Except.pure]

/-- Over every range, whatever is written between the polls: each poll searches between ends that
the map takes and lowers only a counter of one or more. So the guarded cursor makes the same visits
as the cursor without guard, and is never stopped. -/
theorem guarded_visits_of_range (r : KeyRange) (t : Table) (rounds : List (List Batch)) :
    (∀ p ∈ (ofRange r).polls t rounds, p.1.Permitted p.2) ∧
      (ofRange r).guardedVisits t rounds = .ok ((ofRange r).visits t rounds) := by
  have hready : (ofRange r).Ready := (tidy_ofRange r).ready
  exact ⟨hready.permitted_polls t rounds, hready.guardedVisits_eq t rounds⟩

end Cursor
end QuadIndex
