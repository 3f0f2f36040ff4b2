import QuadIndex.Proofs.Table.Gaps
import QuadIndex.Table.Cursor

/-! # What a cursor has still to give

A cursor gives the entries of its range in key order, one at a time, until its limit. -/

namespace QuadIndex

namespace Table

/-- The entries between two ends, in key order. -/
def between (t : Table) (lower upper : Bound) : List Entry :=
  t.entries.filter fun e => lower.below e.1 && upper.above e.1

theorem mem_between_iff {t : Table} {lower upper : Bound} {e : Entry} :
    e ∈ t.between lower upper ↔
      e ∈ t.entries ∧ lower.below e.1 = true ∧ upper.above e.1 = true := by
  rw [between, List.mem_filter, Bool.and_eq_true]

theorem length_between_le (t : Table) (lower upper : Bound) :
    (t.between lower upper).length ≤ t.size := List.length_filter_le _ _

theorem ascending_between (t : Table) (lower upper : Bound) :
    Entries.Ascending (t.between lower upper) := t.ascending.filter _

theorem first?_eq_head? (t : Table) (lower upper : Bound) :
    t.first? lower upper = (t.between lower upper).head? := by
  rw [first?, between, List.head?_filter]

theorem between_eq_nil_of_crossed {lower upper : Bound} (h : lower.crossed upper = true)
    (t : Table) : t.between lower upper = [] := by
  apply List.eq_nil_iff_forall_not_mem.2
  intro e he
  exact Bound.not_between_of_crossed h e.1 (mem_between_iff.1 he).2

theorem between_exclusive_of_cons {t : Table} {lower upper : Bound} {e : Entry}
    {es : List Entry} (h : t.between lower upper = e :: es) :
    t.between (.exclusive e.1) upper = es := by
  have hasc := t.ascending_between lower upper
  have hlow : lower.below e.1 = true := (mem_between_iff.1 (h ▸ List.mem_cons_self)).2.1
  rw [h, Entries.Ascending, List.pairwise_cons] at hasc
  calc
    t.between (.exclusive e.1) upper =
        (t.between lower upper).filter fun x => e.1 < x.1 := by
      rw [between, between, List.filter_filter]
      apply List.filter_congr
      intro x _
      change (decide (e.1 < x.1) && upper.above x.1) = _
      by_cases hx : e.1 < x.1
      · rw [Bound.below_of_lt hlow hx, Bool.true_and]
      · simp [hx]
    _ = es := by
      rw [h, List.filter_cons_of_neg (by simp), List.filter_eq_self]
      exact fun x hx => decide_eq_true (hasc.1 x hx)

end Table

namespace Cursor

/-- A cursor whose limit is used up has finished. -/
def Consistent (c : Cursor) : Prop := c.remaining = some 0 → c.finished = true

/-- A limit, if there is one, cuts a list. -/
def cut {α : Type} (limit : Option Nat) (as : List α) : List α :=
  match limit with
  | none => as
  | some n => as.take n

theorem length_cut_le {α : Type} (limit : Option Nat) (as : List α) :
    (cut limit as).length ≤ as.length := by
  cases limit with
  | none => exact Nat.le_refl _
  | some n => exact List.length_take_le' n as

/-- The entries that a cursor has still to give. -/
def rest (c : Cursor) (t : Table) : List Entry :=
  if c.finished then [] else cut c.remaining (t.between c.lower c.upper)

theorem length_rest_le (c : Cursor) (t : Table) : (c.rest t).length ≤ t.size := by
  have hb := t.length_between_le c.lower c.upper
  rw [rest]
  split
  · exact Nat.zero_le _
  · exact Nat.le_trans (length_cut_le _ _) hb

theorem consistent_ofRange (r : KeyRange) : (ofRange r).Consistent := by
  intro h
  change r.limit = some 0 at h
  simp [ofRange, h]

theorem rest_ofRange (r : KeyRange) (t : Table) :
    (ofRange r).rest t = cut r.limit (t.between r.lower r.upper) := by
  rw [rest, ofRange]
  cases he : r.isEmpty with
  | true =>
      rw [Table.between_eq_nil_of_crossed he]
      cases r.limit <;> simp [cut]
  | false =>
      cases hl : r.limit with
      | none => simp
      | some n =>
          cases n with
          | zero => simp [cut]
          | succ n => simp

theorem next_of_rest_nil {c : Cursor} {t : Table} (hc : c.Consistent) (h : c.rest t = []) :
    ∃ d, c.next t = (none, d) := by
  rw [rest] at h
  rw [next]
  split at h
  · next hf => exact ⟨c, if_pos hf⟩
  · next hf =>
    have hb : t.between c.lower c.upper = [] := by
      cases hr : c.remaining with
      | none => simpa [cut, hr] using h
      | some n =>
          cases n with
          | zero => exact absurd (hc hr) hf
          | succ n => simpa [cut, hr] using h
    rw [if_neg hf, Table.first?_eq_head?, hb]
    exact ⟨_, rfl⟩

theorem consistent_past (c : Cursor) (k : Bytes) : (c.past k).Consistent := by
  intro h
  change c.remaining.map (· - 1) = some 0 at h
  simp [past, h]

/-- After an entry a cursor has the others to give, as far as its limit goes. -/
theorem rest_past {c : Cursor} {t : Table} {e : Entry} {es : List Entry}
    (h : t.between c.lower c.upper = e :: es) :
    (c.past e.1).rest t = cut (c.remaining.map (· - 1)) es := by
  have hes := Table.between_exclusive_of_cons h
  have hrest : (c.past e.1).rest t =
      if (c.remaining.map (· - 1) == some 0 || (Bound.exclusive e.1).crossed c.upper) = true then []
      else cut (c.remaining.map (· - 1)) (t.between (.exclusive e.1) c.upper) := rfl
  rw [hrest, hes]
  split
  · next hf =>
    rcases Bool.or_eq_true_iff.1 hf with hr | hcr
    · rw [beq_iff_eq] at hr
      rw [hr]
      rfl
    · rw [Table.between_eq_nil_of_crossed hcr] at hes
      rw [← hes]
      cases c.remaining <;> simp [cut]
  · rfl

theorem next_of_rest_cons {c : Cursor} {t : Table} {e : Entry} {es : List Entry}
    (h : c.rest t = e :: es) :
    c.next t = (some e, c.past e.1) ∧ (c.past e.1).rest t = es := by
  rw [rest] at h
  split at h
  · contradiction
  · next hf =>
    obtain ⟨fs, hb, hfs⟩ : ∃ fs, t.between c.lower c.upper = e :: fs ∧
        cut (c.remaining.map (· - 1)) fs = es := by
      cases hb : t.between c.lower c.upper with
      | nil => cases hr : c.remaining <;> simp [cut, hr, hb] at h
      | cons a as =>
          cases hr : c.remaining with
          | none => simpa [cut, hr, hb] using h
          | some n =>
              cases n with
              | zero => simp [cut, hr] at h
              | succ n =>
                  simp only [cut, hr, hb, List.take_succ_cons, List.cons.injEq] at h
                  exact ⟨as, by rw [h.1], h.2⟩
    refine ⟨?_, (rest_past hb).trans hfs⟩
    rw [next, if_neg hf, Table.first?_eq_head?, hb]
    rfl

end Cursor
end QuadIndex
