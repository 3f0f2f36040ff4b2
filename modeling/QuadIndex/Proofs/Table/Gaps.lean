import QuadIndex.Table.Bound

/-! # Ranges without keys

Every key has a next one: the key with a zero byte behind it. So a lower end admits a least key, and
a range holds a key exactly if its upper end admits that one. The check for empty ranges compares
the two ends only, and misses the ranges whose upper end is the least key itself. -/

namespace QuadIndex

/-! ## The next key -/

theorem lt_append_zero_iff {k l : Bytes} : k < l ++ [0] ↔ k ≤ l := by
  induction l generalizing k with
  | nil =>
      cases k with
      | nil => decide
      | cons a k =>
          have hzero : ¬ a < 0 := by simp
          simp [List.cons_lt_cons_iff, hzero]
  | cons b l ih =>
      cases k with
      | nil => simp
      | cons a k => rw [List.cons_append, List.cons_lt_cons_iff, List.cons_le_cons_iff, ih]

theorem append_zero_le_iff {k l : Bytes} : l ++ [0] ≤ k ↔ l < k := by
  rw [← Std.not_lt, lt_append_zero_iff, Std.not_le]

namespace Bound

variable {lower upper : Bound} {k l : Bytes}

/-- The first key above a lower end. -/
def least : Bound → Bytes
  | unbounded => []
  | inclusive k => k
  | exclusive k => k ++ [0]

theorem below_iff_least_le : lower.below k = true ↔ lower.least ≤ k := by
  cases lower with
  | unbounded => simp [below, least]
  | inclusive l => exact decide_eq_true_iff
  | exclusive l => rw [least, append_zero_le_iff, below, decide_eq_true_iff]

/-- Keys above a lower end reach upwards. -/
theorem below_of_lt (h : lower.below k = true) (hl : k < l) : lower.below l = true :=
  below_iff_least_le.2 (Std.le_trans (below_iff_least_le.1 h) (Std.le_of_lt hl))

/-- Keys below an upper end reach downwards. -/
theorem above_of_le (h : upper.above k = true) (hl : l ≤ k) : upper.above l = true := by
  cases upper with
  | unbounded => rfl
  | inclusive u =>
      rw [above, decide_eq_true_iff] at h ⊢
      exact Std.le_trans hl h
  | exclusive u =>
      rw [above, decide_eq_true_iff] at h ⊢
      exact Std.lt_of_le_of_lt hl h

/-! ## Ends that leave nothing between them -/

/-- The ends have not crossed, and yet the upper one leaves out the least key of the lower one. -/
inductive Gap : Bound → Bound → Prop
  | start : Gap unbounded (exclusive [])
  | next (l : Bytes) : Gap (exclusive l) (exclusive (l ++ [0]))

theorem Gap.crossed_eq_false (h : Gap lower upper) : lower.crossed upper = false := by
  cases h with
  | start => rfl
  | next l =>
      have hl : l < l ++ [0] := lt_append_zero_iff.2 (Std.le_refl l)
      exact decide_eq_false (Std.not_le.2 hl)

theorem gap_unbounded_iff {u : Bytes} : Gap unbounded (exclusive u) ↔ u = [] := by
  refine ⟨fun h => ?_, fun h => h ▸ .start⟩
  cases h
  rfl

theorem gap_exclusive_iff {u : Bytes} : Gap (exclusive l) (exclusive u) ↔ u = l ++ [0] := by
  refine ⟨fun h => ?_, fun h => h ▸ .next l⟩
  cases h
  rfl

/-- The least key is beyond the upper end only where the ends have crossed or leave a gap. -/
theorem above_least_eq_false_iff :
    upper.above lower.least = false ↔ lower.crossed upper = true ∨ Gap lower upper := by
  cases upper with
  | unbounded =>
      have hgap : ¬ Gap lower unbounded := by
        intro h
        cases h
      rw [or_iff_left hgap]
      cases lower <;> simp [above, crossed]
  | inclusive u =>
      have hgap : ¬ Gap lower (inclusive u) := by
        intro h
        cases h
      rw [or_iff_left hgap, above, decide_eq_false_iff_not, Std.not_le]
      cases lower with
      | unbounded => simp [least, crossed]
      | inclusive l => exact decide_eq_true_iff.symm
      | exclusive l => rw [least, lt_append_zero_iff, crossed, decide_eq_true_iff]
  | exclusive u =>
      rw [above, decide_eq_false_iff_not, Std.not_lt]
      cases lower with
      | unbounded => simp [least, crossed, gap_unbounded_iff]
      | inclusive l =>
          have hgap : ¬ Gap (inclusive l) (exclusive u) := by
            intro h
            cases h
          rw [or_iff_left hgap, least, crossed, decide_eq_true_iff]
      | exclusive l =>
          rw [least, crossed, decide_eq_true_iff, gap_exclusive_iff, Std.le_iff_lt_or_eq,
            lt_append_zero_iff]

theorem not_between_of_crossed (h : lower.crossed upper = true) (k : Bytes) :
    ¬ (lower.below k = true ∧ upper.above k = true) := by
  rintro ⟨hbelow, habove⟩
  have hleast := above_of_le habove (below_iff_least_le.1 hbelow)
  rw [above_least_eq_false_iff.2 (.inl h)] at hleast
  contradiction

end Bound

namespace KeyRange

theorem exists_contains_iff (r : KeyRange) :
    (∃ k, r.contains k = true) ↔ r.upper.above r.lower.least = true := by
  constructor
  · rintro ⟨k, hk⟩
    obtain ⟨hbelow, habove⟩ := Bool.and_eq_true_iff.1 hk
    exact Bound.above_of_le habove (Bound.below_iff_least_le.1 hbelow)
  · intro h
    exact ⟨_, Bool.and_eq_true_iff.2 ⟨Bound.below_iff_least_le.2 (Std.le_refl _), h⟩⟩

theorem contains_eq_false_iff (r : KeyRange) :
    (∀ k, r.contains k = false) ↔ r.isEmpty = true ∨ Bound.Gap r.lower r.upper := by
  rw [isEmpty, ← Bound.above_least_eq_false_iff, ← Bool.not_eq_true, ← exists_contains_iff]
  simp

/-- A range that counts as empty contains no key. One that does not contains a key, unless it is one
of two: the keys before the empty one, and the keys between a key and the next. These contain no key
and yet do not count as empty. -/
theorem isEmpty_misses_gaps (r : KeyRange) :
    (r.isEmpty = true → ∀ k, r.contains k = false) ∧
      (r.isEmpty = false → ((∃ k, r.contains k = true) ↔ ¬ Bound.Gap r.lower r.upper)) ∧
      (Bound.Gap r.lower r.upper → r.isEmpty = false ∧ ∀ k, r.contains k = false) := by
  refine ⟨fun h => ?_, fun h => ?_, fun h => ⟨h.crossed_eq_false, ?_⟩⟩
  · exact r.contains_eq_false_iff.2 (.inl h)
  · have hcrossed : ¬ r.lower.crossed r.upper = true := Bool.not_eq_true _ ▸ h
    rw [r.exists_contains_iff, ← Bool.not_eq_false, Bound.above_least_eq_false_iff,
      or_iff_right hcrossed]
  · exact r.contains_eq_false_iff.2 (.inr h)

/-- Between a key and the next there is none, and the empty key is the only one before the key of a
zero byte. -/
theorem isEmpty_misses_gap_after_one :
    let gap : KeyRange := ⟨.exclusive [1], .exclusive [1, 0], none⟩
    let first : KeyRange := ⟨.unbounded, .exclusive [0], none⟩
    gap.isEmpty = false ∧ (∀ k, gap.contains k = false) ∧
      first.isEmpty = false ∧ ∃ k, first.contains k = true := by
  intro gap first
  obtain ⟨hgap, hnone⟩ := (isEmpty_misses_gaps gap).2.2 (.next [1])
  have hfirst : first.isEmpty = false := rfl
  have hno : ¬ Bound.Gap first.lower first.upper := by
    intro h
    cases h
  exact ⟨hgap, hnone, hfirst, ((isEmpty_misses_gaps first).2.1 hfirst).2 hno⟩

end KeyRange
end QuadIndex
