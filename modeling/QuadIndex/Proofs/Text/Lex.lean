/-! # Lexicographic order of lists that share a beginning -/

namespace QuadIndex.Lex

/-- A comparison that goes on in two steps may take the first two as one. -/
theorem step_iff {a b c d e : Prop} :
    (a ∨ b ∧ (c ∨ d ∧ e)) ↔ (a ∨ b ∧ c) ∨ (b ∧ d) ∧ e := by
  rw [and_or_left, or_assoc, and_assoc]

variable {α : Type} [LT α]

theorem append_lt_append_iff [Std.Irrefl (· < · : α → α → Prop)] (as bs cs : List α) :
    as ++ bs < as ++ cs ↔ bs < cs := by
  induction as with
  | nil => rfl
  | cons a as ih => rw [List.cons_append, List.cons_append, List.cons_lt_cons_self, ih]

/-- Lists with beginnings of one length are compared by these first. -/
theorem append_lt_append_of_length_eq {as bs : List α} (h : as.length = bs.length)
    (cs ds : List α) : as ++ cs < bs ++ ds ↔ as < bs ∨ as = bs ∧ cs < ds := by
  induction as generalizing bs with
  | nil =>
      have hb : bs = [] := List.length_eq_zero_iff.1 h.symm
      simp [hb]
  | cons a as ih =>
      cases bs with
      | nil => simp at h
      | cons b bs =>
          have hl : as.length = bs.length := Nat.succ.inj h
          rw [List.cons_append, List.cons_append, List.cons_lt_cons_iff, ih hl, step_iff,
            List.cons_lt_cons_iff, List.cons.injEq]

theorem not_append_lt_append_of_length_eq [Std.Asymm (α := List α) (· < ·)]
    [Std.Trichotomous (α := List α) (· < ·)] {as bs : List α} (h : as.length = bs.length)
    (cs ds : List α) : ¬ as ++ cs < bs ++ ds ↔ bs < as ∨ bs = as ∧ ¬ cs < ds := by
  have asymm {l m : List α} (hl : l < m) : ¬ m < l := Std.Asymm.asymm l m hl
  rw [append_lt_append_of_length_eq h]
  rcases Std.lt_trichotomy as bs with hlt | rfl | hgt
  · have hne : bs ≠ as := fun he => asymm hlt (he ▸ hlt)
    simp [hlt, asymm hlt, hne]
  · have hn : ¬ as < as := fun hl => asymm hl hl
    simp [hn]
  · have hne : as ≠ bs := fun he => asymm hgt (he ▸ hgt)
    simp [hgt, asymm hgt, hne]

end QuadIndex.Lex
