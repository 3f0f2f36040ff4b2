import QuadIndex.Engine.Chance

/-! # What chance cannot change

A property of a drawing holds whatever the words are. Properties of small drawings give those of
drawings that are made of them. -/

namespace QuadIndex.Chance

variable {α β : Type} {draw : StateM Chance α} {P : α → Prop}

/-- Every result of a drawing has the property. -/
def Always (draw : StateM Chance α) (P : α → Prop) : Prop := ∀ c, P (draw c).1

theorem always_pure {a : α} (h : P a) : Always (pure a) P := fun _ => h

theorem always_true : Always draw fun _ => True := fun _ => trivial

theorem Always.bind {f : α → StateM Chance β} {Q : β → Prop} (h : Always draw P)
    (hf : ∀ a, P a → Always (f a) Q) : Always (draw >>= f) Q :=
  fun c => hf _ (h c) _

theorem always_ite {b : Prop} [Decidable b] {other : StateM Chance α} (h : b → Always draw P)
    (h' : ¬ b → Always other P) : Always (if b then draw else other) P := by
  split
  · next hb => exact h hb
  · next hb => exact h' hb

/-- As many results as were asked for, each with the property. -/
theorem Always.times (h : Always draw P) (n : Nat) :
    Always (times draw n) fun as => as.length = n ∧ ∀ a ∈ as, P a := by
  induction n with
  | zero => exact always_pure ⟨rfl, nofun⟩
  | succ n ih =>
      refine h.bind fun a ha => ih.bind fun as has => always_pure ?_
      exact ⟨congrArg (· + 1) has.1, List.forall_mem_cons.2 ⟨ha, has.2⟩⟩

/-! ## Numbers below a bound -/

/-- Even with a carry the whole part of `n` times a fraction stays below `n`. -/
theorem carry_lt {denominator n a b : Nat} (ha : a < denominator) (hb : b < denominator)
    (hn : 0 < n) (hcarry : denominator ≤ a * n % denominator + b * n / denominator) :
    a * n / denominator + 1 < n := by
  have hmore : b * n / denominator < n := by
    rw [Nat.div_lt_iff_lt_mul (Nat.zero_lt_of_lt hb), Nat.mul_comm n]
    exact Nat.mul_lt_mul_of_pos_right hb hn
  have hproduct : a * n + n ≤ denominator * n := by
    rw [← Nat.succ_mul]
    exact Nat.mul_le_mul_right n ha
  have hparts := Nat.div_add_mod (a * n) denominator
  refine Nat.lt_of_mul_lt_mul_left (a := denominator) ?_
  rw [Nat.mul_add, Nat.mul_one]
  omega

theorem always_scale {denominator n : Nat} {draw : StateM Chance Nat}
    (h : Always draw (· < denominator)) (hn : 0 < n) :
    Always (scale denominator draw n) (· < n) := by
  have hwhole {a : Nat} (ha : a < denominator) : a * n / denominator < n := by
    rw [Nat.div_lt_iff_lt_mul (Nat.zero_lt_of_lt ha), Nat.mul_comm n]
    exact Nat.mul_lt_mul_of_pos_right ha hn
  refine h.bind fun a ha => always_ite (fun _ => h.bind fun b hb => always_pure ?_)
    fun _ => always_pure (hwhole ha)
  split
  · next hcarry => exact carry_lt ha hb hn hcarry
  · exact hwhole ha

theorem always_below {n : Nat} (hn : 0 < n) : Always (below n) (· < n) := by
  refine always_ite (fun _ => always_scale ?_ hn) fun _ => always_scale ?_ hn
  · exact always_true.bind fun w _ => always_pure w.toNat_lt
  · exact always_true.bind fun w _ => always_pure w.toNat_lt

end QuadIndex.Chance
