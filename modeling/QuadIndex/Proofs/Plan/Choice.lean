import QuadIndex.Plan.Basic
import QuadIndex.Proofs.Pattern.Division

/-! # What a plan chooses

Every branch of a faultless pattern gets a strategy on some index of the registry: of those with the
highest score, the one on the earliest index. -/

namespace QuadIndex

/-! ## The first of the best -/

/-- The element has the greatest score of all, and those before it have less. -/
def FirstMax {α β : Type} [LT β] [LE β] (score : α → β) (as : List α) (a : α) : Prop :=
  ∃ before after, as = before ++ a :: after ∧ (∀ b ∈ before, score b < score a) ∧
    ∀ b ∈ after, score b ≤ score a

namespace FirstMax

variable {α β γ : Type} [LT β] [LE β] [LT γ] [LE γ] {score : α → β} {as : List α} {a b c : α}

theorem mem (h : FirstMax score as a) : a ∈ as := by
  obtain ⟨before, after, rfl, -, -⟩ := h
  simp

theorem of_map {δ : Type} {f : δ → α} {ds : List δ} (h : FirstMax score (ds.map f) a) :
    ∃ d, a = f d ∧ FirstMax (fun d => score (f d)) ds d := by
  obtain ⟨before, after, heq, hbefore, hafter⟩ := h
  obtain ⟨ds₁, ds₂, rfl, rfl, hds⟩ := List.map_eq_append_iff.1 heq
  obtain ⟨d, ds₃, rfl, rfl, rfl⟩ := List.map_eq_cons_iff.1 hds
  exact ⟨d, rfl, ds₁, ds₃, rfl, List.forall_mem_map.1 hbefore, List.forall_mem_map.1 hafter⟩

theorem rescale {score' : α → γ} (h : FirstMax score as a)
    (hlt : ∀ b, score b < score a → score' b < score' a)
    (hle : ∀ b, score b ≤ score a → score' b ≤ score' a) : FirstMax score' as a := by
  obtain ⟨before, after, heq, hbefore, hafter⟩ := h
  exact ⟨before, after, heq, fun b hb => hlt b (hbefore b hb), fun b hb => hle b (hafter b hb)⟩

theorem cons (h : FirstMax score as a) (hb : score b < score a) : FirstMax score (b :: as) a := by
  obtain ⟨before, after, rfl, hbefore, hafter⟩ := h
  exact ⟨b :: before, after, rfl, List.forall_mem_cons.2 ⟨hb, hbefore⟩, hafter⟩

section Laws

variable [Std.LawfulOrderLT β] [Std.IsPreorder β]

theorem le (h : FirstMax score as a) (hb : b ∈ as) : score b ≤ score a := by
  obtain ⟨before, after, rfl, hbefore, hafter⟩ := h
  rcases List.mem_append.1 hb with hb | hb
  · exact Std.le_of_lt (hbefore b hb)
  · rcases List.mem_cons.1 hb with rfl | hb
    · exact Std.le_refl _
    · exact hafter b hb

theorem insert (h : FirstMax score (b :: as) a) (hc : score c ≤ score b) :
    FirstMax score (b :: c :: as) a := by
  obtain ⟨before, after, heq, hbefore, hafter⟩ := h
  cases before with
  | nil =>
      obtain ⟨rfl, rfl⟩ := List.cons.inj heq
      exact ⟨[], c :: as, rfl, nofun, List.forall_mem_cons.2 ⟨hc, hafter⟩⟩
  | cons d before =>
      obtain ⟨rfl, rfl⟩ := List.cons.inj heq
      obtain ⟨hb, hbefore⟩ := List.forall_mem_cons.1 hbefore
      refine ⟨b :: c :: before, after, rfl, ?_, hafter⟩
      exact List.forall_mem_cons.2 ⟨hb, List.forall_mem_cons.2 ⟨Std.lt_of_le_of_lt hc hb, hbefore⟩⟩

end Laws

end FirstMax

namespace Strategy

/-- A best strategy stays until a better one comes. -/
theorem foldl_better (s : Strategy) (ss : List Strategy) :
    ∃ b, ss.foldl better (some s) = some b ∧ FirstMax score (s :: ss) b := by
  induction ss generalizing s with
  | nil => exact ⟨s, rfl, [], [], rfl, nofun, nofun⟩
  | cons a ss ih =>
      rw [List.foldl_cons, better]
      split
      · next hle =>
        obtain ⟨b, hb, hmax⟩ := ih s
        exact ⟨b, hb, hmax.insert hle⟩
      · next hlt =>
        obtain ⟨b, hb, hmax⟩ := ih a
        have hle : a.score ≤ b.score := hmax.le List.mem_cons_self
        exact ⟨b, hb, hmax.cons (Int.lt_of_lt_of_le (Int.not_le.1 hlt) hle)⟩

theorem pick_eq_ok {ss : List Strategy} (h : ss ≠ []) :
    ∃ s, pick ss = .ok s ∧ FirstMax score ss s := by
  cases ss with
  | nil => contradiction
  | cons a ss =>
      obtain ⟨b, heq, hmax⟩ := foldl_better a ss
      have hbest : best? (a :: ss) = some b := heq
      exact ⟨b, by rw [pick, hbest], hmax⟩

end Strategy

namespace Plan

/-- The index that a registry prefers for a branch. -/
def Prefers (r : Registry) (b : Branch) (i : Index) : Prop :=
  FirstMax (fun j => (Strategy.ofBranch b j).score) r.indexes i

theorem choose_eq_ok (r : Registry) (b : Branch) :
    ∃ i, Prefers r b i ∧ choose r b = .ok ⟨b, .ofBranch b i⟩ := by
  have hne : r.indexes.map (Strategy.ofBranch b) ≠ [] := fun h =>
    r.nonempty (List.map_eq_nil_iff.1 h)
  obtain ⟨s, hpick, hmax⟩ := Strategy.pick_eq_ok hne
  obtain ⟨i, rfl, hi⟩ := hmax.of_map
  refine ⟨i, hi, ?_⟩
  rw [choose, hpick]
  rfl

/-- Branches keep their order, and each is answered from the index that is preferred for it. -/
theorem chooseAll_eq_ok (r : Registry) (bs : List Branch) :
    ∃ cs, chooseAll r bs = .ok cs ∧ cs.map Choice.branch = bs ∧
      ∀ c ∈ cs, ∃ i, Prefers r c.branch i ∧ c.strategy = .ofBranch c.branch i := by
  induction bs with
  | nil => exact ⟨[], rfl, rfl, nofun⟩
  | cons b bs ih =>
      obtain ⟨i, hi, hb⟩ := choose_eq_ok r b
      obtain ⟨cs, hcs, hmap, hmem⟩ := ih
      refine ⟨⟨b, .ofBranch b i⟩ :: cs, ?_, by rw [List.map_cons, hmap], ?_⟩
      · rw [chooseAll, hb, hcs]
        rfl
      · intro c hc
        rcases List.mem_cons.1 hc with rfl | hc
        · exact ⟨i, hi, rfl⟩
        · exact hmem c hc

theorem ofPattern_eq_ok {p : Pattern} (hp : p.fault? = none) (r : Registry) :
    ∃ plan, ofPattern p r = .ok plan ∧ plan.choices.map Choice.branch = p.branches ∧
      ∀ c ∈ plan.choices, ∃ i, Prefers r c.branch i ∧ c.strategy = .ofBranch c.branch i := by
  obtain ⟨cs, hcs, hmap, hmem⟩ := chooseAll_eq_ok r p.branches
  refine ⟨⟨cs⟩, ?_, hmap, hmem⟩
  rw [ofPattern, Pattern.divide_eq_ok_iff.2 ⟨hp, rfl⟩]
  change Plan.mk <$> chooseAll r p.branches = _
  rw [hcs]
  rfl

theorem ofPattern_eq_error {p : Pattern} {f : PatternFault} (hp : p.fault? = some f)
    (r : Registry) : ofPattern p r = .error (.ofFault f) := by
  rw [ofPattern, Pattern.divide, hp]

end Plan
end QuadIndex
