import QuadIndex.Proofs.Pattern.Division

/-! # Division one push at a time

A pattern can be divided place by place: each branch so far is continued by every constraint of the
next place. A push refuses a place that its branch binds already. As no place stands twice in a
pattern, no push is ever refused, and the branches are those of the division. -/

namespace QuadIndex

/-! ## Pushes -/

/-- The branch with one more constraint. A place that it binds already is refused. -/
def Branch.push (b : Branch) (t : Term) (c : Constraint) : Except Term Branch :=
  if (b.get? t).isSome then .error t else .ok ⟨b.entries ++ [(t, c)]⟩

theorem Branch.push_of_not_mem {b : Branch} {t : Term} (h : t ∉ b.entries.map Prod.fst)
    (c : Constraint) : b.push t c = .ok ⟨b.entries ++ [(t, c)]⟩ :=
  if_neg fun hs => h (Term.isSome_find?_iff.1 hs)

/-- An action on each element that is refused for none gives the list of its results. -/
theorem mapM_eq_ok {α β ε : Type} {f : α → Except ε β} {g : α → β} {as : List α}
    (h : ∀ a ∈ as, f a = .ok (g a)) : as.mapM f = .ok (as.map g) := by
  induction as with
  | nil => rfl
  | cons a as ih =>
      obtain ⟨ha, has⟩ := List.forall_mem_cons.1 h
      rw [List.mapM_cons, ha, ih has]
      rfl

namespace Pattern

def pushEach (bs : List Branch) (e : Term × Selector) : Except Term (List Branch) :=
  List.flatten <$> bs.mapM fun b => e.2.constraints.mapM fun c => b.push e.1 c

def pushedBranches (es : List (Term × Selector)) : Except Term (List Branch) :=
  es.foldlM pushEach [⟨[]⟩]

/-- What may keep a pattern from being divided by pushes. -/
inductive PushError where
  | faulty (fault : PatternFault)
  | boundTwice (term : Term)
  deriving DecidableEq

def divideByPushes (p : Pattern) : Except PushError (List Branch) :=
  match p.fault? with
  | some f => .error (.faulty f)
  | none => (pushedBranches p.entries).mapError .boundTwice

/-! ## No push is refused -/

theorem pushEach_eq_ok {bs : List Branch} {e : Term × Selector}
    (h : ∀ b ∈ bs, e.1 ∉ b.entries.map Prod.fst) :
    pushEach bs e = .ok (bs.flatMap fun b =>
      e.2.constraints.map fun c => ⟨b.entries ++ [(e.1, c)]⟩) := by
  have hpush : ∀ b ∈ bs, (e.2.constraints.mapM fun c => b.push e.1 c) =
      .ok (e.2.constraints.map fun c => ⟨b.entries ++ [(e.1, c)]⟩) :=
    fun b hb => mapM_eq_ok fun c _ => Branch.push_of_not_mem (h b hb) c
  rw [pushEach, mapM_eq_ok hpush, Except.map_ok, List.flatMap_def]

/-- From any branches that bind none of the places to come, pushes append every choice to each. -/
theorem foldlM_pushEach {es : List (Term × Selector)} (hes : (es.map Prod.fst).Nodup)
    {bs : List Branch} (h : ∀ b ∈ bs, ∀ e ∈ es, e.1 ∉ b.entries.map Prod.fst) :
    es.foldlM pushEach bs = .ok (bs.flatMap fun b =>
      (choices es).map fun cs => ⟨b.entries ++ cs⟩) := by
  induction es generalizing bs with
  | nil =>
      have hbs : (bs.flatMap fun b => [(⟨b.entries ++ []⟩ : Branch)]) = bs := by simp
      exact congrArg Except.ok hbs.symm
  | cons e es ih =>
      rw [List.map_cons, List.nodup_cons] at hes
      have hnext : ∀ b ∈ bs.flatMap (fun b =>
          e.2.constraints.map fun c => (⟨b.entries ++ [(e.1, c)]⟩ : Branch)),
          ∀ e' ∈ es, e'.1 ∉ b.entries.map Prod.fst := by
        intro b hb e' he' hmem
        obtain ⟨b', hb', hb⟩ := List.mem_flatMap.1 hb
        obtain ⟨c, -, rfl⟩ := List.mem_map.1 hb
        rw [List.map_append, List.mem_append] at hmem
        rcases hmem with hold | hnew
        · exact h b' hb' e' (List.mem_cons_of_mem e he') hold
        · have heq : e'.1 = e.1 := List.mem_singleton.1 hnew
          exact hes.1 (heq ▸ List.mem_map_of_mem he')
      rw [List.foldlM_cons, pushEach_eq_ok fun b hb => h b hb e List.mem_cons_self]
      calc
        es.foldlM pushEach (bs.flatMap fun b =>
            e.2.constraints.map fun c => ⟨b.entries ++ [(e.1, c)]⟩) = _ := ih hes.2 hnext
        _ = _ := by
          simp only [choices, List.flatMap_assoc, List.flatMap_map, List.map_flatMap,
            List.map_map, Function.comp_def, List.append_assoc, List.singleton_append]

theorem pushedBranches_eq (p : Pattern) : pushedBranches p.entries = .ok p.branches := by
  rw [pushedBranches, foldlM_pushEach p.distinct (by simp), List.flatMap_singleton]
  rfl

/-- Division by pushes is refused for a fault only, and never because a place is bound twice. -/
theorem divideByPushes_eq (p : Pattern) : p.divideByPushes = p.divide.mapError .faulty := by
  rw [divideByPushes, divide, pushedBranches_eq]
  cases p.fault? <;> rfl

/-- Entries that are no pattern can be refused. -/
example : pushedBranches [(.subject, .one (.exact "a")), (.subject, .one (.exact "b"))] =
    .error .subject := by
  decide

end Pattern
end QuadIndex
