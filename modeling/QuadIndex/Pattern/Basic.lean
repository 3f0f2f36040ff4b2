import QuadIndex.Pattern.Constraint

/-! Patterns of quads: for some of the four places, which values are wanted there. -/

namespace QuadIndex

/-- Among entries for places, one is found for each place that occurs. -/
theorem Term.isSome_find?_iff {α : Type} {t : Term} {es : List (Term × α)} :
    ((es.find? fun e => e.1 = t).map (·.2)).isSome = true ↔ t ∈ es.map Prod.fst := by
  rw [Option.isSome_map, List.find?_isSome, List.mem_map]
  simp only [decide_eq_true_eq]

/-- What is wanted at one place: one constraint, or any of several. -/
inductive Selector where
  | one (c : Constraint)
  | anyOf (cs : List Constraint)
  deriving DecidableEq

namespace Selector

def constraints : Selector → List Constraint
  | one c => [c]
  | anyOf cs => cs

def admits (s : Selector) (value : String) : Bool := s.constraints.any (·.admits value)

def fault? (t : Term) : Selector → Option PatternFault
  | one c => c.fault? t
  | anyOf [] => some (.emptyList t)
  | anyOf cs => cs.findSome? (·.fault? t)

end Selector

/-- Selectors for some of the places, in the order in which the places were first constrained. No
place is constrained twice. -/
structure Pattern where
  entries : List (Term × Selector)
  distinct : (entries.map Prod.fst).Nodup := by simp
  deriving DecidableEq

namespace Pattern

def empty : Pattern := ⟨[], by simp⟩

/-- Replaces the selector of a place where it stands. -/
def replace (t : Term) (s : Selector) : List (Term × Selector) → List (Term × Selector)
  | [] => [(t, s)]
  | e :: es => if e.1 = t then (t, s) :: es else e :: replace t s es

theorem map_fst_replace (t : Term) (s : Selector) (es : List (Term × Selector)) :
    (replace t s es).map Prod.fst =
      if t ∈ es.map Prod.fst then es.map Prod.fst else es.map Prod.fst ++ [t] := by
  induction es with
  | nil => simp [replace]
  | cons e es ih =>
    by_cases h : e.1 = t
    · simp [replace, h]
    · rw [replace, if_neg h, List.map_cons, ih]
      by_cases hm : t ∈ es.map Prod.fst
      · rw [if_pos hm, List.map_cons, if_pos (List.mem_cons_of_mem _ hm)]
      · have hn : t ∉ (e :: es).map Prod.fst := by
          rw [List.map_cons, List.mem_cons]
          exact fun hc => hc.elim (fun ht => h ht.symm) hm
        rw [if_neg hm, if_neg hn, List.map_cons, List.cons_append]

theorem distinct_replace (t : Term) (s : Selector) {es : List (Term × Selector)}
    (h : (es.map Prod.fst).Nodup) : ((replace t s es).map Prod.fst).Nodup := by
  rw [map_fst_replace]
  split
  · exact h
  · next hm =>
    refine List.nodup_append.2 ⟨h, by simp, fun a ha b hb => ?_⟩
    rintro rfl
    exact hm (List.mem_singleton.1 hb ▸ ha)

/-- Constrains a place. A place that is constrained already keeps its position. -/
def set (p : Pattern) (t : Term) (s : Selector) : Pattern :=
  ⟨replace t s p.entries, distinct_replace t s p.distinct⟩

def erase (p : Pattern) (t : Term) : Pattern :=
  ⟨p.entries.eraseP fun e => e.1 = t, p.distinct.sublist (List.eraseP_sublist.map Prod.fst)⟩

/-- Frees a place, and gives the selector that stood there. -/
def remove (p : Pattern) (t : Term) : Option Selector × Pattern :=
  match p.entries.findIdx? fun e => e.1 = t with
  | none => (none, p)
  | some i =>
    (p.entries[i]?.map (·.2),
      ⟨p.entries.eraseIdx i, p.distinct.sublist ((List.eraseIdx_sublist p.entries i).map _)⟩)

def get? (p : Pattern) (t : Term) : Option Selector :=
  (p.entries.find? fun e => e.1 = t).map (·.2)

def size (p : Pattern) : Nat := p.entries.length

def isEmpty (p : Pattern) : Bool := p.entries.isEmpty

/-- The first fault in the order of the entries. -/
def fault? (p : Pattern) : Option PatternFault := p.entries.findSome? fun e => e.2.fault? e.1

end Pattern

namespace Quad

/-- The quad has an admitted value at every place of the pattern. -/
def matchesPattern (q : Quad) (p : Pattern) : Bool :=
  p.entries.all fun e => e.2.admits (q.get e.1)

end Quad
end QuadIndex
