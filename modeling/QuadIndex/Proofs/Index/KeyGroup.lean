import Mathlib.Data.List.Lex
import Mathlib.Data.String.Basic
import Mathlib.Logic.ExistsUnique
import Mathlib.Order.Compare
import QuadIndex.Proofs.Index.KeyOrder

/-! # Groups of keys

The quads that agree with some components at the leading places of an index have their keys side by
side. The key of the components alone comes before this group, and with the boundary behind it the
key comes after. -/

namespace QuadIndex.Index

variable {i j : Index} {cs : List String} {q : Quad} {k : Bytes}

/-- The key lies before the group of the components, within it, or after it. -/
def Places (i : Index) (cs : List String) (k : Bytes) : Ordering → Prop
  | .lt => k < i.boundKey cs ""
  | .eq => i.boundKey cs "" ≤ k ∧ k < i.boundKey cs (String.singleton boundary)
  | .gt => i.boundKey cs (String.singleton boundary) < k

theorem places_of_compares (hq : q.fault? = none) (hcs : ∀ c ∈ cs, isReserved c = false)
    (hl : cs.length ≤ 4) {o : Ordering} (h : o.Compares (i.leading q cs) cs) :
    i.Places cs (i.key q) o := by
  cases o with
  | lt => exact (key_lt_boundKey_iff hq hcs hl).2 h
  | eq =>
      have hleading : i.leading q cs = cs := h
      have hbefore : ¬ i.key q < i.boundKey cs "" := by
        rw [key_lt_boundKey_iff hq hcs hl, hleading]
        exact List.lt_irrefl cs
      exact ⟨Std.not_lt.1 hbefore, (key_lt_boundKey_boundary_iff hq hcs hl).2 (.inr hleading)⟩
  | gt => exact (boundKey_boundary_lt_key_iff hq hcs hl).2 h

theorem not_within_of_name_ne (h : j.name ≠ i.name) (cs : List String) (q : Quad) :
    ¬ (i.boundKey cs "" ≤ j.key q ∧ j.key q ≤ i.boundKey cs (String.singleton boundary)) := by
  rintro ⟨hlow, hhigh⟩
  rcases Std.lt_trichotomy j.name i.name with hlt | heq | hgt
  · exact Std.not_le.2 (boundKey_lt_of_name_lt hlt _ _ _ _) hlow
  · exact h heq
  · exact Std.not_le.2 (boundKey_lt_of_name_lt hgt _ _ _ _) hhigh

/-- Exactly one holds of every quad: its key lies before the group of some components and its
leading values are smaller than these, it lies within and they are equal, or it lies after and they
are greater. No key under another name lies between the two ends of the group. -/
theorem keys_lie_about_groups (i : Index) (cs : List String) (hl : cs.length ≤ 4)
    (hcs : ∀ c ∈ cs, isReserved c = false) :
    (∀ q : Quad, q.fault? = none →
      ∃! o : Ordering, i.Places cs (i.key q) o ∧ o.Compares (i.leading q cs) cs) ∧
    ∀ (j : Index) (q : Quad), j.name ≠ i.name → q.fault? = none →
      ¬ (i.boundKey cs "" ≤ j.key q ∧ j.key q ≤ i.boundKey cs (String.singleton boundary)) := by
  constructor
  · intro q hq
    have hcompares := cmp_compares (i.leading q cs) cs
    refine ⟨_, ⟨places_of_compares hq hcs hl hcompares, hcompares⟩, ?_⟩
    rintro o ⟨-, ho⟩
    exact ho.inj hcompares
  · intro j q hname _
    exact not_within_of_name_ne hname cs q

/-- A value that extends the last component by the smallest character that may follow puts its key
behind the group, also behind the keys with the largest character at the next place. -/
theorem keys_lie_about_groups_extended :
    let i : Index := ⟨"A", Term.all, by decide, by decide, rfl, Term.mem_all⟩
    let j : Index := ⟨"AB", Term.all, by decide, by decide, rfl, Term.mem_all⟩
    let p : Quad := ⟨"s", String.singleton (Char.ofNat 0x10FFFE), "", "g"⟩
    let q : Quad := ⟨"s\x01", "", "", "g"⟩
    (∀ c ∈ ["s"], isReserved c = false) ∧ p.fault? = none ∧ q.fault? = none ∧
      (∃! o : Ordering, i.Places ["s"] (i.key p) o ∧ o.Compares (i.leading p ["s"]) ["s"]) ∧
      i.Places ["s"] (i.key p) .eq ∧
      (∃! o : Ordering, i.Places ["s"] (i.key q) o ∧ o.Compares (i.leading q ["s"]) ["s"]) ∧
      i.Places ["s"] (i.key q) .gt ∧
      ¬ (i.boundKey ["s"] "" ≤ j.key p ∧
        j.key p ≤ i.boundKey ["s"] (String.singleton boundary)) := by
  intro i j p q
  have hcs : ∀ c ∈ ["s"], isReserved c = false := by decide
  have hp : p.fault? = none := by decide
  have hq : q.fault? = none := by decide
  obtain ⟨hplace, hother⟩ := keys_lie_about_groups i ["s"] (by decide) hcs
  refine ⟨hcs, hp, hq, hplace p hp, ?_, hplace q hq, ?_, hother j p (by decide) hp⟩
  · exact ⟨by decide, by decide⟩
  · exact (by decide : i.boundKey ["s"] (String.singleton boundary) < i.key q)

end QuadIndex.Index
