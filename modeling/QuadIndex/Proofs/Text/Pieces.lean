import Mathlib.Data.List.DropRight
import Mathlib.Data.List.Forall2
import QuadIndex.Text.Blank

/-! # Lists in text

Text falls into pieces at its separators in just one way, and each piece has just one kernel, which
is what is left without the blanks at its ends. -/

namespace QuadIndex.Text

variable {separator : Char} {cs ds : List Char} {ps : List (List Char)}

/-! ## Pieces -/

/-- The pieces make up the text if the separator stands between them, and none of them has it. -/
structure PiecesOf (separator : Char) (cs : List Char) (ps : List (List Char)) : Prop where
  ne_nil : ps ≠ []
  free : ∀ p ∈ ps, separator ∉ p
  joined : [separator].intercalate ps = cs

theorem pieces_eq_splitOn (separator : Char) (cs : List Char) :
    pieces separator cs = cs.splitOn separator := by
  induction cs with
  | nil => rfl
  | cons c cs ih =>
      have hcons : (c :: cs).splitOn separator =
          if (c == separator) = true then [] :: cs.splitOn separator
          else (cs.splitOn separator).modifyHead (c :: ·) :=
        List.splitOnP_cons_eq_if_modifyHead c cs
      rw [pieces, hcons, ih]
      by_cases hc : c = separator
      · rw [if_pos hc, if_pos (beq_iff_eq.2 hc)]
      · rw [if_neg hc, if_neg (mt beq_iff_eq.1 hc)]
        cases hs : cs.splitOn separator with
        | nil => exact absurd hs (List.splitOn_ne_nil separator cs)
        | cons p ps => rfl

theorem not_mem_of_mem_pieces : ∀ p ∈ pieces separator cs, separator ∉ p := by
  induction cs with
  | nil => exact List.forall_mem_singleton.2 List.not_mem_nil
  | cons c cs ih =>
      rw [pieces]
      split
      · exact List.forall_mem_cons.2 ⟨List.not_mem_nil, ih⟩
      · next hc =>
        have hcons {p : List Char} (hp : separator ∉ p) : separator ∉ c :: p :=
          List.not_mem_cons_of_ne_of_not_mem (Ne.symm hc) hp
        split
        · exact List.forall_mem_singleton.2 (hcons List.not_mem_nil)
        · next p ps heq =>
          rw [heq] at ih
          obtain ⟨hp, hps⟩ := List.forall_mem_cons.1 ih
          exact List.forall_mem_cons.2 ⟨hcons hp, hps⟩

theorem subset_of_mem_pieces : ∀ p ∈ pieces separator cs, p ⊆ cs := by
  induction cs with
  | nil => simp [pieces]
  | cons c cs ih =>
      have hlater {p : List Char} (hp : p ⊆ cs) : p ⊆ c :: cs := List.subset_cons_of_subset c hp
      rw [pieces]
      split
      · exact List.forall_mem_cons.2 ⟨List.nil_subset _, fun p hp => hlater (ih p hp)⟩
      · split
        · simp
        · next p ps heq =>
          rw [heq] at ih
          obtain ⟨hp, hps⟩ := List.forall_mem_cons.1 ih
          refine List.forall_mem_cons.2 ⟨?_, fun p hp => hlater (hps p hp)⟩
          exact List.cons_subset_cons c hp

theorem piecesOf_iff : PiecesOf separator cs ps ↔ ps = pieces separator cs := by
  constructor
  · intro h
    rw [pieces_eq_splitOn, ← h.joined, List.splitOn_intercalate separator h.free h.ne_nil]
  · rintro rfl
    refine ⟨?_, not_mem_of_mem_pieces, ?_⟩
    · rw [pieces_eq_splitOn]
      exact List.splitOn_ne_nil separator cs
    · rw [pieces_eq_splitOn]
      exact List.intercalate_splitOn separator

/-! ## Blanks -/

/-- The kernel of text begins and ends with no blank, and there are only blanks around it. -/
structure IsKernel (cs ds : List Char) : Prop where
  around : ∃ before after, cs = before ++ ds ++ after ∧
    (∀ c ∈ before, isBlank c = true) ∧ ∀ c ∈ after, isBlank c = true
  head : ∀ c ∈ ds.head?, isBlank c = false
  last : ∀ c ∈ ds.getLast?, isBlank c = false

theorem dropWhile_append_of_head {before rest : List Char}
    (hbefore : ∀ c ∈ before, isBlank c = true) (hrest : ∀ c ∈ rest.head?, isBlank c = false) :
    (before ++ rest).dropWhile isBlank = rest := by
  rw [List.dropWhile_append_of_pos hbefore]
  cases rest with
  | nil => rfl
  | cons c cs => rw [List.dropWhile_cons_of_neg (by simp [hrest c rfl])]

theorem IsKernel.trim_eq (h : IsKernel cs ds) : trim cs = ds := by
  obtain ⟨⟨before, after, rfl, hbefore, hafter⟩, hhead, hlast⟩ := h
  cases ds with
  | nil =>
      have hblank : ∀ c ∈ before ++ [] ++ after, isBlank c = true := by
        rw [List.append_nil]
        exact List.forall_mem_append.2 ⟨hbefore, hafter⟩
      rw [trim, List.dropWhile_eq_nil_iff.2 hblank]
      rfl
  | cons d ds =>
      have hafter' : ∀ c ∈ after.reverse, isBlank c = true := fun c hc =>
        hafter c (List.mem_reverse.1 hc)
      have hlast' : ∀ c ∈ (d :: ds).reverse.head?, isBlank c = false := by
        rwa [List.head?_reverse]
      have hhead' : ∀ c ∈ (d :: ds ++ after).head?, isBlank c = false := hhead
      rw [trim, List.append_assoc, dropWhile_append_of_head hbefore hhead', List.reverse_append,
        dropWhile_append_of_head hafter' hlast', List.reverse_reverse]

theorem isKernel_trim (cs : List Char) : IsKernel cs (trim cs) := by
  have htrim : trim cs = (cs.dropWhile isBlank).rdropWhile isBlank := rfl
  have hrest := List.rdropWhile_append_rtakeWhile (p := isBlank) (l := cs.dropWhile isBlank)
  refine ⟨⟨cs.takeWhile isBlank, (cs.dropWhile isBlank).rtakeWhile isBlank, ?_,
    fun c => List.mem_takeWhile_imp, fun c => List.mem_rtakeWhile_imp⟩,
    fun c hc => ?_, fun c hc => ?_⟩
  · rw [htrim, List.append_assoc, hrest, List.takeWhile_append_dropWhile]
  · have hhead : (cs.dropWhile isBlank).head? = some c := by
      rw [← hrest, List.head?_append, ← htrim, hc]
      rfl
    have hnot := List.head?_dropWhile_not isBlank cs
    rwa [hhead] at hnot
  · rw [htrim] at hc
    obtain ⟨hne, rfl⟩ := List.mem_getLast?_eq_getLast hc
    exact eq_false_of_ne_true (List.rdropWhile_last_not isBlank _ hne)

theorem isKernel_iff : IsKernel cs ds ↔ ds = trim cs := by
  constructor
  · exact fun h => h.trim_eq.symm
  · rintro rfl
    exact isKernel_trim cs

theorem forall₂_isKernel_iff {ks : List (List Char)} :
    List.Forall₂ IsKernel ps ks ↔ ks = ps.map trim := by
  induction ps generalizing ks with
  | nil => exact List.forall₂_nil_left_iff
  | cons p ps ih => simp [List.forall₂_cons_left_iff, isKernel_iff, ih]

theorem isKernel_self (h : ∀ c ∈ cs, isBlank c = false) : IsKernel cs cs where
  around := ⟨[], [], (List.append_nil cs).symm, nofun, nofun⟩
  head c hc := h c (List.mem_of_mem_head? hc)
  last c hc := h c (List.mem_of_mem_getLast? hc)

end QuadIndex.Text
