import QuadIndex.Proofs.Text.Pieces
import QuadIndex.Text.Lines

/-! # Lines that were written one by one

Text in which every line is ended by a line feed falls into just these lines, apart from a carriage
return at the end of a line, which is lost with the line feed. -/

namespace QuadIndex.Text

variable {l cs as bs : List Char} {c : Char} {ls : List (List Char)}

/-! ## Carriage returns -/

theorem dropReturn_nil : dropReturn [] = [] := rfl

theorem dropReturn_concat (as : List Char) (c : Char) :
    dropReturn (as ++ [c]) = if c = '\r' then as else as ++ [c] := by
  rw [dropReturn, List.getLast?_concat]
  by_cases hc : c = '\r'
  · simp [hc]
  · rw [if_neg hc]
    split
    · next h => exact absurd (Option.some.inj h) hc
    · rfl

/-- Exactly the lines that end with no carriage return stay as they are. -/
theorem dropReturn_eq_self_iff : dropReturn l = l ↔ l.getLast? ≠ some '\r' := by
  rcases List.eq_nil_or_concat l with rfl | ⟨as, c, rfl⟩
  · simp [dropReturn_nil]
  · rw [List.concat_eq_append, dropReturn_concat, List.getLast?_concat]
    by_cases hc : c = '\r' <;> simp [hc]

/-- Only the end of a line is looked at. -/
theorem dropReturn_append_cons (hc : c ≠ '\r') (as bs : List Char) :
    dropReturn (as ++ c :: bs) = as ++ c :: dropReturn bs := by
  rcases List.eq_nil_or_concat bs with rfl | ⟨bs, d, rfl⟩
  · rw [dropReturn_concat, if_neg hc, dropReturn_nil]
  · have hline : as ++ c :: bs.concat d = (as ++ c :: bs) ++ [d] := by simp
    rw [hline, dropReturn_concat, List.concat_eq_append, dropReturn_concat]
    by_cases hd : d = '\r' <;> simp [hd]

theorem dropReturn_sublist (l : List Char) : (dropReturn l).Sublist l := by
  rw [dropReturn]
  split
  · exact List.dropLast_sublist l
  · exact List.Sublist.refl l

/-! ## Lines -/

/-- Lines, each ended by a line feed. -/
def ended (ls : List (List Char)) : List Char := ls.flatMap (· ++ ['\n'])

theorem joined_ended (ls : List (List Char)) : ['\n'].intercalate (ls ++ [[]]) = ended ls := by
  induction ls with
  | nil => rfl
  | cons l ls ih =>
      have hstep : ['\n'].intercalate (l :: (ls ++ [[]])) =
          l ++ ['\n'] ++ ['\n'].intercalate (ls ++ [[]]) := by
        cases ls <;> simp [List.intercalate_cons_cons]
      rw [List.cons_append, hstep, ih, ended, ended, List.flatMap_cons]

theorem lines_ended (h : ∀ l ∈ ls, '\n' ∉ l) : lines (ended ls) = ls.map dropReturn := by
  have hpieces : ls ++ [[]] = pieces '\n' (ended ls) := by
    refine piecesOf_iff.1 ⟨by simp, ?_, joined_ended ls⟩
    exact List.forall_mem_append.2 ⟨h, by simp⟩
  rw [lines, ← hpieces]
  simp

/-- A line has no line feed of its own. -/
theorem not_mem_of_mem_lines (h : l ∈ lines cs) : '\n' ∉ l := by
  have hpiece {p : List Char} (hp : p ∈ pieces '\n' cs) : '\n' ∉ p := not_mem_of_mem_pieces p hp
  have hended : ∀ l ∈ (pieces '\n' cs).dropLast.map dropReturn, '\n' ∉ l := by
    intro l hl hmem
    obtain ⟨p, hp, rfl⟩ := List.mem_map.1 hl
    exact hpiece (List.dropLast_subset _ hp) ((dropReturn_sublist p).subset hmem)
  rw [lines] at h
  split at h
  · exact hended l h
  · exact hended l h
  · next rest _ hlast =>
    rcases List.mem_append.1 h with h | h
    · exact hended l h
    · rw [List.mem_singleton.1 h]
      exact hpiece (List.mem_of_getLast? hlast)

end QuadIndex.Text
