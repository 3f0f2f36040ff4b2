import QuadIndex.Console.Listing
import QuadIndex.Proofs.Record.RoundTrip
import QuadIndex.Proofs.Text.Lines

/-! # Listings that are read back

A listing keeps its quads unless a field breaks a line, a line says nothing, or a carriage return at
the end of a line goes with the line feed. -/

namespace QuadIndex

namespace Quad

variable {q : Quad}

/-! ## Quads on a line -/

/-- No field breaks the line or adds another field to it. -/
def Unbroken (q : Quad) : Prop := ∀ t, '\t' ∉ (q.get t).toList ∧ '\n' ∉ (q.get t).toList

/-- A listing can hold the quad: it stays on its line, and the line does not end with a carriage
return, does not look like a comment and is not blank. -/
structure Listable (q : Quad) : Prop where
  unbroken : q.Unbroken
  kept : q.context.toList.getLast? ≠ some '\r'
  uncommented : q.subject.toList.head? ≠ some '#'
  visible : ∃ t, ∃ c ∈ (q.get t).toList, Text.isBlank c = false

theorem toList_line (q : Quad) : q.line.toList =
    q.subject.toList ++ '\t' :: (q.predicate.toList ++ '\t' :: (q.object.toList ++
      '\t' :: q.context.toList)) := by
  simp [line, tuple, Term.all, get]

theorem mem_line_iff {c : Char} : c ∈ q.line.toList ↔ c = '\t' ∨ ∃ t, c ∈ (q.get t).toList := by
  rw [toList_line]
  simp only [List.mem_append, List.mem_cons]
  constructor
  · rintro (hs | ht | hp | ht | ho | ht | hc)
    · exact .inr ⟨.subject, hs⟩
    · exact .inl ht
    · exact .inr ⟨.predicate, hp⟩
    · exact .inl ht
    · exact .inr ⟨.object, ho⟩
    · exact .inl ht
    · exact .inr ⟨.context, hc⟩
  · rintro (ht | ⟨t, ht⟩)
    · exact .inr (.inl ht)
    · cases t with
      | subject => exact .inl ht
      | predicate => exact .inr (.inr (.inl ht))
      | object => exact .inr (.inr (.inr (.inr (.inl ht))))
      | context => exact .inr (.inr (.inr (.inr (.inr (.inr ht)))))

/-- The quad as it is found in a text: a carriage return at the end of its line goes with the line
feed. -/
def unreturned (q : Quad) : Quad :=
  { q with context := String.ofList (Text.dropReturn q.context.toList) }

theorem toList_line_unreturned (q : Quad) :
    q.unreturned.line.toList = Text.dropReturn q.line.toList := by
  have htab : '\t' ≠ '\r' := by decide
  rw [toList_line, toList_line, Text.dropReturn_append_cons htab,
    Text.dropReturn_append_cons htab, Text.dropReturn_append_cons htab]
  simp [unreturned]

theorem unreturned_eq_self_iff : q.unreturned = q ↔ q.context.toList.getLast? ≠ some '\r' := by
  have hcontext : q.unreturned = q ↔
      String.ofList (Text.dropReturn q.context.toList) = q.context := by
    cases q
    simp [unreturned]
  rw [hcontext, ← String.toList_inj, String.toList_ofList, Text.dropReturn_eq_self_iff]

theorem Unbroken.unreturned (h : q.Unbroken) : q.unreturned.Unbroken := by
  intro t
  have hsub : (q.unreturned.get t).toList ⊆ (q.get t).toList := by
    cases t with
    | context =>
        have hcontext : (q.unreturned.get .context).toList = Text.dropReturn q.context.toList :=
          String.toList_ofList
        rw [hcontext]
        exact (Text.dropReturn_sublist _).subset
    | _ => exact List.Subset.refl _
  exact ⟨fun htab => (h t).1 (hsub htab), fun hfeed => (h t).2 (hsub hfeed)⟩

end Quad

namespace Listing

open Quad

variable {q : Quad} {qs : List Quad}

/-- A line is skipped if all its fields are blank, or its first field begins like a comment. -/
theorem isSkipped_line_eq_false_iff : isSkipped q.line.toList = false ↔
    (∃ t, ∃ c ∈ (q.get t).toList, Text.isBlank c = false) ∧
      q.subject.toList.head? ≠ some '#' := by
  have hblank : q.line.toList.all Text.isBlank = false ↔
      ∃ t, ∃ c ∈ (q.get t).toList, Text.isBlank c = false := by
    rw [List.all_eq_false]
    constructor
    · rintro ⟨c, hmem, hc⟩
      rcases mem_line_iff.1 hmem with rfl | ⟨t, ht⟩
      · exact absurd rfl hc
      · exact ⟨t, c, ht, eq_false_of_ne_true hc⟩
    · rintro ⟨t, c, hmem, hc⟩
      exact ⟨c, mem_line_iff.2 (.inr ⟨t, hmem⟩), ne_true_of_eq_false hc⟩
  have hhead : q.line.toList.head? = some '#' ↔ q.subject.toList.head? = some '#' := by
    rw [toList_line]
    cases q.subject.toList <;> simp
  rw [isSkipped, Bool.or_eq_false_iff, hblank, decide_eq_false_iff_not, hhead]

/-! ## Reading what was written -/

theorem pieces_line (h : q.Unbroken) :
    Text.pieces '\t' q.line.toList = (q.tuple Term.all).map String.toList := by
  refine (Text.piecesOf_iff.1 ⟨by simp [tuple, Term.all], ?_, ?_⟩).symm
  · intro p hp
    obtain ⟨v, hv, rfl⟩ := List.mem_map.1 hp
    obtain ⟨t, -, rfl⟩ := List.mem_map.1 hv
    exact (h t).1
  · rw [line, String.toList_intercalate]
    rfl

theorem readLine_line (h : q.Unbroken) (number : Nat) :
    readLine number q.line.toList = .ok q := by
  have hfields : (Text.pieces '\t' q.line.toList).map String.ofList =
      [q.subject, q.predicate, q.object, q.context] := by
    rw [pieces_line h]
    simp [tuple, Term.all, Quad.get]
  rw [readLine, hfields]

/-- Of lines that were written for quads, those that say nothing are skipped. -/
theorem readLines_lines (h : ∀ q ∈ qs, q.Unbroken) (number : Nat) :
    readLines number (qs.map fun q => q.line.toList) =
      .ok (qs.filter fun q => !isSkipped q.line.toList) := by
  induction qs generalizing number with
  | nil => rfl
  | cons q qs ih =>
      obtain ⟨hq, hqs⟩ := List.forall_mem_cons.1 h
      rw [List.map_cons, readLines, ih hqs]
      cases hs : isSkipped q.line.toList with
      | true => simp [hs]
      | false =>
          rw [readLine_line hq]
          simp [hs, bind, Except.bind, pure, Except.pure]

theorem toList_render (qs : List Quad) :
    (render qs).toList = Text.ended (qs.map fun q => q.line.toList) := by
  simp [render, Text.ended, List.flatMap_map]

theorem parse_render (h : ∀ q ∈ qs, q.Unbroken) :
    parse (render qs) = .ok ((qs.map unreturned).filter fun q => !isSkipped q.line.toList) := by
  have hfeed : ∀ l ∈ qs.map fun q => q.line.toList, '\n' ∉ l := by
    intro l hl hmem
    obtain ⟨q, hq, rfl⟩ := List.mem_map.1 hl
    rcases mem_line_iff.1 hmem with htab | ⟨t, ht⟩
    · exact absurd htab (by decide)
    · exact (h q hq t).2 ht
  have hunbroken : ∀ q ∈ qs.map unreturned, q.Unbroken :=
    List.forall_mem_map.2 fun q hq => (h q hq).unreturned
  have hlines : Text.lines (render qs).toList = (qs.map unreturned).map fun q => q.line.toList := by
    rw [toList_render, Text.lines_ended hfeed]
    simp [toList_line_unreturned]
  rw [parse, hlines, readLines_lines hunbroken]

/-! ## What can be read -/

/-- A field of a line that is read is one of its pieces, or a missing context. -/
theorem field_of_readLine {number : Nat} {l : List Char} (h : readLine number l = .ok q)
    (t : Term) : (q.get t).toList ∈ Text.pieces '\t' l ∨ q.get t = "" := by
  have hpiece {v : String} (hv : v ∈ (Text.pieces '\t' l).map String.ofList) :
      v.toList ∈ Text.pieces '\t' l := by
    obtain ⟨p, hp, rfl⟩ := List.mem_map.1 hv
    rwa [String.toList_ofList]
  rw [readLine] at h
  split at h
  · next s p o hfields =>
    obtain rfl := Except.ok.inj h
    rw [hfields] at hpiece
    cases t with
    | context => exact .inr rfl
    | _ => exact .inl (hpiece (by simp [Quad.get]))
  · next s p o c hfields =>
    obtain rfl := Except.ok.inj h
    rw [hfields] at hpiece
    cases t <;> exact .inl (hpiece (by simp [Quad.get]))
  · contradiction

theorem exists_line_of_readLines {number : Nat} {ls : List (List Char)}
    (h : readLines number ls = .ok qs) : ∀ q ∈ qs, ∃ l ∈ ls, ∃ n, readLine n l = .ok q := by
  induction ls generalizing number qs with
  | nil =>
      obtain rfl := Except.ok.inj h
      simp
  | cons l ls ih =>
      have hlater {qs : List Quad} {n : Nat} (hrest : readLines n ls = .ok qs) :
          ∀ q ∈ qs, ∃ k ∈ l :: ls, ∃ n, readLine n k = .ok q := by
        intro q hq
        obtain ⟨k, hk, hread⟩ := ih hrest q hq
        exact ⟨k, List.mem_cons_of_mem l hk, hread⟩
      rw [readLines] at h
      split at h
      · exact hlater h
      · simp only [bind_eq_ok_iff, pure, Except.pure, Except.ok.injEq] at h
        obtain ⟨q, hq, qs, hrest, rfl⟩ := h
        exact List.forall_mem_cons.2 ⟨⟨l, List.mem_cons_self, number, hq⟩, hlater hrest⟩

/-- Whatever the text, no quad that is read from it breaks a line. -/
theorem unbroken_of_parse {text : String} (h : parse text = .ok qs) : ∀ q ∈ qs, q.Unbroken := by
  intro q hq t
  obtain ⟨l, hl, n, hread⟩ := exists_line_of_readLines h q hq
  rcases field_of_readLine hread t with hpiece | hempty
  · refine ⟨Text.not_mem_of_mem_pieces _ hpiece, fun hmem => ?_⟩
    exact Text.not_mem_of_mem_lines hl (Text.subset_of_mem_pieces _ hpiece hmem)
  · simp [hempty]

/-! ## Listings without loss -/

theorem filter_map_eq_self_iff {α : Type} {f : α → α} {p : α → Bool} {xs : List α} :
    (xs.map f).filter p = xs ↔ ∀ x ∈ xs, f x = x ∧ p x = true := by
  constructor
  · intro h
    have hall : ∀ x ∈ xs.map f, p x = true := by
      rw [← List.length_filter_eq_length_iff, h, List.length_map]
    rw [List.filter_eq_self.2 hall] at h
    have hfixed : ∀ x ∈ xs, f x = x := List.map_inj_left.1 (h.trans (List.map_id xs).symm)
    exact fun x hx => ⟨hfixed x hx, hall x (List.mem_map.2 ⟨x, hx, hfixed x hx⟩)⟩
  · intro h
    have hmap : xs.map f = xs :=
      (List.map_inj_left.2 fun x hx => (h x hx).1).trans (List.map_id xs)
    rw [hmap]
    exact List.filter_eq_self.2 fun x hx => (h x hx).2

theorem listable_iff (h : q.Unbroken) :
    q.unreturned = q ∧ (!isSkipped q.line.toList) = true ↔ q.Listable := by
  rw [unreturned_eq_self_iff, Bool.not_eq_true', isSkipped_line_eq_false_iff]
  constructor
  · rintro ⟨hkept, hvisible, hcomment⟩
    exact ⟨h, hkept, hcomment, hvisible⟩
  · intro hl
    exact ⟨hl.kept, hl.visible, hl.uncommented⟩

/-- A listing is read back as the quads that it was written from, in their order, exactly if it can
hold each of them. -/
theorem parse_render_eq_ok_iff (qs : List Quad) :
    parse (render qs) = .ok qs ↔ ∀ q ∈ qs, q.Listable := by
  constructor
  · intro h q hq
    -- The quads were read from a text, so none of them breaks a line.
    have hunbroken : ∀ q ∈ qs, q.Unbroken := unbroken_of_parse h
    rw [parse_render hunbroken, Except.ok.injEq, filter_map_eq_self_iff] at h
    exact (listable_iff (hunbroken q hq)).1 (h q hq)
  · intro h
    rw [parse_render fun q hq => (h q hq).unbroken, Except.ok.injEq, filter_map_eq_self_iff]
    exact fun q hq => (listable_iff (h q hq).unbroken).2 (h q hq)

/-- Empty fields, blanks at both ends and a carriage return within the line stay. -/
example : parse (render [⟨"", " p", "o\r", ""⟩, ⟨" #", "", "", " "⟩]) =
    .ok [⟨"", " p", "o\r", ""⟩, ⟨" #", "", "", " "⟩] := by
  cbv

end Listing
end QuadIndex
