import QuadIndex.Index.Basic
import QuadIndex.Proofs.Text.Utf8

/-! # Keys sort as the tuples they hold

A separator sorts before every character that may follow in a component, and the boundary after
all of them. -/

namespace QuadIndex

/-! ## Separated text -/

theorem isReserved_eq_false_iff {value : String} :
    isReserved value = false ↔ '\x00' ∉ value.toList ∧ boundary ∉ value.toList := by
  simp only [isReserved, List.any_eq_false, Bool.or_eq_true, decide_eq_true_eq, not_or]
  constructor
  · exact fun h => ⟨fun hc => (h _ hc).1 rfl, fun hc => (h _ hc).2 rfl⟩
  · rintro ⟨hn, hb⟩ c hc
    exact ⟨fun he => hn (he ▸ hc), fun he => hb (he ▸ hc)⟩

theorem nul_lt {c : Char} (h : c ≠ '\x00') : '\x00' < c := by
  rw [Char.lt_def, UInt32.lt_iff_toNat_lt]
  have hn : c.toNat ≠ 0 := fun he => h (Char.toNat_inj.1 he)
  exact Nat.pos_of_ne_zero hn

theorem lt_boundary {c : Char} (h : c ≠ boundary) : c < boundary := by
  have hv := Text.Utf8.toNat_valid c
  have hb : boundary.toNat = 0x10FFFF := by decide
  have hn : c.toNat ≠ boundary.toNat := fun he => h (Char.toNat_inj.1 he)
  rw [Char.lt_def, UInt32.lt_iff_toNat_lt]
  change c.toNat < boundary.toNat
  omega

/-- Texts that a NUL ends are compared as texts first, and by what follows only if they agree. -/
theorem append_nul_lt_iff {us vs : List Char} (hu : '\x00' ∉ us) (hv : '\x00' ∉ vs)
    (xs ys : List Char) :
    us ++ '\x00' :: xs < vs ++ '\x00' :: ys ↔ us < vs ∨ us = vs ∧ xs < ys := by
  induction us generalizing vs with
  | nil =>
      cases vs with
      | nil => simp
      | cons v vs =>
          have h0 : '\x00' < v := nul_lt (List.ne_of_not_mem_cons hv).symm
          simp [List.cons_lt_cons_iff, h0]
  | cons u us ih =>
      have hu' := List.not_mem_of_not_mem_cons hu
      have h0 : '\x00' < u := nul_lt (List.ne_of_not_mem_cons hu).symm
      cases vs with
      | nil =>
          have hne : u ≠ '\x00' := (List.ne_of_not_mem_cons hu).symm
          simp [List.cons_lt_cons_iff, Char.lt_asymm h0, hne]
      | cons v vs =>
          have hv' := List.not_mem_of_not_mem_cons hv
          rw [List.cons_append, List.cons_append, List.cons_lt_cons_iff, ih hu' hv',
            Lex.step_iff, List.cons_lt_cons_iff, List.cons.injEq]

namespace Index

/-- The characters of a text within a key, with the separator that ends it. -/
def spaced (text : String) : List Char := text.toList ++ separator.toList

theorem spaced_append_lt_iff {u v : String} (hu : isReserved u = false)
    (hv : isReserved v = false) (xs ys : List Char) :
    spaced u ++ xs < spaced v ++ ys ↔ u < v ∨ u = v ∧ xs < ys := by
  have hs : separator.toList = ['\x00', '\x00'] := by decide
  have h := append_nul_lt_iff (isReserved_eq_false_iff.1 hu).1 (isReserved_eq_false_iff.1 hv).1
    ('\x00' :: xs) ('\x00' :: ys)
  rw [List.cons_lt_cons_self, String.toList_inj] at h
  rw [spaced, spaced, hs, List.append_assoc, List.append_assoc]
  exact h

/-- Components of equal number are compared as tuples, and what follows them only breaks ties. -/
theorem flatMap_spaced_append_lt_iff {us vs : List String} (hl : us.length = vs.length)
    (hu : ∀ u ∈ us, isReserved u = false) (hv : ∀ v ∈ vs, isReserved v = false)
    (xs ys : List Char) :
    us.flatMap spaced ++ xs < vs.flatMap spaced ++ ys ↔ us < vs ∨ us = vs ∧ xs < ys := by
  induction us generalizing vs with
  | nil =>
      have hn : vs = [] := List.length_eq_zero_iff.1 hl.symm
      simp [hn]
  | cons u us ih =>
      cases vs with
      | nil => simp at hl
      | cons v vs =>
          have ih := ih (Nat.succ.inj hl) (fun w hw => hu w (List.mem_cons_of_mem u hw))
            (fun w hw => hv w (List.mem_cons_of_mem v hw))
          rw [List.flatMap_cons, List.flatMap_cons, List.append_assoc, List.append_assoc,
            spaced_append_lt_iff (hu u List.mem_cons_self) (hv v List.mem_cons_self), ih,
            Lex.step_iff, List.cons_lt_cons_iff, List.cons.injEq]

/-! ## Keys -/

variable {i j : Index} {p q : Quad}

theorem component_eq (text : String) :
    component text = (spaced text).flatMap String.utf8EncodeChar := by
  rw [component, spaced, List.flatMap_append]
  rfl

theorem flatMap_component (texts : List String) :
    texts.flatMap component = (texts.flatMap spaced).flatMap String.utf8EncodeChar := by
  induction texts with
  | nil => rfl
  | cons t ts ih =>
      rw [List.flatMap_cons, List.flatMap_cons, List.flatMap_append, component_eq, ih]

/-- A key is the encoding of its name, its components and its suffix, taken as one text. -/
theorem boundKey_eq (i : Index) (cs : List String) (suffix : String) :
    i.boundKey cs suffix =
      (spaced i.name ++ (cs.flatMap spaced ++ suffix.toList)).flatMap String.utf8EncodeChar := by
  rw [boundKey, keyStart, component_eq, flatMap_component, List.flatMap_append,
    List.flatMap_append, List.append_assoc]
  rfl

/-- Keys under different names are apart, whatever else they hold. -/
theorem boundKey_lt_of_name_lt (h : i.name < j.name) (cs ds : List String) (s t : String) :
    i.boundKey cs s < j.boundKey ds t := by
  rw [boundKey_eq, boundKey_eq, Text.Utf8.flatMap_encodeChar_lt_iff,
    spaced_append_lt_iff i.name_free j.name_free]
  exact .inl h

theorem boundKey_lt_iff (i : Index) (cs ds : List String) (s t : String) :
    i.boundKey cs s < i.boundKey ds t ↔
      cs.flatMap spaced ++ s.toList < ds.flatMap spaced ++ t.toList := by
  rw [boundKey_eq, boundKey_eq, Text.Utf8.flatMap_encodeChar_lt_iff, Lex.append_lt_append_iff]

theorem length_tuple (i : Index) (q : Quad) : (i.tuple q).length = 4 := by
  rw [tuple, Quad.tuple, List.length_map, i.length_terms]

theorem free_of_mem_tuple (hq : q.fault? = none) {v : String} (hv : v ∈ i.tuple q) :
    isReserved v = false := by
  obtain ⟨t, -, rfl⟩ := List.mem_map.1 hv
  exact (Quad.fault?_eq_none_iff.1 hq t).2

theorem eq_of_tuple_eq (h : i.tuple p = i.tuple q) : p = q :=
  Quad.ext_get fun t => List.map_inj_left.1 h t (i.covers t)

theorem key_lt_key_iff (hp : p.fault? = none) (hq : q.fault? = none) :
    i.key p < i.key q ↔ i.tuple p < i.tuple q := by
  have h := flatMap_spaced_append_lt_iff (by rw [length_tuple, length_tuple])
    (fun _ => free_of_mem_tuple (i := i) hp) (fun _ => free_of_mem_tuple (i := i) hq) [] []
  simpa [key, boundKey_lt_iff] using h

theorem key_inj (hp : p.fault? = none) (hq : q.fault? = none) (h : i.key p = i.key q) :
    p = q := by
  rcases Std.lt_trichotomy (i.tuple p) (i.tuple q) with ht | ht | ht
  · exact absurd h (Std.ne_of_lt ((key_lt_key_iff hp hq).2 ht))
  · exact eq_of_tuple_eq ht
  · exact absurd h.symm (Std.ne_of_lt ((key_lt_key_iff hq hp).2 ht))

theorem name_eq_of_key_eq (h : i.key p = j.key q) : i.name = j.name := by
  rcases Std.lt_trichotomy i.name j.name with hn | hn | hn
  · exact absurd h (Std.ne_of_lt (boundKey_lt_of_name_lt hn _ _ _ _))
  · exact hn
  · exact absurd h.symm (Std.ne_of_lt (boundKey_lt_of_name_lt hn _ _ _ _))

/-- The keys of an index sort as the tuples of their quads, so no two quads share one. Indexes under
different names have no key in common, and all keys of one come before those of the other. -/
theorem keys_sort_as_tuples :
    (∀ (i : Index) (p q : Quad), p.fault? = none → q.fault? = none →
      (i.key p < i.key q ↔ i.tuple p < i.tuple q) ∧ (i.key p = i.key q → p = q)) ∧
    ∀ i j : Index, i.name ≠ j.name →
      (∀ p q, i.key p ≠ j.key q) ∧
        ((∀ p q, i.key p < j.key q) ∨ ∀ p q, j.key q < i.key p) := by
  constructor
  · intro i p q hp hq
    exact ⟨key_lt_key_iff hp hq, key_inj hp hq⟩
  · intro i j hne
    constructor
    · intro p q h
      exact hne (name_eq_of_key_eq h)
    · rcases Std.lt_trichotomy i.name j.name with hn | hn | hn
      · exact .inl fun p q => boundKey_lt_of_name_lt hn _ _ _ _
      · exact absurd hn hne
      · exact .inr fun p q => boundKey_lt_of_name_lt hn _ _ _ _

/-- A value sorts before its extension by the smallest character that may follow it, and the keys
of an index are not those of one whose name goes on from its name. -/
theorem keys_sort_as_tuples_extended :
    Quad.fault? ⟨"s", "", "o", "g"⟩ = none ∧ Quad.fault? ⟨"s\x01", "", "", "g"⟩ = none ∧
    key ⟨"A", Term.all, by decide, by decide, rfl, Term.mem_all⟩ ⟨"s", "", "o", "g"⟩ <
      key ⟨"A", Term.all, by decide, by decide, rfl, Term.mem_all⟩ ⟨"s\x01", "", "", "g"⟩ ∧
    key ⟨"A", Term.all, by decide, by decide, rfl, Term.mem_all⟩ ⟨"s", "", "o", "g"⟩ ≠
      key ⟨"AB", Term.all, by decide, by decide, rfl, Term.mem_all⟩ ⟨"s", "", "o", "g"⟩ := by
  have hp : Quad.fault? ⟨"s", "", "o", "g"⟩ = none := by decide
  have hq : Quad.fault? ⟨"s\x01", "", "", "g"⟩ = none := by decide
  refine ⟨hp, hq, ?_, ?_⟩
  · exact (keys_sort_as_tuples.1 _ _ _ hp hq).1.2 (by decide)
  · exact (keys_sort_as_tuples.2 _ _ (by decide)).1 _ _

/-! ## Keys against the ends of ranges -/

/-- The values of a quad at as many leading places as there are components. -/
def leading (i : Index) (q : Quad) (cs : List String) : List String :=
  (i.tuple q).take cs.length

theorem length_leading {cs : List String} (hl : cs.length ≤ 4) :
    (i.leading q cs).length = cs.length := by
  rw [leading, List.length_take, length_tuple, Nat.min_eq_left hl]

theorem flatMap_tuple (i : Index) (q : Quad) (cs : List String) :
    (i.tuple q).flatMap spaced =
      (i.leading q cs).flatMap spaced ++ ((i.tuple q).drop cs.length).flatMap spaced := by
  rw [leading, ← List.flatMap_append, List.take_append_drop]

variable {cs : List String}

theorem key_lt_boundKey_iff (hq : q.fault? = none) (hcs : ∀ c ∈ cs, isReserved c = false)
    (hl : cs.length ≤ 4) : i.key q < i.boundKey cs "" ↔ i.leading q cs < cs := by
  rw [key, boundKey_lt_iff, flatMap_tuple i q cs, List.append_assoc,
    flatMap_spaced_append_lt_iff (length_leading hl)
      (fun _ hv => free_of_mem_tuple hq (List.mem_of_mem_take hv)) hcs]
  simp

theorem spaced_eq_cons {v : String} (hv : isReserved v = false) :
    ∃ c cs, spaced v = c :: cs ∧ c < boundary := by
  rw [spaced]
  cases hc : v.toList with
  | nil => exact ⟨'\x00', ['\x00'], by decide, by decide⟩
  | cons c cs =>
      have hb := (isReserved_eq_false_iff.1 hv).2
      rw [hc] at hb
      exact ⟨c, cs ++ separator.toList, rfl, lt_boundary (List.ne_of_not_mem_cons hb).symm⟩

/-- What follows the leading values of a key stays before the boundary. -/
theorem flatMap_spaced_lt_boundary {vs : List String} (hv : ∀ v ∈ vs, isReserved v = false) :
    vs.flatMap spaced < [boundary] := by
  cases vs with
  | nil => simp
  | cons v vs =>
      obtain ⟨c, cs, hc, hlt⟩ := spaced_eq_cons (hv v List.mem_cons_self)
      rw [List.flatMap_cons, hc]
      simp [List.cons_lt_cons_iff, hlt]

theorem key_lt_boundKey_boundary_iff (hq : q.fault? = none)
    (hcs : ∀ c ∈ cs, isReserved c = false) (hl : cs.length ≤ 4) :
    i.key q < i.boundKey cs (String.singleton boundary) ↔
      i.leading q cs < cs ∨ i.leading q cs = cs := by
  have hlt : ((i.tuple q).drop cs.length).flatMap spaced < [boundary] :=
    flatMap_spaced_lt_boundary fun _ hv => free_of_mem_tuple hq (List.mem_of_mem_drop hv)
  rw [key, boundKey_lt_iff, flatMap_tuple i q cs, List.append_assoc,
    flatMap_spaced_append_lt_iff (length_leading hl)
      (fun _ hv => free_of_mem_tuple hq (List.mem_of_mem_take hv)) hcs]
  simp [hlt]

theorem boundKey_boundary_lt_key_iff (hq : q.fault? = none)
    (hcs : ∀ c ∈ cs, isReserved c = false) (hl : cs.length ≤ 4) :
    i.boundKey cs (String.singleton boundary) < i.key q ↔ cs < i.leading q cs := by
  have hnot : ¬ [boundary] < ((i.tuple q).drop cs.length).flatMap spaced :=
    List.lt_asymm (flatMap_spaced_lt_boundary fun _ hv =>
      free_of_mem_tuple hq (List.mem_of_mem_drop hv))
  rw [key, boundKey_lt_iff, flatMap_tuple i q cs, List.append_assoc,
    flatMap_spaced_append_lt_iff (length_leading hl).symm hcs
      (fun _ hv => free_of_mem_tuple hq (List.mem_of_mem_take hv))]
  simp [hnot]

end Index
end QuadIndex
