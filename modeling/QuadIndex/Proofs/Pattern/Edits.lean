import QuadIndex.Proofs.Pattern.Pushes
import QuadIndex.Proofs.Pattern.Reading

/-! # Patterns along their edits

A pattern is built by setting and removing selectors. What it holds after any edits can be told from
the edits alone: the last set of each place that was not removed since, in the order in which the
places were first set since their last removals. -/

namespace QuadIndex.Pattern

/-! ## One edit -/

/-- What can be done to a pattern. -/
inductive Edit where
  | set (t : Term) (s : Selector)
  | remove (t : Term)

namespace Edit

def term : Edit → Term
  | set t _ | remove t => t

theorem eq_or_term_ne (e : Edit) (t : Term) :
    (∃ s, e = .set t s) ∨ e = .remove t ∨ e.term ≠ t := by
  by_cases h : e.term = t
  · subst h
    cases e with
    | set u s => exact .inl ⟨s, rfl⟩
    | remove u => exact .inr (.inl rfl)
  · exact .inr (.inr h)

end Edit

/-- Carries out an edit, and gives the selector that a removal gives. -/
def perform (p : Pattern) : Edit → Option Selector × Pattern
  | .set t s => (none, p.set t s)
  | .remove t => p.remove t

/-- The empty pattern after some edits. -/
def ofEdits (es : List Edit) : Pattern := es.foldl (fun p e => (p.perform e).2) empty

variable {p : Pattern} {es : List Edit} {e : Edit} {s : Selector} {t u : Term} {m n : Nat}

theorem remove_eq (p : Pattern) (t : Term) : p.remove t = (p.get? t, p.erase t) := by
  rw [remove]
  split
  · next h =>
    have hfind : p.entries.find? (fun e => e.1 = t) = none := by
      rw [List.find?_eq_none]
      simpa using List.findIdx?_eq_none_iff.1 h
    have herase : p.entries.eraseP (fun e => e.1 = t) = p.entries := by
      rw [List.eraseP_eq_eraseIdx, h]
    simp only [get?, hfind, erase, herase, Option.map_none]
  · next i h =>
    obtain ⟨hi, hfound, hbefore⟩ := List.findIdx?_eq_some_iff_getElem.1 h
    have hfind : p.entries.find? (fun e => e.1 = t) = some p.entries[i] :=
      List.find?_eq_some_iff_getElem.2 ⟨hfound, i, hi, rfl, by simpa using hbefore⟩
    have herase : p.entries.eraseP (fun e => e.1 = t) = p.entries.eraseIdx i := by
      rw [List.eraseP_eq_eraseIdx, h]
    simp only [get?, hfind, erase, herase, List.getElem?_eq_getElem hi, Option.map_some]

theorem get?_eq_none_iff : p.get? t = none ↔ t ∉ p.entries.map Prod.fst := by
  rw [← get?_isSome_iff, Bool.not_eq_true, Option.isSome_eq_false_iff, Option.isNone_iff_eq_none]

theorem terms_set (p : Pattern) (t : Term) (s : Selector) :
    (p.set t s).entries.map Prod.fst =
      if t ∈ p.entries.map Prod.fst then p.entries.map Prod.fst
      else p.entries.map Prod.fst ++ [t] :=
  map_fst_replace t s p.entries

theorem terms_erase (p : Pattern) (t : Term) :
    (p.erase t).entries.map Prod.fst = (p.entries.map Prod.fst).erase t := by
  have heq : ((t == ·) ∘ Prod.fst : Term × Selector → Bool) = fun e => decide (e.1 = t) := by
    funext e
    exact decide_eq_decide.2 eq_comm
  rw [List.erase_eq_eraseP, List.eraseP_map, heq]
  rfl

theorem get?_set (p : Pattern) (t u : Term) (s : Selector) :
    (p.set t s).get? u = if t = u then some s else p.get? u := by
  obtain ⟨es, hes⟩ := p
  change ((replace t s es).find? _).map _ = if t = u then some s else (es.find? _).map _
  clear hes
  induction es with
  | nil => by_cases h : t = u <;> simp [replace, h]
  | cons e es ih =>
      rw [replace]
      split
      · next he =>
        by_cases h : t = u
        · simp [h]
        · simp [h, he]
      · next he =>
        by_cases hu : e.1 = u
        · have h : ¬ t = u := fun h => he (hu.trans h.symm)
          simp [hu, h]
        · simpa [hu] using ih

theorem get?_erase (p : Pattern) (t u : Term) :
    (p.erase t).get? u = if t = u then none else p.get? u := by
  split
  · next h =>
    rw [get?_eq_none_iff, terms_erase, ← h]
    exact p.distinct.not_mem_erase
  · next h =>
    obtain ⟨es, hes⟩ := p
    change ((es.eraseP _).find? _).map _ = (es.find? _).map _
    clear hes
    induction es with
    | nil => rfl
    | cons e es ih =>
        by_cases he : e.1 = t
        · have hu : ¬ e.1 = u := fun hu => h (he.symm.trans hu)
          simp [he, h]
        · by_cases hu : e.1 = u
          · simp [hu, Ne.symm h]
          · simpa [he, hu] using ih

/-! ## What the edits say -/

/-- The last edit of the place sets it to the selector. -/
def LastSet (es : List Edit) (t : Term) (s : Selector) : Prop :=
  ∃ before after, es = before ++ .set t s :: after ∧ ∀ e ∈ after, e.term ≠ t

/-- Whenever the place was set, it was removed later. -/
def Undone (es : List Edit) (t : Term) : Prop :=
  ∀ before s after, es = before ++ .set t s :: after → .remove t ∈ after

/-- The edit with this number was the first to set the place since it was last removed. -/
def FirstSet (es : List Edit) (t : Term) (n : Nat) : Prop :=
  ∃ before s after, es = before ++ .set t s :: after ∧ before.length = n ∧
    Undone before t ∧ .remove t ∉ after

/-- An edit among some edits and one more is the last one or one of the others. -/
theorem concat_eq_iff {x : Edit} {before after : List Edit} :
    es ++ [e] = before ++ x :: after ↔
      (es = before ∧ e = x ∧ after = []) ∨
        ∃ later, after = later ++ [e] ∧ es = before ++ x :: later := by
  rcases after.eq_nil_or_concat with rfl | ⟨later, y, rfl⟩
  · rw [List.append_singleton_inj]
    simp
  · have hassoc : before ++ x :: (later ++ [y]) = (before ++ x :: later) ++ [y] := by simp
    rw [List.concat_eq_append, hassoc, List.append_singleton_inj]
    constructor
    · rintro ⟨hes, rfl⟩
      exact .inr ⟨later, rfl, hes⟩
    · rintro (⟨-, -, hnil⟩ | ⟨later', hlater, hes⟩)
      · simp at hnil
      · obtain ⟨rfl, rfl⟩ := List.append_singleton_inj.1 hlater
        exact ⟨hes, rfl⟩

theorem lastSet_concat_iff :
    LastSet (es ++ [e]) t s ↔ e = .set t s ∨ e.term ≠ t ∧ LastSet es t s := by
  simp only [LastSet, concat_eq_iff]
  constructor
  · rintro ⟨before, after, ⟨-, he, -⟩ | ⟨later, rfl, hes⟩, hafter⟩
    · exact .inl he
    · obtain ⟨hlater, he⟩ := List.forall_mem_append.1 hafter
      exact .inr ⟨he e List.mem_cons_self, before, later, hes, hlater⟩
  · rintro (rfl | ⟨he, before, after, hes, hafter⟩)
    · exact ⟨es, [], .inl ⟨rfl, rfl, rfl⟩, nofun⟩
    · exact ⟨before, after ++ [e], .inr ⟨after, rfl, hes⟩,
        List.forall_mem_append.2 ⟨hafter, by simpa using he⟩⟩

theorem undone_concat_iff :
    Undone (es ++ [e]) t ↔ e = .remove t ∨ e.term ≠ t ∧ Undone es t := by
  simp only [Undone, concat_eq_iff]
  constructor
  · intro h
    rcases e.eq_or_term_ne t with ⟨s, rfl⟩ | rfl | he
    · exact absurd (h es s [] (.inl ⟨rfl, rfl, rfl⟩)) List.not_mem_nil
    · exact .inl rfl
    · refine .inr ⟨he, fun before s later hes => ?_⟩
      have hmem := h before s (later ++ [e]) (.inr ⟨later, rfl, hes⟩)
      rcases List.mem_append.1 hmem with hmem | hmem
      · exact hmem
      · exact absurd (List.mem_singleton.1 hmem ▸ rfl) he
  · rintro h before s after (⟨-, rfl, rfl⟩ | ⟨later, rfl, hes⟩)
    · rcases h with h | h
      · cases h
      · exact absurd rfl h.1
    · rcases h with rfl | h
      · exact List.mem_append_right later List.mem_cons_self
      · exact List.mem_append_left [e] (h.2 before s later hes)

theorem firstSet_concat_iff :
    FirstSet (es ++ [e]) t n ↔
      (es.length = n ∧ Undone es t ∧ ∃ s, e = .set t s) ∨ e ≠ .remove t ∧ FirstSet es t n := by
  simp only [FirstSet, concat_eq_iff]
  constructor
  · rintro ⟨before, s, after, ⟨rfl, he, -⟩ | ⟨later, rfl, hes⟩, hn, hundone, hafter⟩
    · exact .inl ⟨hn, hundone, s, he⟩
    · rw [List.mem_append, not_or, List.mem_singleton] at hafter
      exact .inr ⟨Ne.symm hafter.2, before, s, later, hes, hn, hundone, hafter.1⟩
  · rintro (⟨hn, hundone, s, rfl⟩ | ⟨he, before, s, after, hes, hn, hundone, hafter⟩)
    · exact ⟨es, s, [], .inl ⟨rfl, rfl, rfl⟩, hn, hundone, nofun⟩
    · refine ⟨before, s, after ++ [e], .inr ⟨after, rfl, hes⟩, hn, hundone, ?_⟩
      rw [List.mem_append, not_or, List.mem_singleton]
      exact ⟨hafter, Ne.symm he⟩

theorem FirstSet.lt_length (h : FirstSet es t n) : n < es.length := by
  obtain ⟨before, s, after, rfl, rfl, -⟩ := h
  rw [List.length_append, List.length_cons]
  omega

theorem exists_set_iff :
    ((∃ s, LastSet es t s) ↔ ¬ Undone es t) ∧ ((∃ n, FirstSet es t n) ↔ ¬ Undone es t) := by
  induction es using List.reverseRecOn with
  | nil => simp [LastSet, FirstSet, Undone]
  | append_singleton es e ih =>
      simp only [lastSet_concat_iff, firstSet_concat_iff, undone_concat_iff]
      rcases e.eq_or_term_ne t with ⟨s, rfl⟩ | rfl | he
      · refine ⟨by simp [Edit.term], ?_⟩
        by_cases hundone : Undone es t
        · simp [Edit.term, hundone]
        · simpa [Edit.term, hundone] using ih.2.2 hundone
      · simp [Edit.term]
      · have hset : ∀ s, e ≠ .set t s := fun s h => he (h ▸ rfl)
        have hremove : e ≠ .remove t := fun h => he (h ▸ rfl)
        simpa [he, hset, hremove] using ih

/-! ## Patterns follow their edits -/

/-- The pattern holds what the edits say. -/
structure Follows (es : List Edit) (p : Pattern) : Prop where
  get?_eq_some_iff : ∀ t s, p.get? t = some s ↔ LastSet es t s
  ordered : (p.entries.map Prod.fst).Pairwise fun t u =>
    ∀ m n, FirstSet es t m → FirstSet es u n → m < n

namespace Follows

theorem get?_eq_none_iff (h : Follows es p) (t : Term) : p.get? t = none ↔ Undone es t := by
  have hlast : (∃ s, p.get? t = some s) ↔ ¬ Undone es t := by
    simp only [h.get?_eq_some_iff, exists_set_iff]
  rw [← Option.ne_none_iff_exists'] at hlast
  exact not_iff_not.1 hlast

theorem mem_terms_iff (h : Follows es p) (t : Term) :
    t ∈ p.entries.map Prod.fst ↔ ∃ n, FirstSet es t n := by
  rw [exists_set_iff.2, ← h.get?_eq_none_iff, Pattern.get?_eq_none_iff, not_not]

/-- One more edit leaves the beginnings of the places that are set. -/
theorem firstSet_of_concat (h : Follows es p) (ht : t ∈ p.entries.map Prod.fst)
    (hn : FirstSet (es ++ [e]) t n) : FirstSet es t n := by
  rcases firstSet_concat_iff.1 hn with ⟨-, hundone, -⟩ | ⟨-, hn⟩
  · exact absurd ht (Pattern.get?_eq_none_iff.1 ((h.get?_eq_none_iff t).2 hundone))
  · exact hn

theorem ordered_concat (h : Follows es p) (e : Edit) :
    (p.entries.map Prod.fst).Pairwise fun t u =>
      ∀ m n, FirstSet (es ++ [e]) t m → FirstSet (es ++ [e]) u n → m < n :=
  h.ordered.imp_of_mem fun ht hu hlt m n hm hn =>
    hlt m n (h.firstSet_of_concat ht hm) (h.firstSet_of_concat hu hn)

theorem set (h : Follows es p) (t : Term) (s : Selector) :
    Follows (es ++ [.set t s]) (p.set t s) := by
  refine ⟨fun u r => ?_, ?_⟩
  · rw [get?_set, lastSet_concat_iff]
    by_cases hu : t = u
    · simp [Edit.term, hu]
    · simp [Edit.term, hu, h.get?_eq_some_iff]
  · rw [terms_set]
    split
    · exact h.ordered_concat _
    · next ht =>
      -- A place that was free comes last, and its beginning is the new edit.
      refine List.pairwise_append.2 ⟨h.ordered_concat _, List.pairwise_singleton _ _, ?_⟩
      intro u hu v hv m n hm hn
      obtain rfl := List.mem_singleton.1 hv
      have hbefore := (h.firstSet_of_concat hu hm).lt_length
      rcases firstSet_concat_iff.1 hn with ⟨rfl, -⟩ | ⟨-, hn⟩
      · exact hbefore
      · exact absurd ((h.mem_terms_iff v).2 ⟨n, hn⟩) ht

theorem erase (h : Follows es p) (t : Term) : Follows (es ++ [.remove t]) (p.erase t) := by
  refine ⟨fun u r => ?_, ?_⟩
  · rw [get?_erase, lastSet_concat_iff]
    by_cases hu : t = u
    · simp [Edit.term, hu]
    · simp [Edit.term, hu, h.get?_eq_some_iff]
  · rw [terms_erase]
    exact (h.ordered_concat _).sublist List.erase_sublist

theorem perform (h : Follows es p) (e : Edit) : Follows (es ++ [e]) (p.perform e).2 := by
  cases e with
  | set t s => exact h.set t s
  | remove t =>
      rw [Pattern.perform, remove_eq]
      exact h.erase t

end Follows

theorem follows_ofEdits (es : List Edit) : Follows es (ofEdits es) := by
  induction es using List.reverseRecOn with
  | nil => exact ⟨by simp [LastSet, ofEdits, get?, empty], List.Pairwise.nil⟩
  | append_singleton es e ih =>
      have hconcat : ofEdits (es ++ [e]) = ((ofEdits es).perform e).2 := List.foldl_concat ..
      rw [hconcat]
      exact ih.perform e

theorem fault?_of_ofText {text : String} (h : ofText text = .ok p) : p.fault? = none := by
  rw [ofText] at h
  split at h
  · contradiction
  · split at h
    · contradiction
    · next hfault =>
      obtain rfl := Except.ok.inj h
      exact hfault

/-- After any edits of the empty pattern no place stands twice, a place holds what it was last set
to and not removed since, the places stand in the order in which they were first set since their
last removals, and a removal gives what the place holds. So no push is ever refused in the division
of such a pattern, or of one that was read from a text. -/
theorem edits_decide_entries (es : List Edit) :
    ((ofEdits es).entries.map Prod.fst).Nodup ∧
      (∀ t s, (ofEdits es).get? t = some s ↔ LastSet es t s) ∧
      (∀ t, (ofEdits es).get? t = none ↔ Undone es t) ∧
      (∀ t, t ∈ (ofEdits es).entries.map Prod.fst ↔ ∃ n, FirstSet es t n) ∧
      ((ofEdits es).entries.map Prod.fst).Pairwise (fun t u =>
        ∀ m n, FirstSet es t m → FirstSet es u n → m < n) ∧
      (∀ t, ((ofEdits es).remove t).1 = (ofEdits es).get? t) ∧
      (ofEdits es).divideByPushes = (ofEdits es).divide.mapError .faulty ∧
      ∀ text p, ofText text = .ok p →
        (p.entries.map Prod.fst).Nodup ∧ p.divideByPushes = .ok p.branches := by
  have h := follows_ofEdits es
  refine ⟨(ofEdits es).distinct, h.get?_eq_some_iff, h.get?_eq_none_iff, h.mem_terms_iff,
    h.ordered, fun t => ?_, divideByPushes_eq _, fun text p hp => ⟨p.distinct, ?_⟩⟩
  · rw [remove_eq]
  · rw [divideByPushes_eq, divide_eq_ok_iff.2 ⟨fault?_of_ofText hp, rfl⟩]
    rfl

/-- A place that is set again keeps its position, and one that is set after its removal goes last.
-/
theorem edits_decide_entries_removed :
    let es : List Edit := [.set .subject (.one (.exact "a")), .set .object (.one (.exact "o")),
      .set .predicate (.one (.exact "p")), .remove .object, .set .subject (.one (.exact "b")),
      .set .object (.one (.exact "r")), .remove .predicate]
    let text := "\x7b\"object\":[\"a\",\"b\"]\x7d"
    let p : Pattern := ⟨[(.object, .anyOf [.exact "a", .exact "b"])], by decide⟩
    (ofEdits es).entries.map Prod.fst = [.subject, .object] ∧
      LastSet es .subject (.one (.exact "b")) ∧ Undone es .predicate ∧
      ((ofEdits es).remove .object).1 = some (.one (.exact "r")) ∧
      ofText text = .ok p ∧ p.divideByPushes = .ok p.branches := by
  intro es text p
  have htext : ofText text = .ok p := by
    decide +kernel
  obtain ⟨-, hsome, hnone, -, -, hremove, -, hread⟩ := edits_decide_entries es
  refine ⟨by decide, (hsome _ _).1 (by decide), (hnone _).1 (by decide), ?_, htext,
    (hread text p htext).2⟩
  rw [hremove]
  decide

end QuadIndex.Pattern
