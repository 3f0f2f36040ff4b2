import QuadIndex.Proofs.Pattern.Reading
import QuadIndex.Quad.Json

/-! # What is written is read back

The text that a value is written as has no control character, whatever is in its strings. Intervals
and quads are read from it as they were: the bounds that an interval leaves out are not set, and a
context is there also where it is empty. -/

namespace QuadIndex

open Json (Draft IsTextOf readText)

namespace Json

/-! ## Control characters -/

def Printable (cs : List Char) : Prop := ∀ c ∈ cs, 0x20 ≤ c.toNat

@[simp] theorem printable_nil : Printable [] := nofun

@[simp] theorem printable_cons {c : Char} {cs : List Char} :
    Printable (c :: cs) ↔ 0x20 ≤ c.toNat ∧ Printable cs := List.forall_mem_cons

@[simp] theorem printable_append {cs ds : List Char} :
    Printable (cs ++ ds) ↔ Printable cs ∧ Printable ds := List.forall_mem_append

theorem printable_digits : ∀ n < 0x20,
    0x20 ≤ (Nat.digitChar (n / 16)).toNat ∧ 0x20 ≤ (Nat.digitChar (n % 16)).toNat := by
  decide

/-- The spelling of a character in a string has no control character, also if the character is
one. -/
theorem printable_escapedChar (c : Char) : Printable (escapedChar c) := by
  rw [escapedChar]
  split_ifs with hquote hslash hb hf hn hr ht hcontrol
  · simp
  · simp
  · simp
  · simp
  · simp
  · simp
  · simp
  · simp [printable_digits c.toNat hcontrol]
  · simpa using hcontrol

theorem printable_stringChars (s : String) : Printable (stringChars s) := by
  have hbody : Printable (s.toList.flatMap escapedChar) := by
    intro d hd
    obtain ⟨c, -, hc⟩ := List.mem_flatMap.1 hd
    exact printable_escapedChar c d hc
  simp [stringChars, hbody]

theorem printable_itemChars {items : List Json} (h : ∀ v ∈ items, Printable v.chars) :
    Printable (itemChars items) := by
  induction items with
  | nil => simp [itemChars]
  | cons v vs ih =>
      obtain ⟨hv, hvs⟩ := List.forall_mem_cons.1 h
      cases vs with
      | nil => simp [itemChars, hv]
      | cons w vs => simp [itemChars, hv, ih hvs]

theorem printable_memberChars {members : List (String × Json)}
    (h : ∀ m ∈ members, Printable m.2.chars) : Printable (memberChars members) := by
  induction members with
  | nil => simp [memberChars]
  | cons m ms ih =>
      obtain ⟨k, v⟩ := m
      obtain ⟨hv, hms⟩ := List.forall_mem_cons.1 h
      have hk := printable_stringChars k
      cases ms with
      | nil => simp [memberChars, hk, hv]
      | cons m ms => simp [memberChars, hk, hv, ih hms]

theorem Numberless.printable {v : Json} (h : v.Numberless) : Printable v.chars := by
  induction h with
  | null => simp [chars]
  | bool b => cases b <;> simp [chars]
  | string s => exact printable_stringChars s
  | array h ih => simp [chars, printable_itemChars ih]
  | object h ih => simp [chars, printable_memberChars ih]

/-- The text that a value is written as has the tokens of the value and no control character. -/
structure WellWritten (v : Json) : Prop where
  spells : IsTextOf v.render v
  printable : Printable v.render.toList

theorem Numberless.wellWritten {v : Json} (h : v.Numberless) : v.WellWritten :=
  ⟨h.isTextOf_render, by simpa [render] using h.printable⟩

end Json

/-! ## Intervals and quads -/

variable {text : String}

/-- In whatever spelling, the text of an interval is read as the interval, alone or where a list may
stand. -/
theorem Interval.readText_eq {r : Interval} (h : IsTextOf text r.toJson) :
    readText Constraint.ofDraft text = .ok (.within r) ∧
      readText Selector.ofDraft text = .ok (.one (.within r)) := by
  have hspelled : (Constraint.within r).SpelledBy r.toJson := (Constraint.within r).spelledBy_toJson
  rw [h.readText_eq, h.readText_eq]
  exact ⟨Constraint.ofDraft_eq_ok_iff.2 hspelled, Selector.ofDraft_eq_ok_iff.2 (.one hspelled)⟩

namespace Quad

theorem numberless_toJson (q : Quad) : q.toJson.Numberless :=
  .object (List.forall_mem_map.2 fun t _ => .string (q.get t))

/-- The keys of a written quad name the four places in canonical order, each once. -/
theorem ofDraft_toJson (q : Quad) : ofDraft (Draft.ofValue q.toJson) = .ok q := rfl

theorem readText_eq {q : Quad} (h : IsTextOf text q.toJson) : readText ofDraft text = .ok q := by
  rw [h.readText_eq, ofDraft_toJson]

end Quad

/-- Every interval, also one without bounds or with contradictory ones, is read from its written
text as an interval, and every quad as the same quad. -/
theorem written_values_are_read_back :
    (∀ r : Interval, r.toJson.WellWritten ∧
      readText Constraint.ofDraft r.toJson.render = .ok (.within r) ∧
      readText Selector.ofDraft r.toJson.render = .ok (.one (.within r))) ∧
    ∀ q : Quad, q.toJson.WellWritten ∧ readText Quad.ofDraft q.toJson.render = .ok q := by
  constructor
  · intro r
    have hwritten := (Constraint.within r).numberless_toJson.wellWritten
    exact ⟨hwritten, Interval.readText_eq hwritten.spells⟩
  · intro q
    have hwritten := q.numberless_toJson.wellWritten
    exact ⟨hwritten, Quad.readText_eq hwritten.spells⟩

/-- A quote, a backslash and control characters in the fields, and no context. -/
example : (Quad.toJson ⟨"\"", "\\", "\x01\n", ""⟩).render =
    "\x7b\"subject\":\"\\\"\",\"predicate\":\"\\\\\"," ++
      "\"object\":\"\\u0001\\n\",\"context\":\"\"\x7d" := by
  decide +kernel

end QuadIndex
