import QuadIndex.Table.Bound

/-! Ordered tables from keys to values, and the batches that change them. A table is the list of
its entries in strictly ascending key order. -/

namespace QuadIndex

abbrev Entry := Bytes × Bytes

namespace Entries

/-- Stores a value under a key, in place of an earlier one. -/
def insert (k v : Bytes) : List Entry → List Entry
  | [] => [(k, v)]
  | e :: es =>
    if k < e.1 then (k, v) :: e :: es
    else if k = e.1 then (k, v) :: es
    else e :: insert k v es

def erase (k : Bytes) (es : List Entry) : List Entry := es.filter fun e => e.1 ≠ k

abbrev Ascending (es : List Entry) : Prop := es.Pairwise fun a b => a.1 < b.1

theorem mem_of_mem_insert {k v : Bytes} {e : Entry} {es : List Entry} (h : e ∈ insert k v es) :
    e = (k, v) ∨ e ∈ es := by
  induction es with
  | nil => simpa [insert] using h
  | cons a es ih =>
    rw [insert] at h
    split at h
    · simpa using h
    · split at h
      · rcases List.mem_cons.1 h with h | h
        · exact .inl h
        · exact .inr (List.mem_cons_of_mem a h)
      · rcases List.mem_cons.1 h with h | h
        · exact .inr (h ▸ List.mem_cons_self)
        · exact (ih h).imp id (List.mem_cons_of_mem a)

theorem ascending_insert (k v : Bytes) {es : List Entry} (h : Ascending es) :
    Ascending (insert k v es) := by
  induction es with
  | nil => simp [insert]
  | cons a es ih =>
    rw [Ascending, List.pairwise_cons] at h
    rw [insert]
    split
    · next hk =>
      refine List.pairwise_cons.2 ⟨fun e he => ?_, List.pairwise_cons.2 h⟩
      rcases List.mem_cons.1 he with he | he
      · exact he ▸ hk
      · exact Std.lt_trans hk (h.1 e he)
    · next hk =>
      split
      · next heq => exact List.pairwise_cons.2 ⟨fun e he => heq ▸ h.1 e he, h.2⟩
      · next hne =>
        refine List.pairwise_cons.2 ⟨fun e he => ?_, ih h.2⟩
        rcases mem_of_mem_insert he with he | he
        · exact he ▸ Std.lt_of_le_of_ne (Std.not_lt.1 hk) (Ne.symm hne)
        · exact h.1 e he

theorem ascending_erase (k : Bytes) {es : List Entry} (h : Ascending es) :
    Ascending (erase k es) :=
  h.filter _

end Entries

inductive Change where
  | put (key value : Bytes)
  | erase (key : Bytes)
  deriving DecidableEq

/-- Changes that take effect together, in order. -/
abbrev Batch := List Change

structure Table where
  entries : List Entry
  ascending : Entries.Ascending entries := by simp

namespace Table

def empty : Table := ⟨[], by simp⟩

def size (t : Table) : Nat := t.entries.length

def isEmpty (t : Table) : Bool := t.entries.isEmpty

def insert (t : Table) (k v : Bytes) : Table :=
  ⟨Entries.insert k v t.entries, Entries.ascending_insert k v t.ascending⟩

def erase (t : Table) (k : Bytes) : Table :=
  ⟨Entries.erase k t.entries, Entries.ascending_erase k t.ascending⟩

def change (t : Table) : Change → Table
  | .put k v => t.insert k v
  | .erase k => t.erase k

def apply (t : Table) (b : Batch) : Table := b.foldl change t

def first? (t : Table) (lower upper : Bound) : Option Entry :=
  t.entries.find? fun e => lower.below e.1 && upper.above e.1

end Table
end QuadIndex
