import QuadIndex.Table.Basic

/-! Cursors over a table. A cursor holds no part of the table: each time it is asked for a row it
looks in the table of that moment for the first key past the one it gave last, so it sees what was
written in between. -/

namespace QuadIndex

structure Cursor where
  lower : Bound
  upper : Bound
  remaining : Option Nat
  finished : Bool
  deriving DecidableEq

namespace Cursor

def ofRange (r : KeyRange) : Cursor :=
  ⟨r.lower, r.upper, r.limit, r.isEmpty || r.limit == some 0⟩

/-- The cursor after the row under the key. It is finished if that was the last row of its limit,
or if nothing can follow the key within the range. -/
def past (c : Cursor) (k : Bytes) : Cursor :=
  let remaining := c.remaining.map (· - 1)
  let lower := Bound.exclusive k
  ⟨lower, c.upper, remaining, remaining == some 0 || lower.crossed c.upper⟩

/-- The next entry, if there is one. A cursor that has found none stays finished. -/
def next (c : Cursor) (t : Table) : Option Entry × Cursor :=
  if c.finished then (none, c)
  else
    match t.first? c.lower c.upper with
    | none => (none, { c with finished := true })
    | some e => (some e, c.past e.1)

/-- Asks for rows until there are no more, at most as many as the table has. -/
def rows (t : Table) : Nat → Cursor → List Entry
  | 0, _ => []
  | n + 1, c =>
    match c.next t with
    | (none, _) => []
    | (some e, c) => e :: rows t n c

end Cursor

namespace Table

def scan (t : Table) (r : KeyRange) : List Entry := Cursor.rows t t.size (.ofRange r)

end Table
end QuadIndex
