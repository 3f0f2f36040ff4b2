import QuadIndex.Table.Cursor

/-! Storage engines: what a store needs from the place where its entries are kept. -/

namespace QuadIndex

inductive EngineError where
  | lockPoisoned
  | corruption (reason : String)
  | injectedFault (reason : String)
  deriving DecidableEq

def EngineError.message : EngineError → String
  | lockPoisoned => "storage lock poisoned"
  | corruption reason => s!"corruption: {reason}"
  | injectedFault reason => s!"injected fault: {reason}"

/-- An engine with states `σ` and cursors `κ`. Every operation gives the state after it. -/
class Engine (σ : Type) (κ : outParam Type) where
  table : σ → Table
  /-- Applies a batch as a whole, or not at all. -/
  write : Batch → σ → Except EngineError Unit × σ
  /-- Opens a cursor before the first row of a range. -/
  scan : KeyRange → σ → κ × σ
  /-- The value of the next row, an error, or nothing at the end. -/
  next : κ → σ → Option (Except EngineError Bytes) × κ × σ
  /-- Gives up a cursor. -/
  release : κ → σ → σ

/-- A table is an engine that never fails. -/
instance : Engine Table Cursor where
  table t := t
  write b t := (.ok (), t.apply b)
  scan r t := (.ofRange r, t)
  next c t :=
    let (entry, c) := c.next t
    (entry.map fun e => .ok e.2, c, t)
  release _ t := t

end QuadIndex
