import QuadIndex.Plan.Basic

/-! Scans: a strategy as a key range of one index and a filter for its rows. -/

namespace QuadIndex

structure Scan where
  indexName : String
  range : KeyRange
  filter : Option (List Predicate)
  deriving DecidableEq

namespace Scan

/-- Rows pass if there is no filter, or if they satisfy all its predicates. -/
def passes (filter : Option (List Predicate)) (q : Quad) : Bool :=
  filter.all fun ps => ps.all (·.admits q)

def boundaryText : String := String.singleton boundary

/-- The lower end of a side. An inclusive one stands before all keys that go on from the values, an
exclusive one after them. -/
def lowerBound (i : Index) (s : Side) : Bound :=
  if s.inclusive then .inclusive (i.boundKey s.values "")
  else .exclusive (i.boundKey s.values boundaryText)

/-- The upper end of a side. An inclusive one stands after all keys that go on from the values, an
exclusive one before them. -/
def upperBound (i : Index) (s : Side) : Bound :=
  if s.inclusive then .inclusive (i.boundKey s.values boundaryText)
  else .exclusive (i.boundKey s.values "")

end Scan

namespace Strategy

def scan (s : Strategy) : Scan where
  indexName := s.index.name
  range := ⟨Scan.lowerBound s.index s.span.lower, Scan.upperBound s.index s.span.upper, none⟩
  filter := if s.predicates.isEmpty then none else some s.predicates

end Strategy

namespace Plan

def scans (p : Plan) : List Scan := p.choices.map (·.strategy.scan)

end Plan
end QuadIndex
