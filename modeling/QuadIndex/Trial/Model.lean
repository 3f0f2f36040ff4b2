import QuadIndex.Pattern.Basic

/-! The plainest quad store: a set of quads that is searched by matching each of them. -/

namespace QuadIndex

structure Model where
  /-- The quads in ascending order, each once. -/
  quads : List Quad
  defaultContext : String
  deriving DecidableEq

namespace Model

def empty (defaultContext : String) : Model := ⟨[], defaultContext⟩

/-- The quad that stands for a given one. -/
def stored (m : Model) (q : Quad) : Quad :=
  ⟨q.subject, q.predicate, q.object, if q.context = "" then m.defaultContext else q.context⟩

def put (m : Model) (qs : List Quad) : Model :=
  { m with quads := qs.foldl (fun quads q => Quad.insertAscending (m.stored q) quads) m.quads }

def erase (m : Model) (qs : List Quad) : Model :=
  { m with quads := qs.foldl (fun quads q => quads.filter (· ≠ m.stored q)) m.quads }

def expected (m : Model) (p : Pattern) : List Quad := m.quads.filter (·.matchesPattern p)

def size (m : Model) : Nat := m.quads.length

def isEmpty (m : Model) : Bool := m.quads.isEmpty

end Model
end QuadIndex
