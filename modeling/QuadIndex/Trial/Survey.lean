import QuadIndex.Trial.Workload

/-! Surveys of a workload: which operations it draws, whether a store can take them, and which
values occur. -/

namespace QuadIndex.Workload

/-- The kinds that an operation belongs to. A query for a page is of two kinds. -/
def kinds : Operation → List String
  | .put _ => ["put"]
  | .erase _ => ["delete"]
  | .query _ page => if page = {} then ["query"] else ["paged query", "query"]

/-- A store can take the operation: its pattern or its quads have no fault. -/
def isAdmissible : Operation → Bool
  | .put qs | .erase qs => qs.all fun q => q.fault? = none
  | .query p _ => p.fault? = none

/-- A write has at least one quad, and at most as many as the settings allow. -/
def isSized (s : WorkloadSettings) : Operation → Bool
  | .put qs | .erase qs => 1 ≤ qs.length && qs.length ≤ max s.maxQuadsPerWrite 1
  | .query .. => true

/-- The distinct strings of a list in ascending order. -/
def distinct (ss : List String) : List String :=
  (ss.foldl (fun seen s => if s ∈ seen then seen else s :: seen) []).mergeSort fun a b => a ≤ b

structure Survey where
  admissible : Bool
  sized : Bool
  kinds : List String
  /-- For each place in canonical order, the values that occur in drawn quads. -/
  values : List (List String)
  deriving DecidableEq

def operationsAndQuads (s : WorkloadSettings) (operations quads : Nat) :
    StateM Chance (List Operation × List Quad) := do
  let ops ← Chance.times (operation s) operations
  let qs ← Chance.times (quad s) quads
  return (ops, qs)

def survey (s : WorkloadSettings) (words : Nat → UInt32) (operations quads : Nat) : Survey :=
  let (ops, qs) := (operationsAndQuads s operations quads (.ofWords words)).1
  { admissible := ops.all isAdmissible
    sized := ops.all (isSized s)
    kinds := distinct (ops.flatMap kinds)
    values := Term.all.map fun t => distinct (qs.map (·.get t)) }

end QuadIndex.Workload
