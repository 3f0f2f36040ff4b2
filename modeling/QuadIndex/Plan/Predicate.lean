import QuadIndex.Pattern.Branch

/-! Predicates: the part of a branch that no key range expresses and that is checked row by row. -/

namespace QuadIndex

inductive Comparison where
  | eq (value : String)
  | lt (value : String)
  | lte (value : String)
  | gt (value : String)
  | gte (value : String)
  deriving DecidableEq

namespace Comparison

def holds : Comparison → String → Bool
  | eq v, value => value = v
  | lt v, value => value < v
  | lte v, value => value ≤ v
  | gt v, value => v < value
  | gte v, value => v ≤ value

def text : Comparison → String
  | eq v => "= " ++ Text.quoted v
  | lt v => "< " ++ Text.quoted v
  | lte v => "<= " ++ Text.quoted v
  | gt v => "> " ++ Text.quoted v
  | gte v => ">= " ++ Text.quoted v

end Comparison

/-- Comparisons that the value at one place has to pass. -/
structure Predicate where
  term : Term
  comparisons : List Comparison
  deriving DecidableEq

namespace Predicate

def ofLower (e : Endpoint) : Comparison := if e.inclusive then .gte e.value else .gt e.value

def ofUpper (e : Endpoint) : Comparison := if e.inclusive then .lte e.value else .lt e.value

def ofConstraint (t : Term) : Constraint → Predicate
  | .exact v => ⟨t, [.eq v]⟩
  | .within r => ⟨t, (r.lower.map ofLower).toList ++ (r.upper.map ofUpper).toList⟩

def admits (p : Predicate) (q : Quad) : Bool := p.comparisons.all (·.holds (q.get p.term))

def text (p : Predicate) : String :=
  String.intercalate " and " (p.comparisons.map fun c => p.term.name ++ " " ++ c.text)

end Predicate
end QuadIndex
