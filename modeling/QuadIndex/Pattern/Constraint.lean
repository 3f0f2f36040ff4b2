import QuadIndex.Quad.Basic
import QuadIndex.Text.Quoted

/-! Constraints on one value: an exact value, or an interval of values. -/

namespace QuadIndex

structure Endpoint where
  value : String
  inclusive : Bool
  deriving DecidableEq

namespace Endpoint

/-- The value lies above the endpoint, taken as a lower end. -/
def below (e : Endpoint) (value : String) : Bool :=
  if e.inclusive then e.value ≤ value else e.value < value

/-- The value lies below the endpoint, taken as an upper end. -/
def above (e : Endpoint) (value : String) : Bool :=
  if e.inclusive then value ≤ e.value else value < e.value

end Endpoint

/-- An interval of strings in code point order. At most one bound of each side is meant to be set,
and at least one bound in all; `fault?` says when that is not so. -/
structure Interval where
  gt : Option String := none
  gte : Option String := none
  lt : Option String := none
  lte : Option String := none
  deriving DecidableEq, Inhabited

inductive PatternFault where
  | bothLower (term : Term)
  | bothUpper (term : Term)
  | noBounds (term : Term)
  | reserved (term : Term)
  | emptyList (term : Term)
  deriving DecidableEq

def PatternFault.message : PatternFault → String
  | bothLower t => s!"range on {t.name} has both gt and gte"
  | bothUpper t => s!"range on {t.name} has both lt and lte"
  | noBounds t => s!"range on {t.name} has no bounds"
  | reserved t => s!"value for {t.name} contains a reserved key character"
  | emptyList t => s!"list of values for {t.name} is empty"

namespace Interval

/-- The lower end. The inclusive bound goes first if both are set. -/
def lower (r : Interval) : Option Endpoint :=
  match r.gte with
  | some v => some ⟨v, true⟩
  | none => r.gt.map (⟨·, false⟩)

/-- The upper end. The inclusive bound goes first if both are set. -/
def upper (r : Interval) : Option Endpoint :=
  match r.lte with
  | some v => some ⟨v, true⟩
  | none => r.lt.map (⟨·, false⟩)

def contains (r : Interval) (value : String) : Bool :=
  r.lower.all (·.below value) && r.upper.all (·.above value)

def values (r : Interval) : List String := [r.gt, r.gte, r.lt, r.lte].filterMap id

def fault? (t : Term) (r : Interval) : Option PatternFault :=
  if r.gt.isSome ∧ r.gte.isSome then some (.bothLower t)
  else if r.lt.isSome ∧ r.lte.isSome then some (.bothUpper t)
  else if r.values = [] then some (.noBounds t)
  else if r.values.any isReserved then some (.reserved t)
  else none

def text (r : Interval) : String :=
  let low := r.lower.map fun e => (if e.inclusive then ">= " else "> ") ++ Text.quoted e.value
  let high := r.upper.map fun e => (if e.inclusive then "<= " else "< ") ++ Text.quoted e.value
  String.intercalate " and " ([low, high].filterMap id)

end Interval

inductive Constraint where
  | exact (value : String)
  | within (interval : Interval)
  deriving DecidableEq

namespace Constraint

def admits : Constraint → String → Bool
  | exact v, value => value = v
  | within r, value => r.contains value

def fault? (t : Term) : Constraint → Option PatternFault
  | exact v => if isReserved v then some (.reserved t) else none
  | within r => r.fault? t

def text : Constraint → String
  | exact v => "= " ++ Text.quoted v
  | within r => r.text

end Constraint
end QuadIndex
