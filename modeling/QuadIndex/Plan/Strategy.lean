import QuadIndex.Index.Basic
import QuadIndex.Plan.Predicate

/-! Strategies: how one branch is answered from one index. The leading places of the index become
the ends of a key range as long as each place before the last is pinned to a single value; every
other constraint becomes a predicate. -/

namespace QuadIndex

/-- One end of a range: values for leading places, the last of which is admitted or not. -/
structure Side where
  values : List String
  inclusive : Bool
  deriving DecidableEq

structure Span where
  lower : Side
  upper : Side
  deriving DecidableEq

namespace Span

/-- The span of a whole index. -/
def all : Span := ⟨⟨[], true⟩, ⟨[], true⟩⟩

/-- One more place can be bound if each place so far is pinned to a single value. -/
def isPinned (s : Span) : Bool :=
  s.lower.values.length == s.upper.values.length &&
    match s.lower.values.getLast?, s.upper.values.getLast? with
    | none, none => true
    | some l, some u => s.lower.inclusive && s.upper.inclusive && l == u
    | _, _ => false

/-- Adds an endpoint to a side that has one. -/
def extend (s : Side) : Option Endpoint → Side
  | some e => ⟨s.values ++ [e.value], e.inclusive⟩
  | none => s

def bind (s : Span) : Constraint → Span
  | .exact v => ⟨⟨s.lower.values ++ [v], true⟩, ⟨s.upper.values ++ [v], true⟩⟩
  | .within r => ⟨extend s.lower r.lower, extend s.upper r.upper⟩

/-- Binds the places of a branch from the front of an order, and tells which were bound. -/
def bindLeading (b : Branch) (s : Span) : List Term → Span × List Term
  | [] => (s, [])
  | t :: ts =>
    match b.get? t with
    | none => (s, [])
    | some c =>
      if s.isPinned then
        let (s, bound) := bindLeading b (s.bind c) ts
        (s, t :: bound)
      else (s, [])

end Span

structure Strategy where
  index : Index
  span : Span
  predicates : List Predicate
  deriving DecidableEq

namespace Strategy

def baseScore : Int := 100

def predicatePenalty : Int := 10

/-- A strategy is the better, the fewer predicates it leaves. -/
def score (s : Strategy) : Int := baseScore - predicatePenalty * s.predicates.length

def ofBranch (b : Branch) (i : Index) : Strategy :=
  let (span, bound) := Span.bindLeading b .all i.terms
  let rest := b.entries.filter fun e => e.1 ∉ bound
  ⟨i, span, rest.map fun e => .ofConstraint e.1 e.2⟩

/-- The better of the best so far and the next; of two equal ones the earlier. -/
def better (best : Option Strategy) (s : Strategy) : Option Strategy :=
  match best with
  | some b => if s.score ≤ b.score then some b else some s
  | none => some s

/-- The first strategy with the highest score. -/
def best? (ss : List Strategy) : Option Strategy := ss.foldl better none

def text (s : Strategy) : String :=
  let opening := if s.span.lower.inclusive then "[" else "("
  let closing := if s.span.upper.inclusive then "]" else ")"
  let filter :=
    if s.predicates.isEmpty then ""
    else " filter " ++ String.intercalate ", " (s.predicates.map Predicate.text)
  s.index.name ++ " " ++ opening ++ Text.quotedList s.span.lower.values ++ ".." ++
    Text.quotedList s.span.upper.values ++ closing ++ filter ++ s!" score {s.score}"

end Strategy
end QuadIndex
