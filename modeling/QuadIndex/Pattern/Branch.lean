import QuadIndex.Pattern.Basic

/-! Branches: the patterns with one constraint at each place into which a pattern divides. A quad
matches a pattern exactly if it satisfies one of its branches. -/

namespace QuadIndex

/-- One constraint for some of the places. -/
structure Branch where
  entries : List (Term × Constraint)
  deriving DecidableEq

namespace Branch

def get? (b : Branch) (t : Term) : Option Constraint :=
  (b.entries.find? fun e => e.1 = t).map (·.2)

def size (b : Branch) : Nat := b.entries.length

def isEmpty (b : Branch) : Bool := b.entries.isEmpty

def admits (b : Branch) (q : Quad) : Bool := b.entries.all fun e => e.2.admits (q.get e.1)

def text (b : Branch) : String :=
  let parts := b.entries.map fun e => e.1.name ++ " " ++ e.2.text
  "\x7b" ++ String.intercalate ", " parts ++ "\x7d"

end Branch

namespace Pattern

/-- Every way to choose one constraint at each place. The last place varies fastest. -/
def choices : List (Term × Selector) → List (List (Term × Constraint))
  | [] => [[]]
  | e :: es => e.2.constraints.flatMap fun c => (choices es).map ((e.1, c) :: ·)

def branches (p : Pattern) : List Branch := (choices p.entries).map Branch.mk

def divide (p : Pattern) : Except PatternFault (List Branch) :=
  match p.fault? with
  | some f => .error f
  | none => .ok p.branches

end Pattern
end QuadIndex
