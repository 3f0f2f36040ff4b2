/-! The four places of a quad. -/

namespace QuadIndex

inductive Term where
  | subject
  | predicate
  | object
  | context
  deriving DecidableEq, Inhabited

namespace Term

/-- The places in canonical order. -/
def all : List Term := [subject, predicate, object, context]

theorem mem_all (t : Term) : t ∈ all := by cases t <;> decide

def name : Term → String
  | subject => "subject"
  | predicate => "predicate"
  | object => "object"
  | context => "context"

/-- The letter that stands for a place in the name of an index. A context is a named graph, so its
letter is G. -/
def code : Term → Char
  | subject => 'S'
  | predicate => 'P'
  | object => 'O'
  | context => 'G'

def ofName? (word : String) : Option Term :=
  if word = "subject" then some subject
  else if word = "predicate" then some predicate
  else if word = "object" then some object
  else if word = "context" ∨ word = "graph" then some context
  else none

/-- The place that a letter stands for, in either case. -/
def ofCode? (letter : Char) : Option Term :=
  match letter.toUpper with
  | 'S' => some subject
  | 'P' => some predicate
  | 'O' => some object
  | 'G' | 'C' => some context
  | _ => none

end Term
end QuadIndex
