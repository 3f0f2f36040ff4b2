import QuadIndex.Pattern.Basic

/-! The full structure of a pattern in words, for reports of failed checks. -/

namespace QuadIndex

def Term.label : Term → String
  | subject => "Subject"
  | predicate => "Predicate"
  | object => "Object"
  | context => "Context"

namespace Inspect

/-- A name applied to parts in parentheses. -/
def applied (name : String) (parts : List String) : String :=
  name ++ "(" ++ String.intercalate ", " parts ++ ")"

/-- A name with fields in braces. -/
def fields (name : String) (parts : List (String × String)) : String :=
  let shown := parts.map fun f => f.1 ++ ": " ++ f.2
  name ++ " \x7b " ++ String.intercalate ", " shown ++ " \x7d"

def list (parts : List String) : String := "[" ++ String.intercalate ", " parts ++ "]"

def option (part : Option String) : String :=
  match part with
  | some s => applied "Some" [s]
  | none => "None"

end Inspect

open Inspect

def Interval.inspect (r : Interval) : String :=
  let bound (v : Option String) := option (v.map Text.quoted)
  fields "Range" [("gt", bound r.gt), ("gte", bound r.gte), ("lt", bound r.lt),
    ("lte", bound r.lte)]

def Constraint.inspect : Constraint → String
  | exact v => applied "Exact" [Text.quoted v]
  | within r => applied "Range" [r.inspect]

def Selector.inspect : Selector → String
  | one c => applied "One" [c.inspect]
  | anyOf cs => applied "AnyOf" [list (cs.map Constraint.inspect)]

def Pattern.inspect (p : Pattern) : String :=
  let entry (e : Term × Selector) := applied "" [e.1.label, e.2.inspect]
  fields "MatchSpec" [("entries", list (p.entries.map entry))]

end QuadIndex
