import QuadIndex.Json.Reading
import QuadIndex.Pattern.Basic

/-! Patterns in JSON: an object from the names of places to what is wanted there. A string is an
exact value, an object an interval, and a list means any of its elements. -/

namespace QuadIndex

open Json (Draft ReadError Reading)

namespace Interval

def keys : List String := ["gt", "gte", "lt", "lte"]

def bound? (r : Interval) (key : String) : Option (Option String) :=
  if key = "gt" then some r.gt
  else if key = "gte" then some r.gte
  else if key = "lt" then some r.lt
  else if key = "lte" then some r.lte
  else none

def setBound (r : Interval) (key value : String) : Interval :=
  if key = "gt" then { r with gt := some value }
  else if key = "gte" then { r with gte := some value }
  else if key = "lt" then { r with lt := some value }
  else if key = "lte" then { r with lte := some value }
  else r

/-- Reads members one by one. A key is looked up before its value is read. -/
def readMembers (r : Interval) : List (Option String × Draft) → Reading Interval
  | [] => .ok r
  | (k, d) :: ms => do
    let key ← Draft.asKey k
    match r.bound? key with
    | none => throw (.unknownKey key keys)
    | some (some _) => throw (.duplicateBound key)
    | some none =>
      let value ← d.asString
      readMembers (r.setBound key value) ms

def toJson (r : Interval) : Json :=
  let member (key : String) (v : Option String) := v.map fun v => (key, Json.string v)
  let members := [member "gt" r.gt, member "gte" r.gte, member "lt" r.lt, member "lte" r.lte]
  .object (members.filterMap id)

end Interval

namespace Constraint

def ofDraft : Draft → Reading Constraint
  | .string (some v) => .ok (exact v)
  | .object ms => within <$> Interval.readMembers {} ms
  | d => .error (d.mismatch "a string or a range object")

def toJson : Constraint → Json
  | exact v => .string v
  | within r => r.toJson

end Constraint

namespace Selector

def readItems : List Draft → Reading (List Constraint)
  | [] => .ok []
  | d :: ds => do
    let c ← Constraint.ofDraft d
    let cs ← readItems ds
    return c :: cs

def ofDraft : Draft → Reading Selector
  | .string (some v) => .ok (one (.exact v))
  | .object ms => (fun r => one (.within r)) <$> Interval.readMembers {} ms
  | .array items => anyOf <$> readItems items
  | d => .error (d.mismatch "a string, a range object, or a list of those")

def toJson : Selector → Json
  | one c => c.toJson
  | anyOf cs => .array (cs.map Constraint.toJson)

end Selector

namespace Pattern

def keys : List String := ["subject", "predicate", "object", "context", "graph"]

def readMembers (p : Pattern) : List (Option String × Draft) → Reading Pattern
  | [] => .ok p
  | (k, d) :: ms => do
    let key ← Draft.asKey k
    match Term.ofName? key with
    | none => throw (.unknownKey key keys)
    | some t =>
      if (p.get? t).isSome then throw (.duplicateKey t.name)
      else
        let s ← Selector.ofDraft d
        readMembers (p.set t s) ms

def ofDraft : Draft → Reading Pattern
  | .object ms => readMembers empty ms
  | d => .error (d.mismatch "an object keyed by subject, predicate, object or context")

def toJson (p : Pattern) : Json := .object (p.entries.map fun e => (e.1.name, e.2.toJson))

end Pattern

inductive PatternTextError where
  | malformed (error : ReadError)
  | faulty (fault : PatternFault)
  deriving DecidableEq

def PatternTextError.message : PatternTextError → String
  | malformed e => s!"malformed match specification: {e.message}"
  | faulty f => f.message

def Pattern.ofText (text : String) : Except PatternTextError Pattern :=
  match Json.readText Pattern.ofDraft text with
  | .error e => .error (.malformed e)
  | .ok p =>
    match p.fault? with
    | some f => .error (.faulty f)
    | none => .ok p
end QuadIndex
