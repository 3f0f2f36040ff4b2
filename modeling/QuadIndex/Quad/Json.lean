import QuadIndex.Json.Reading
import QuadIndex.Quad.Basic

/-! Quads in JSON: an object with a member for each field, or a list of the fields. The context may
be missing, which means the empty string, and may be called graph. -/

namespace QuadIndex.Quad

open QuadIndex.Json (Draft Reading)

structure Fields where
  subject : Option String := none
  predicate : Option String := none
  object : Option String := none
  context : Option String := none

namespace Fields

def get (f : Fields) : Term → Option String
  | .subject => f.subject
  | .predicate => f.predicate
  | .object => f.object
  | .context => f.context

def set (f : Fields) (value : String) : Term → Fields
  | .subject => { f with subject := some value }
  | .predicate => { f with predicate := some value }
  | .object => { f with object := some value }
  | .context => { f with context := some value }

/-- The quad, if no field but the context is missing. -/
def toQuad (f : Fields) : Reading Quad :=
  match f.subject, f.predicate, f.object with
  | none, _, _ => .error (.missingKey "subject")
  | _, none, _ => .error (.missingKey "predicate")
  | _, _, none => .error (.missingKey "object")
  | some s, some p, some o => .ok ⟨s, p, o, f.context.getD ""⟩

end Fields

/-- Reads members one by one. Members with other keys are passed over. -/
def readMembers (f : Fields) : List (Option String × Draft) → Reading Fields
  | [] => .ok f
  | (k, d) :: ms => do
    let key ← Draft.asKey k
    match Term.ofName? key with
    | none =>
      d.ignore
      readMembers f ms
    | some t =>
      if (f.get t).isSome then throw (.duplicateKey t.name)
      else
        let value ← d.asString
        readMembers (f.set value t) ms

/-- Reads the fields of a list in canonical order. -/
def readItems (f : Fields) (count : Nat) : List Term → List Draft → Reading Fields
  | [], [] => .ok f
  | [], _ :: _ => .error .notJson
  | t :: ts, d :: ds => do
    let value ← d.asString
    readItems (f.set value t) (count + 1) ts ds
  | t :: _, [] =>
    if t = .context then .ok f else .error (.wrongLength count "struct Quad with 4 elements")

def ofDraft : Draft → Reading Quad
  | .object ms => do (← readMembers {} ms).toQuad
  | .array items => do (← readItems {} 0 Term.all items).toQuad
  | d => .error (d.mismatch "struct Quad")

def toJson (q : Quad) : Json := .object (Term.all.map fun t => (t.name, .string (q.get t)))

end QuadIndex.Quad
