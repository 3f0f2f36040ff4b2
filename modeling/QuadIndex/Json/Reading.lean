import QuadIndex.Json.Draft

/-! Reading typed data from JSON drafts: what can be wrong with a draft, in which words, and how a
whole text is read. -/

namespace QuadIndex.Json

inductive ReadError where
  | notJson
  | wrongType (found expected : String)
  | wrongValue (found expected : String)
  | wrongLength (length : Nat) (expected : String)
  | unknownKey (key : String) (known : List String)
  | missingKey (key : String)
  | duplicateKey (key : String)
  | duplicateBound (key : String)
  deriving DecidableEq

namespace ReadError

def tick (word : String) : String := "`" ++ word ++ "`"

/-- The words that a key could have been. -/
def oneOf : List String → String
  | [] => "there are no fields"
  | [a] => "expected " ++ tick a
  | [a, b] => "expected " ++ tick a ++ " or " ++ tick b
  | known => "expected one of " ++ String.intercalate ", " (known.map tick)

def message : ReadError → String
  | notJson => "<not JSON>"
  | wrongType found expected => s!"invalid type: {found}, expected {expected}"
  | wrongValue found expected => s!"invalid value: {found}, expected {expected}"
  | wrongLength n expected => s!"invalid length {n}, expected {expected}"
  | unknownKey key known => "unknown field " ++ tick key ++ ", " ++ oneOf known
  | missingKey key => "missing field " ++ tick key
  | duplicateKey key => "duplicate field " ++ tick key
  | duplicateBound key => "duplicate range bound " ++ tick key

end ReadError

abbrev Reading (α : Type) := Except ReadError α

namespace Draft

/-- What a draft is, in words. A broken one is nothing. -/
def describe? : Draft → Option String
  | null => some "null"
  | bool b => some ("boolean " ++ ReadError.tick (if b then "true" else "false"))
  | number (some (.double bits)) =>
    some ("floating point " ++ ReadError.tick (Number.double bits).text)
  | number (some n) => some ("integer " ++ ReadError.tick n.text)
  | string (some s) => some ("string " ++ Text.quoted s)
  | array _ => some "sequence"
  | object _ => some "map"
  | number none | string none | broken => none

def mismatch (d : Draft) (expected : String) : ReadError :=
  match d.describe? with
  | some found => .wrongType found expected
  | none => .notJson

def asString : Draft → Reading String
  | string (some s) => .ok s
  | d => .error (d.mismatch "a string")

/-- Reads a count, which is an integer of 64 bits without a sign. -/
def asCount : Draft → Reading Nat
  | number (some (.natural n)) => .ok n
  | number (some (.negative n)) =>
    .error (.wrongValue ("integer " ++ ReadError.tick (Number.negative n).text) "usize")
  | d => .error (d.mismatch "usize")

def asKey : Option String → Reading String
  | some k => .ok k
  | none => .error .notJson

/-- Passes over a draft whatever it says. -/
def ignore (d : Draft) : Reading Unit :=
  if d.isWhole then .ok () else .error .notJson

/-- Reads a whole text: nothing may follow the value. -/
def Document.read {α : Type} (doc : Document) (reader : Draft → Reading α) : Reading α := do
  let a ← reader doc.root
  if doc.ended then return a else throw .notJson

end Draft

def readText {α : Type} (reader : Draft → Reading α) (text : String) : Reading α :=
  (Draft.ofText text).read reader

end QuadIndex.Json
