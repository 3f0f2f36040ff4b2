import QuadIndex.Json.Reading
import QuadIndex.Pattern.Inspect

/-! Paging: how many results to pass over, and how many to give after that. -/

namespace QuadIndex

open Json (Draft Reading)

structure Paging where
  offset : Nat := 0
  limit : Option Nat := none
  deriving DecidableEq, Inhabited

namespace Paging

/-- Counts have 64 bits. -/
def maxCount : Nat := 0xFFFFFFFFFFFFFFFF

/-- The sum of two counts, held at the largest count. -/
def addCounts (a b : Nat) : Nat := min (a + b) maxCount

/-- The page of a whole list of results. -/
def slice {α : Type} (p : Paging) (results : List α) : List α :=
  match p.limit with
  | some n => (results.drop p.offset).take n
  | none => results.drop p.offset

def inspect (p : Paging) : String :=
  Inspect.fields "QueryOptions"
    [("offset", toString p.offset), ("limit", Inspect.option (p.limit.map toString))]

def readLimit : Draft → Reading (Option Nat)
  | .null => .ok none
  | d => some <$> d.asCount

structure Members where
  offset : Option Nat := none
  limit : Option (Option Nat) := none

def Members.toPaging (m : Members) : Paging := ⟨m.offset.getD 0, m.limit.getD none⟩

def keys : List String := ["offset", "limit"]

def readMembers (m : Members) : List (Option String × Draft) → Reading Members
  | [] => .ok m
  | (k, d) :: ms => do
    let key ← Draft.asKey k
    if key = "offset" then
      if m.offset.isSome then throw (.duplicateKey key)
      else
        let n ← d.asCount
        readMembers { m with offset := some n } ms
    else if key = "limit" then
      if m.limit.isSome then throw (.duplicateKey key)
      else
        let n ← readLimit d
        readMembers { m with limit := some n } ms
    else throw (.unknownKey key keys)

/-- Reads a list of offset and limit, either of which may be missing at the end. -/
def readItems : List Draft → Reading Paging
  | [] => .ok {}
  | [a] => do return ⟨← a.asCount, none⟩
  | [a, b] => do return ⟨← a.asCount, ← readLimit b⟩
  | a :: b :: _ => do
    let _ ← a.asCount
    let _ ← readLimit b
    throw .notJson

def ofDraft : Draft → Reading Paging
  | .object ms => Members.toPaging <$> readMembers {} ms
  | .array items => readItems items
  | d => .error (d.mismatch "struct QueryOptions")

end Paging
end QuadIndex
