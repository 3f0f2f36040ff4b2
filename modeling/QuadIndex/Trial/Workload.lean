import QuadIndex.Engine.Chance
import QuadIndex.Pattern.Paging

/-! Workloads: operations drawn by chance. Values come from small pools, so that writes meet each
other and ranges cut through them, and some come from the edges of the order of strings. -/

namespace QuadIndex

structure WorkloadSettings where
  queryRate : Rate
  deleteRate : Rate
  maxQuadsPerWrite : Nat
  valuePoolSize : Nat
  pagingRate : Rate
  edgeValueRate : Rate
  deriving DecidableEq

def WorkloadSettings.standard : WorkloadSettings :=
  ⟨⟨4, 1⟩, ⟨25, 2⟩, 8, 6, ⟨3, 1⟩, ⟨15, 2⟩⟩

inductive Operation where
  | put (quads : List Quad)
  | erase (quads : List Quad)
  | query (pattern : Pattern) (paging : Paging)
  deriving DecidableEq

namespace Workload

/-- The empty string, a string and two that go on from it, and the last of the characters with
four hexadecimal digits. -/
def edgeValues : List String := ["", "a", "a\x01", "a\x7F", "\uFFFF"]

def coin : StateM Chance Bool := Chance.under 0x8000000000000000

def value (s : WorkloadSettings) (t : Term) : StateM Chance String := do
  if ← Chance.happens s.edgeValueRate then
    let i ← Chance.below edgeValues.length
    return edgeValues.getD i ""
  else
    let n ← Chance.below (max s.valuePoolSize 1)
    return String.singleton t.code.toLower ++ toString n

def quad (s : WorkloadSettings) : StateM Chance Quad := do
  let n ← Chance.below 10
  let context ← if n = 0 then pure "" else value s .context
  let subject ← value s .subject
  let predicate ← value s .predicate
  let object ← value s .object
  return ⟨subject, predicate, object, context⟩

def lower (s : WorkloadSettings) (t : Term) (r : Interval) : StateM Chance Interval := do
  let v ← value s t
  if ← coin then return { r with gte := some v } else return { r with gt := some v }

def upper (s : WorkloadSettings) (t : Term) (r : Interval) : StateM Chance Interval := do
  let v ← value s t
  if ← coin then return { r with lte := some v } else return { r with lt := some v }

/-- An interval with a lower bound, an upper bound, or both. -/
def interval (s : WorkloadSettings) (t : Term) : StateM Chance Interval := do
  let shape ← Chance.below 3
  let r ← if shape = 1 then pure {} else lower s t {}
  if shape = 0 then pure r else upper s t r

/-- An exact value seven times in ten, else an interval. -/
def constraint (s : WorkloadSettings) (t : Term) : StateM Chance Constraint := do
  if ← Chance.under 0xB333333333333000 then return .exact (← value s t)
  else return .within (← interval s t)

def selector (s : WorkloadSettings) (t : Term) : StateM Chance Selector := do
  let kind ← Chance.below 3
  if kind = 0 then return .one (← constraint s t)
  else if kind = 1 then return .one (.within (← interval s t))
  else
    let n ← Chance.below 3
    return .anyOf (← Chance.times (constraint s t) (n + 1))

/-- Swaps the elements at the places from `n` down to one, each with one that stands no farther
back. -/
def shuffle {α : Type} : Nat → Array α → StateM Chance (Array α)
  | 0, as => return as
  | n + 1, as => do
    let i ← Chance.below (n + 2)
    shuffle n (as.swapIfInBounds (n + 1) i)

/-- Constrains each of the given places with even chances. -/
def constrain (s : WorkloadSettings) (p : Pattern) : List Term → StateM Chance Pattern
  | [] => return p
  | t :: ts => do
    if ← coin then
      let sel ← selector s t
      constrain s (p.set t sel) ts
    else constrain s p ts

/-- A pattern over some of the places in some order. -/
def pattern (s : WorkloadSettings) : StateM Chance Pattern := do
  let terms ← shuffle (Term.all.length - 1) Term.all.toArray
  constrain s .empty terms.toList

/-- A page that starts within the first four results and, four times in five, has a limit; or all
results. -/
def paging (s : WorkloadSettings) : StateM Chance Paging := do
  if ← Chance.happens s.pagingRate then
    let offset ← Chance.below 4
    if ← Chance.under 0xCCCCCCCCCCCCD000 then
      let limit ← Chance.below 6
      return ⟨offset, some limit⟩
    else return ⟨offset, none⟩
  else return {}

def operation (s : WorkloadSettings) : StateM Chance Operation := do
  if ← Chance.happens s.queryRate then
    let p ← pattern s
    let page ← paging s
    return .query p page
  else
    let n ← Chance.below (max s.maxQuadsPerWrite 1)
    let quads ← Chance.times (quad s) (n + 1)
    if ← Chance.happens s.deleteRate then return .erase quads else return .put quads

end Workload
end QuadIndex
