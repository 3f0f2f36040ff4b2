import QuadIndex.Quad.Record

/-! Ranges of keys. Keys are byte strings in lexicographic order. -/

namespace QuadIndex

inductive Bound where
  | unbounded
  | inclusive (key : Bytes)
  | exclusive (key : Bytes)
  deriving DecidableEq

namespace Bound

/-- The key lies above the bound, taken as a lower end. -/
def below : Bound → Bytes → Bool
  | unbounded, _ => true
  | inclusive l, k => l ≤ k
  | exclusive l, k => l < k

/-- The key lies below the bound, taken as an upper end. -/
def above : Bound → Bytes → Bool
  | unbounded, _ => true
  | inclusive u, k => k ≤ u
  | exclusive u, k => k < u

/-- The two ends have crossed, or touch without both admitting their common key. Ends with an
unbounded side never cross. -/
def crossed : Bound → Bound → Bool
  | inclusive l, inclusive u => u < l
  | inclusive l, exclusive u | exclusive l, inclusive u | exclusive l, exclusive u => u ≤ l
  | _, _ => false

end Bound

/-- The keys between two ends, of which at most `limit` rows are wanted. -/
structure KeyRange where
  lower : Bound
  upper : Bound
  limit : Option Nat
  deriving DecidableEq

namespace KeyRange

def contains (r : KeyRange) (k : Bytes) : Bool := r.lower.below k && r.upper.above k

def isEmpty (r : KeyRange) : Bool := r.lower.crossed r.upper

end KeyRange
end QuadIndex
