import QuadIndex.Engine.Keystream

/-! Sources of chance. A source is an endless sequence of words of 32 bits and a place in it, so a
statement about every source is one about every sequence of choices. -/

namespace QuadIndex

structure Chance where
  words : Nat → UInt32
  /-- How many words were taken. -/
  used : Nat

/-- A probability as a decimal `mantissa / 10 ^ places`. -/
structure Rate where
  mantissa : Int
  places : Nat
  deriving DecidableEq, Inhabited

namespace Rate

def zero : Rate := ⟨0, 0⟩

def isPositive (r : Rate) : Bool := 0 < r.mantissa

/-- The upper 53 bits of a word, read as a fraction of 2^53, are less than the rate. -/
def exceeds (r : Rate) (word : UInt64) : Bool :=
  (word.toNat / 0x800 * Nat.pow 10 r.places : Nat) < r.mantissa * 0x20000000000000

end Rate

namespace Chance

def seededWords (seed : UInt64) : Nat → UInt32 := (Keystream.Key.ofSeed seed).word

def ofWords (words : Nat → UInt32) : Chance := ⟨words, 0⟩

def word : StateM Chance UInt32 := fun c => (c.words c.used, { c with used := c.used + 1 })

/-- The next two words as one, whose lower half comes first. -/
def wide : StateM Chance UInt64 := do
  let low ← word
  let high ← word
  return high.toUInt64 <<< 32 ||| low.toUInt64

def happens (r : Rate) : StateM Chance Bool := do
  let w ← wide
  return r.exceeds w

/-- The next two words as one are less than a limit. -/
def under (limit : UInt64) : StateM Chance Bool := do
  let w ← wide
  return w < limit

/-- The whole part of `n` times a fraction of the given denominator. Where the part that is cut off
is so large that the choice leans to some numbers, a second fraction is added to it and may
carry. -/
def scale (denominator : Nat) (draw : StateM Chance Nat) (n : Nat) : StateM Chance Nat := do
  let product := (← draw) * n
  let whole := product / denominator
  let rest := product % denominator
  if denominator - n < rest then
    let more := (← draw) * n / denominator
    return if denominator ≤ rest + more then whole + 1 else whole
  else return whole

/-- A number below `n`, which must not be zero. -/
def below (n : Nat) : StateM Chance Nat :=
  if n < 0x100000000 then scale 0x100000000 (return (← word).toNat) n
  else scale 0x10000000000000000 (return (← wide).toNat) n

def times {α : Type} (draw : StateM Chance α) : Nat → StateM Chance (List α)
  | 0 => return []
  | n + 1 => do
    let a ← draw
    let as ← times draw n
    return a :: as

end Chance
end QuadIndex
