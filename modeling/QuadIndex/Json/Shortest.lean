/-! The fewest decimal digits that name a double. -/

namespace QuadIndex.Json

/-- A positive decimal `digits * 10 ^ exponent`. -/
structure Decimal where
  digits : Nat
  exponent : Int
  deriving DecidableEq

namespace Shortest

/-- A positive double `m * 2 ^ q`, and whether the gap below it is half the gap above. -/
structure Parts where
  m : Nat
  q : Int
  lopsided : Bool

/-- One more than the largest fraction of a double. -/
def fractionEnd : Nat := 0x10000000000000

def parts (bits : UInt64) : Parts :=
  let fraction := bits.toNat % fractionEnd
  let biased := bits.toNat / fractionEnd % 0x800
  if biased = 0 then ⟨fraction, -1074, false⟩
  else ⟨fraction + fractionEnd, (biased : Int) - 1075, fraction == 0 && biased > 1⟩

/-- `base ^ e`, or one if the exponent is negative. -/
def power (base : Nat) (e : Int) : Nat := Nat.pow base e.toNat

/-- The sign of `a * 2 ^ q - d * 10 ^ e`. -/
def compareScaled (a : Nat) (q : Int) (d : Nat) (e : Int) : Ordering :=
  compare (a * power 2 q * power 10 (-e)) (d * power 10 e * power 2 (-q))

/-- A decimal rounds to the double if it lies between the midpoints to its neighbours; the
midpoints themselves belong to a double of even `m`. -/
def roundsTo (p : Parts) (d : Nat) (e : Int) : Bool :=
  let high := compareScaled (4 * p.m + 2) (p.q - 2) d e
  let low := compareScaled (4 * p.m - if p.lopsided then 1 else 2) (p.q - 2) d e
  let even := p.m % 2 == 0
  (high == .gt || (even && high == .eq)) && (low == .lt || (even && low == .eq))

def steps (p : Parts) (e : Int) : Nat :=
  p.m * power 2 p.q * power 10 (-e) / (power 10 e * power 2 (-p.q))

/-- The nearer of the two grid points around the double that round to it. -/
def onGrid? (p : Parts) (e : Int) : Option Nat :=
  let n := steps p e
  match roundsTo p n e && n != 0, roundsTo p (n + 1) e with
  | false, false => none
  | true, false => some n
  | false, true => some (n + 1)
  | true, true =>
    match compareScaled (2 * p.m) p.q (2 * n + 1) e with
    | .lt => some n
    | .gt => some (n + 1)
    | .eq => some (if n % 2 = 0 then n else n + 1)

/-- Looks for a grid point from the coarsest grid down, `fuel` grids at most. -/
def search (p : Parts) : Nat → Int → Decimal
  | 0, e => ⟨steps p e, e⟩
  | fuel + 1, e =>
    match onGrid? p e with
    | some d => ⟨d, e⟩
    | none => search p fuel (e - 1)

/-- The power of ten at which the coarsest grid starts: one beyond the leading digit. -/
def leading (p : Parts) : Int :=
  (((p.m.log2 : Int) + p.q) * 30103).fdiv 100000 + 2

def decimal (bits : UInt64) : Decimal := search (parts bits) 20 (leading (parts bits))

end Shortest
end QuadIndex.Json
