import QuadIndex.Json.Shortest

/-! Numbers of JSON texts: integers of 64 bits, and doubles for all others. -/

namespace QuadIndex.Json

inductive Number where
  | natural (n : Nat)
  /-- The integer `-n`. -/
  | negative (n : Nat)
  | double (bits : UInt64)
  deriving DecidableEq

namespace Number

structure Layout where
  /-- Numbers are written without an exponent from this power of ten on. -/
  leastPositional : Int
  /-- Numbers are written without an exponent below this power of ten. -/
  endPositional : Int

/-- Doubles are positional from 0.00001 up to 10^16. -/
def layout : Layout := ⟨-5, 16⟩

def trimZeros : Nat → Decimal → Decimal
  | 0, d => d
  | fuel + 1, d =>
    if d.digits ≠ 0 ∧ d.digits % 10 = 0 then trimZeros fuel ⟨d.digits / 10, d.exponent + 1⟩ else d

/-- A positive decimal by the layout. A positional number has digits on both sides of the point; an
exponent has a sign and as many digits as it needs. -/
def decimalText (l : Layout) (d : Decimal) : List Char :=
  let digits := Nat.toDigits 10 d.digits
  let count : Int := digits.length
  let leading := d.exponent + count - 1
  if l.leastPositional ≤ leading ∧ leading < l.endPositional then
    if 0 ≤ d.exponent then digits ++ List.replicate d.exponent.toNat '0' ++ ['.', '0']
    else if 0 ≤ leading then
      digits.take (leading + 1).toNat ++ ['.'] ++ digits.drop (leading + 1).toNat
    else ['0', '.'] ++ List.replicate (-leading - 1).toNat '0' ++ digits
  else
    let sign := if leading < 0 then '-' else '+'
    let point := if digits.length = 1 then [] else ['.']
    digits.take 1 ++ point ++ digits.drop 1 ++ ['e', sign] ++
      Nat.toDigits 10 leading.natAbs

/-- The sign of a double stands in its highest bit. -/
def signBit : Nat := 0x8000000000000000

def doubleText (bits : UInt64) : List Char :=
  let magnitude := UInt64.ofNat (bits.toNat % signBit)
  let sign := if signBit ≤ bits.toNat then ['-'] else []
  if magnitude = 0 then sign ++ ['0', '.', '0']
  else sign ++ decimalText layout (trimZeros 20 (Shortest.decimal magnitude))

def text : Number → String
  | natural n => toString n
  | negative n => "-" ++ toString n
  | double bits => String.ofList (doubleText bits)

/-- The largest integer that is kept exactly. -/
def maxNatural : Nat := 0xFFFFFFFFFFFFFFFF

/-- The largest integer that is kept exactly with a minus sign before it. -/
def maxNegative : Nat := 0x8000000000000000

/-- Takes digits into a whole number while it fits 64 bits; what is left starts with the first
digit that does not fit. -/
def takeDigits (n : Nat) : List Char → Nat × List Char
  | [] => (n, [])
  | c :: cs =>
    let next := n * 10 + (c.toNat - '0'.toNat)
    if maxNatural < next then (n, c :: cs) else takeDigits next cs

def power (e : Nat) : Float := Float.ofScientific 1 false e

/-- The largest power of ten that is a double. -/
def maxPower : Nat := 308

/-- Divides by a power of ten, in steps where one power does not suffice. -/
def scaleDown : Nat → Float → Nat → Float
  | 0, f, _ => f
  | fuel + 1, f, e =>
    if e ≤ maxPower then f / power e
    else if f == 0 then f
    else scaleDown fuel (f / power maxPower) (e - maxPower)

/-- The double for `n * 10 ^ e`: the number is made a double first and then scaled once, so the
result is not always the nearest one. There is none beyond the range of doubles. -/
def scale? (n : Nat) (e : Int) : Option Float :=
  let f := (UInt64.ofNat n).toFloat
  if e < 0 then some (scaleDown (e.natAbs / maxPower + 1) f e.natAbs)
  else if e ≤ maxPower then
    let scaled := f * power e.natAbs
    if scaled.isInf then none else some scaled
  else if f == 0 then some f
  else none

/-- Digits, already split: those before the point, those after it, and the exponent. -/
structure Spelling where
  negative : Bool
  whole : List Char
  fraction : Option (List Char)
  exponent : Option (Bool × List Char)

def ofDigits (cs : List Char) : Nat := cs.foldl (fun n c => n * 10 + (c.toNat - '0'.toNat)) 0

/-- Exponents from here on are beyond all scaling. -/
def exponentLimit : Nat := 0x7FFFFFFF

/-- The number that is spelled. A spelling with neither point nor exponent is an integer if it
fits; minus zero is a double. Digits that no longer fit 64 bits are dropped and leave only their
places. -/
def ofSpelling? (s : Spelling) : Option Number :=
  let (n, dropped) := takeDigits 0 s.whole
  let signed (f : Float) : Number := .double (if s.negative then (-f).toBits else f.toBits)
  match s.fraction, s.exponent, dropped with
  | none, none, [] =>
    if !s.negative then some (.natural n)
    else if n = 0 ∨ maxNegative < n then some (signed (UInt64.ofNat n).toFloat)
    else some (.negative n)
  | fraction, exponent, _ =>
    let digits := fraction.getD []
    let (n, unread) := takeDigits n digits
    let shift : Int := dropped.length - (digits.length - unread.length : Nat)
    let (up, e) :=
      match exponent with
      | none => (true, 0)
      | some (up, ds) => (up, ofDigits ds)
    if exponentLimit < e then
      if n ≠ 0 ∧ up then none else some (signed 0)
    else (scale? n (shift + if up then (e : Int) else -(e : Int))).map signed

end Number
end QuadIndex.Json
