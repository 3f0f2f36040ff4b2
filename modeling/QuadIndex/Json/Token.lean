import QuadIndex.Json.Value

/-! The tokens of a JSON text. Scanning stops at the first place that begins no token, so a text
always has tokens, and the last of them may be `malformed`. -/

namespace QuadIndex.Json

inductive Token where
  | openObject
  | closeObject
  | openArray
  | closeArray
  | comma
  | colon
  | null
  | bool (b : Bool)
  /-- A number, or nothing if it is too large for a double. -/
  | number (n : Option Number)
  /-- A string, or nothing if its escapes name half a surrogate pair. -/
  | string (s : Option String)
  | malformed
  deriving DecidableEq

namespace Token

/-- A part of a string: a character, or an escape that names a code unit of 16 bits. -/
inductive Part where
  | char (c : Char)
  | unit (n : Nat)
  deriving DecidableEq

/-- Joins the parts of a string. Two units that form a surrogate pair name one character; a unit
of a pair without its partner names none. -/
def joinParts : List Part → Option (List Char)
  | [] => some []
  | .char c :: ps => (joinParts ps).map (c :: ·)
  | .unit n :: ps =>
    if n < 0xD800 ∨ 0xDFFF < n then (joinParts ps).map (Char.ofNat n :: ·)
    else
      match ps with
      | .unit m :: ps =>
        if n < 0xDC00 ∧ 0xDC00 ≤ m ∧ m ≤ 0xDFFF then
          (joinParts ps).map (Char.ofNat (0x10000 + (n - 0xD800) * 0x400 + (m - 0xDC00)) :: ·)
        else none
      | _ => none

def hexValue? (c : Char) : Option Nat :=
  if '0' ≤ c ∧ c ≤ '9' then some (c.toNat - '0'.toNat)
  else if 'a' ≤ c ∧ c ≤ 'f' then some (c.toNat - 'a'.toNat + 10)
  else if 'A' ≤ c ∧ c ≤ 'F' then some (c.toNat - 'A'.toNat + 10)
  else none

def hexUnit? (a b c d : Char) : Option Nat := do
  let a ← hexValue? a
  let b ← hexValue? b
  let c ← hexValue? c
  let d ← hexValue? d
  return ((a * 16 + b) * 16 + c) * 16 + d

def escape? : Char → Option Char
  | '"' => some '"'
  | '\\' => some '\\'
  | '/' => some '/'
  | 'b' => some '\x08'
  | 'f' => some '\x0c'
  | 'n' => some '\n'
  | 'r' => some '\r'
  | 't' => some '\t'
  | _ => none

/-- Reads a string after its opening quote: its parts, and what follows the closing quote. -/
def readParts? : List Char → Option (List Part × List Char)
  | [] => none
  | '"' :: cs => some ([], cs)
  | '\\' :: 'u' :: a :: b :: c :: d :: cs => do
    let n ← hexUnit? a b c d
    let (ps, rest) ← readParts? cs
    return (.unit n :: ps, rest)
  | '\\' :: e :: cs => do
    let c ← escape? e
    let (ps, rest) ← readParts? cs
    return (.char c :: ps, rest)
  | c :: cs =>
    if c.toNat < 0x20 then none
    else do
      let (ps, rest) ← readParts? cs
      return (.char c :: ps, rest)

def readDigits? (cs : List Char) : Option (List Char × List Char) :=
  match cs.takeWhile Char.isDigit with
  | [] => none
  | ds => some (ds, cs.dropWhile Char.isDigit)

/-- The digits before the point: a leading zero stands alone. -/
def readWhole? (cs : List Char) : Option (List Char × List Char) := do
  let (ds, rest) ← readDigits? cs
  if ds.head? = some '0' ∧ ds.length ≠ 1 then none else some (ds, rest)

def readFraction? : List Char → Option (Option (List Char) × List Char)
  | '.' :: cs => do
    let (ds, rest) ← readDigits? cs
    return (some ds, rest)
  | cs => some (none, cs)

def readExponentDigits? (up : Bool) (cs : List Char) :
    Option (Option (Bool × List Char) × List Char) := do
  let (ds, rest) ← readDigits? cs
  return (some (up, ds), rest)

def readExponent? : List Char → Option (Option (Bool × List Char) × List Char)
  | c :: cs =>
    if c = 'e' ∨ c = 'E' then
      match cs with
      | '+' :: cs => readExponentDigits? true cs
      | '-' :: cs => readExponentDigits? false cs
      | cs => readExponentDigits? true cs
    else some (none, c :: cs)
  | [] => some (none, [])

def readUnsigned? (negative : Bool) (cs : List Char) : Option (Number.Spelling × List Char) := do
  let (whole, cs) ← readWhole? cs
  let (fraction, cs) ← readFraction? cs
  let (exponent, cs) ← readExponent? cs
  return (⟨negative, whole, fraction, exponent⟩, cs)

def readNumber? : List Char → Option (Number.Spelling × List Char)
  | '-' :: cs => readUnsigned? true cs
  | cs => readUnsigned? false cs

def isSpace (c : Char) : Bool := c = ' ' || c = '\t' || c = '\n' || c = '\r'

def read? : List Char → Option (Token × List Char)
  | '\x7b' :: cs => some (openObject, cs)
  | '\x7d' :: cs => some (closeObject, cs)
  | '[' :: cs => some (openArray, cs)
  | ']' :: cs => some (closeArray, cs)
  | ',' :: cs => some (comma, cs)
  | ':' :: cs => some (colon, cs)
  | 'n' :: 'u' :: 'l' :: 'l' :: cs => some (null, cs)
  | 't' :: 'r' :: 'u' :: 'e' :: cs => some (bool true, cs)
  | 'f' :: 'a' :: 'l' :: 's' :: 'e' :: cs => some (bool false, cs)
  | '"' :: cs => (readParts? cs).map fun r => (string ((joinParts r.1).map String.ofList), r.2)
  | cs => (readNumber? cs).map fun r => (number (Number.ofSpelling? r.1), r.2)

/-- Scans tokens, `fuel` characters at most. -/
def scanUpTo : Nat → List Char → List Token
  | 0, _ => []
  | _, [] => []
  | fuel + 1, c :: cs =>
    if isSpace c then scanUpTo fuel cs
    else
      match read? (c :: cs) with
      | none => [malformed]
      | some (t, rest) => t :: scanUpTo fuel rest

/-- The tokens of a text. Each takes at least one character, so its length is fuel enough. -/
def scan (cs : List Char) : List Token := scanUpTo cs.length cs

end Token
end QuadIndex.Json
