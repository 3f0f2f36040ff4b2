import QuadIndex.Quad.Basic
import QuadIndex.Quad.Checksum
import QuadIndex.Text.Quoted
import QuadIndex.Text.Utf8

/-! The stored form of a quad: for each field in canonical order its length in 32 bits and its
UTF-8 bytes, and at the end the checksum of all that. -/

namespace QuadIndex

abbrev Bytes := List UInt8

namespace Record

/-- A number modulo 2^32, lowest byte first. -/
def wordBytes (n : Nat) : Bytes :=
  [UInt8.ofNat n, UInt8.ofNat (n / 0x100), UInt8.ofNat (n / 0x10000), UInt8.ofNat (n / 0x1000000)]

/-- The number that four bytes spell, and what follows them. -/
def readWord? : Bytes → Option (Nat × Bytes)
  | a :: b :: c :: d :: rest =>
    some (a.toNat + b.toNat * 0x100 + c.toNat * 0x10000 + d.toNat * 0x1000000, rest)
  | _ => none

def encodeField (value : String) : Bytes :=
  wordBytes (Text.Utf8.encode value).length ++ Text.Utf8.encode value

/-- The fields without the checksum. -/
def payload (q : Quad) : Bytes := Term.all.flatMap fun t => encodeField (q.get t)

def encode (q : Quad) : Bytes :=
  payload q ++ wordBytes (Checksum.crc32 (payload q)).toNat

inductive Fault where
  | tooShort (length : Nat)
  | checksum (stored computed : Nat)
  | lengthCut (term : Term)
  | fieldCut (term : Term)
  | notUtf8 (term : Term) (fault : Text.Utf8.Fault)
  | trailing (count : Nat)
  deriving DecidableEq

def hexWord (n : Nat) : String :=
  let digits := Text.hexDigits n
  "0x" ++ String.ofList (List.replicate (8 - digits.length) '0' ++ digits)

def Fault.message : Fault → String
  | tooShort n => s!"quad record too short ({n} bytes)"
  | checksum stored computed =>
    "quad record checksum mismatch: expected " ++ hexWord stored ++ ", got " ++ hexWord computed
  | lengthCut t => s!"quad record truncated before {t.name} length"
  | fieldCut t => s!"quad record truncated inside {t.name}"
  | notUtf8 t f => s!"{t.name} is not valid UTF-8: {f.message}"
  | trailing n => s!"quad record has {n} trailing bytes"

def readField (t : Term) (bs : Bytes) : Except Fault (String × Bytes) :=
  match readWord? bs with
  | none => .error (.lengthCut t)
  | some (n, rest) =>
    if rest.length < n then .error (.fieldCut t)
    else
      match Text.Utf8.decode (rest.take n) with
      | .error f => .error (.notUtf8 t f)
      | .ok value => .ok (value, rest.drop n)

/-- Reads the four fields, which must use up all bytes. -/
def readPayload (bs : Bytes) : Except Fault Quad := do
  let (subject, bs) ← readField .subject bs
  let (predicate, bs) ← readField .predicate bs
  let (object, bs) ← readField .object bs
  let (context, bs) ← readField .context bs
  if bs.isEmpty then .ok ⟨subject, predicate, object, context⟩
  else .error (.trailing bs.length)

/-- Four lengths and the checksum take twenty bytes. -/
def minLength : Nat := 20

/-- The length is checked before the checksum, and the checksum before the fields. -/
def decode (bs : Bytes) : Except Fault Quad :=
  if bs.length < minLength then .error (.tooShort bs.length)
  else
    let body := bs.take (bs.length - 4)
    match readWord? (bs.drop (bs.length - 4)) with
    | none => .error (.tooShort bs.length)
    | some (stored, _) =>
      let computed := (Checksum.crc32 body).toNat
      if stored = computed then readPayload body else .error (.checksum stored computed)

end Record
end QuadIndex
