/-! UTF-8 as lists of bytes: the encoding of a string, and a decoder that says where and how an
ill-formed byte sequence goes wrong. -/

namespace QuadIndex.Text.Utf8

def encode (s : String) : List UInt8 := s.toList.flatMap String.utf8EncodeChar

/-- The first fault of a byte sequence that is not UTF-8. -/
structure Fault where
  /-- How many bytes before the fault are well formed. -/
  validUpTo : Nat
  /-- The length of the ill-formed part, or nothing if the text ends within a character. -/
  length? : Option Nat
  deriving DecidableEq

def Fault.message (f : Fault) : String :=
  match f.length? with
  | some n => s!"invalid utf-8 sequence of {n} bytes from index {f.validUpTo}"
  | none => s!"incomplete utf-8 byte sequence from index {f.validUpTo}"

/-- What a leading byte announces: its own bits, how many bytes follow, and the range allowed for
the first of them. The narrowed ranges shut out overlong forms, surrogates and numbers beyond the
last code point. -/
structure Lead where
  bits : Nat
  following : Nat
  low : Nat
  high : Nat

def lead? (b : Nat) : Option Lead :=
  if b < 0x80 then some ⟨b, 0, 0x80, 0xBF⟩
  else if b < 0xC2 then none
  else if b < 0xE0 then some ⟨b - 0xC0, 1, 0x80, 0xBF⟩
  else if b < 0xF0 then
    some ⟨b - 0xE0, 2, if b = 0xE0 then 0xA0 else 0x80, if b = 0xED then 0x9F else 0xBF⟩
  else if b < 0xF5 then
    some ⟨b - 0xF0, 3, if b = 0xF0 then 0x90 else 0x80, if b = 0xF4 then 0x8F else 0xBF⟩
  else none

/-- The state between two bytes: the characters so far in reverse, where the current character
began, how many of its bytes were read, and what it still needs. -/
structure State where
  chars : List Char
  start : Nat
  read : Nat
  pending : Option Lead

/-- Decodes byte by byte. A byte that cannot continue a character makes the bytes read of that
character the ill-formed part; a byte that cannot begin one is ill formed by itself. -/
def decodeFrom (st : State) : List UInt8 → Except Fault (List Char)
  | [] =>
    match st.pending with
    | none => .ok st.chars.reverse
    | some _ => .error ⟨st.start, none⟩
  | b :: bs =>
    match st.pending with
    | none =>
      match lead? b.toNat with
      | none => .error ⟨st.start, some 1⟩
      | some l =>
        if l.following = 0 then
          decodeFrom ⟨Char.ofNat l.bits :: st.chars, st.start + 1, 0, none⟩ bs
        else decodeFrom ⟨st.chars, st.start, 1, some l⟩ bs
    | some l =>
      if l.low ≤ b.toNat ∧ b.toNat ≤ l.high then
        let bits := l.bits * 64 + (b.toNat - 0x80)
        if l.following = 1 then
          decodeFrom ⟨Char.ofNat bits :: st.chars, st.start + st.read + 1, 0, none⟩ bs
        else
          decodeFrom ⟨st.chars, st.start, st.read + 1, some ⟨bits, l.following - 1, 0x80, 0xBF⟩⟩ bs
      else .error ⟨st.start, some st.read⟩

def decode (bs : List UInt8) : Except Fault String :=
  (decodeFrom ⟨[], 0, 0, none⟩ bs).map String.ofList

end QuadIndex.Text.Utf8
