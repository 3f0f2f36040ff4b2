import QuadIndex.Text.Unprinted

/-! Quoted text for messages: a value is put between quotes, and every character that would be
lost on the page is written as an escape. -/

namespace QuadIndex.Text

/-- Lower-case hexadecimal digits of a number, most significant first. -/
def hexDigits (n : Nat) : List Char := Nat.toDigits 16 n

/-- One character inside quotes of the given kind. A quote of the other kind is left alone. -/
def quotedChar (quote c : Char) : List Char :=
  if c = quote ∨ c = '\\' then ['\\', c]
  else if c = '\x00' then ['\\', '0']
  else if c = '\t' then ['\\', 't']
  else if c = '\n' then ['\\', 'n']
  else if c = '\r' then ['\\', 'r']
  else if isUnprinted c then ['\\', 'u', '\x7b'] ++ hexDigits c.toNat ++ ['\x7d']
  else [c]

def quoted (s : String) : String :=
  String.ofList ('"' :: s.toList.flatMap (quotedChar '"') ++ ['"'])

def quotedSingle (c : Char) : String :=
  String.ofList ('\x27' :: quotedChar '\x27' c ++ ['\x27'])

def quotedList (ss : List String) : String :=
  "[" ++ String.intercalate ", " (ss.map quoted) ++ "]"

end QuadIndex.Text
