import QuadIndex.Json.Number
import QuadIndex.Text.Quoted

/-! JSON values, with the members of an object in order, and their text. -/

namespace QuadIndex

inductive Json where
  | null
  | bool (b : Bool)
  | number (n : Json.Number)
  | string (s : String)
  | array (items : List Json)
  | object (members : List (String × Json))

namespace Json

def escapedChar (c : Char) : List Char :=
  if c = '"' then ['\\', '"']
  else if c = '\\' then ['\\', '\\']
  else if c = '\x08' then ['\\', 'b']
  else if c = '\x0c' then ['\\', 'f']
  else if c = '\n' then ['\\', 'n']
  else if c = '\r' then ['\\', 'r']
  else if c = '\t' then ['\\', 't']
  else if c.toNat < 0x20 then
    ['\\', 'u', '0', '0', Nat.digitChar (c.toNat / 16), Nat.digitChar (c.toNat % 16)]
  else [c]

def stringChars (s : String) : List Char := '"' :: s.toList.flatMap escapedChar ++ ['"']

mutual

/-- The text of a value, without blanks. -/
def chars : Json → List Char
  | null => ['n', 'u', 'l', 'l']
  | bool true => ['t', 'r', 'u', 'e']
  | bool false => ['f', 'a', 'l', 's', 'e']
  | number n => n.text.toList
  | string s => stringChars s
  | array items => '[' :: itemChars items
  | object members => '\x7b' :: memberChars members

def itemChars : List Json → List Char
  | [] => [']']
  | [v] => v.chars ++ [']']
  | v :: w :: vs => v.chars ++ ',' :: itemChars (w :: vs)

def memberChars : List (String × Json) → List Char
  | [] => ['\x7d']
  | [(k, v)] => stringChars k ++ ':' :: v.chars ++ ['\x7d']
  | (k, v) :: m :: ms => stringChars k ++ ':' :: v.chars ++ ',' :: memberChars (m :: ms)

end

def render (v : Json) : String := String.ofList v.chars

end Json
end QuadIndex
