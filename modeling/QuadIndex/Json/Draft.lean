import QuadIndex.Json.Token

/-! What a JSON text says as far as it goes. A draft is a value in which `broken` marks the place
where the text stops being JSON; what comes before that place can still be read, so of two faults
in a text the first one is reported. -/

namespace QuadIndex.Json

inductive Draft where
  | null
  | bool (b : Bool)
  /-- A number, or nothing if it is too large for a double. -/
  | number (n : Option Number)
  /-- A string, or nothing if its escapes name half a surrogate pair. -/
  | string (s : Option String)
  | array (items : List Draft)
  | object (members : List (Option String × Draft))
  | broken

namespace Draft

instance : Inhabited Draft := ⟨broken⟩

mutual

/-- A whole draft has no broken place. -/
def isWhole : Draft → Bool
  | broken => false
  | array items => allWhole items
  | object members => membersWhole members
  | _ => true

def allWhole : List Draft → Bool
  | [] => true
  | d :: ds => d.isWhole && allWhole ds

def membersWhole : List (Option String × Draft) → Bool
  | [] => true
  | (_, d) :: ms => d.isWhole && membersWhole ms

end

mutual

def ofValue : Json → Draft
  | .null => null
  | .bool b => bool b
  | .number n => number (some n)
  | .string s => string (some s)
  | .array items => array (ofItems items)
  | .object members => object (ofMembers members)

def ofItems : List Json → List Draft
  | [] => []
  | v :: vs => ofValue v :: ofItems vs

def ofMembers : List (String × Json) → List (Option String × Draft)
  | [] => []
  | (k, v) :: ms => (some k, ofValue v) :: ofMembers ms

end

/-- An array or object that is being read, with its parts so far in reverse. -/
inductive Frame where
  | array (items : List Draft)
  | object (members : List (Option String × Draft))
  /-- An object whose next member has its key and lacks its value. -/
  | member (members : List (Option String × Draft)) (key : Option String)

/-- Closes a frame with one more part. A part that comes where a key is due has no key. -/
def Frame.close (d : Draft) : Frame → Draft
  | array items => .array ((d :: items).reverse)
  | object members => .object (((none, d) :: members).reverse)
  | member members key => .object (((key, d) :: members).reverse)

/-- The draft when the text breaks within the given frames, the innermost first. -/
def brokenIn (stack : List Frame) : Draft := stack.foldl Frame.close broken

/-- Puts a value into the innermost frame; outside all frames there is none. -/
def settle (d : Draft) : List Frame → Option (List Frame)
  | [] => none
  | .array items :: stack => some (.array (d :: items) :: stack)
  | .object members :: stack => some (.object ((none, d) :: members) :: stack)
  | .member members key :: stack => some (.object ((key, d) :: members) :: stack)

inductive Expecting where
  | value
  | itemOrClose
  | keyOrClose
  | key
  | colon
  | commaOrClose
  deriving DecidableEq

/-- A draft, and whether the text ends with it. -/
structure Document where
  root : Draft
  ended : Bool

/-- Where reading stands: in the midst of a text, after a value that completes it, or at a place
that cannot be. -/
inductive Step where
  | more (e : Expecting) (stack : List Frame)
  | complete (d : Draft)
  | stuck

def delivered (d : Draft) (stack : List Frame) : Step :=
  match settle d stack with
  | some stack => .more .commaOrClose stack
  | none => .complete d

def startValue (stack : List Frame) : Token → Step
  | .null => delivered null stack
  | .bool b => delivered (bool b) stack
  | .number n => delivered (number n) stack
  | .string s => delivered (string s) stack
  | .openArray => .more .itemOrClose (.array [] :: stack)
  | .openObject => .more .keyOrClose (.object [] :: stack)
  | _ => .stuck

def startMember : List Frame → Token → Step
  | .object members :: stack, .string k => .more .colon (.member members k :: stack)
  | _, _ => .stuck

def step : Expecting → List Frame → Token → Step
  | .itemOrClose, .array items :: stack, .closeArray => delivered (array items.reverse) stack
  | .value, stack, t | .itemOrClose, stack, t => startValue stack t
  | .keyOrClose, .object members :: stack, .closeObject =>
    delivered (object members.reverse) stack
  | .key, stack, t | .keyOrClose, stack, t => startMember stack t
  | .colon, stack, .colon => .more .value stack
  | .commaOrClose, .array items :: stack, .comma => .more .value (.array items :: stack)
  | .commaOrClose, .array items :: stack, .closeArray => delivered (array items.reverse) stack
  | .commaOrClose, .object members :: stack, .comma => .more .key (.object members :: stack)
  | .commaOrClose, .object members :: stack, .closeObject =>
    delivered (object members.reverse) stack
  | _, _, _ => .stuck

def build (e : Expecting) (stack : List Frame) : List Token → Document
  | [] => ⟨brokenIn stack, true⟩
  | t :: ts =>
    match step e stack t with
    | .more e stack => build e stack ts
    | .complete d => ⟨d, ts.isEmpty⟩
    | .stuck => ⟨brokenIn stack, true⟩

end Draft

def Draft.ofTokens (ts : List Token) : Draft.Document := Draft.build .value [] ts

def Draft.ofText (text : String) : Draft.Document := ofTokens (Token.scan text.toList)

end QuadIndex.Json
