import QuadIndex.Pattern.Paging

/-! The arguments of the command line: a file of quads, a pattern, and a page. -/

namespace QuadIndex

structure Arguments where
  path : String
  pattern : Option String
  paging : Paging
  deriving DecidableEq

inductive ArgumentError where
  | missingValue (option : String)
  | notACount (option value : String)
  | unexpected (argument : String)
  | missingPath
  deriving DecidableEq

def ArgumentError.message : ArgumentError → String
  | missingValue option => s!"{option} requires a value"
  | notACount option value =>
    s!"{option} expects a non-negative integer, got {Text.quoted value}"
  | unexpected argument => s!"unexpected argument {Text.quoted argument}"
  | missingPath => "missing quads file"

namespace Arguments

def usage : String :=
  "usage: quadstore <quads.tsv> [match-spec-json] [--offset N] [--limit N]"

/-- The count that digits spell, if there are digits only and the count has at most 64 bits. -/
def ofDigits? (cs : List Char) : Option Nat :=
  if cs ≠ [] ∧ cs.all Char.isDigit then
    let n := cs.foldl (fun n c => n * 10 + (c.toNat - '0'.toNat)) 0
    if n ≤ Paging.maxCount then some n else none
  else none

def readCount? (text : String) : Option Nat :=
  match text.toList with
  | '+' :: cs => ofDigits? cs
  | cs => ofDigits? cs

structure Given where
  path : Option String := none
  pattern : Option String := none
  paging : Paging := {}

def setOption (option : String) (n : Nat) (p : Paging) : Paging :=
  if option = "--offset" then { p with offset := n } else { p with limit := some n }

/-- Reads arguments from left to right. The first that is no option is the file, the second the
pattern. -/
def readAll (a : Given) : List String → Except ArgumentError Given
  | [] => .ok a
  | [arg] =>
    if arg = "--offset" ∨ arg = "--limit" then .error (.missingValue arg)
    else place a arg
  | arg :: value :: rest =>
    if arg = "--offset" ∨ arg = "--limit" then
      match readCount? value with
      | none => .error (.notACount arg value)
      | some n => readAll { a with paging := setOption arg n a.paging } rest
    else
      match place a arg with
      | .error e => .error e
      | .ok a => readAll a (value :: rest)
where
  place (a : Given) (arg : String) : Except ArgumentError Given :=
    match a.path, a.pattern with
    | none, _ => .ok { a with path := some arg }
    | some _, none => .ok { a with pattern := some arg }
    | some _, some _ => .error (.unexpected arg)

def parse (args : List String) : Except ArgumentError Arguments := do
  let a ← readAll {} args
  match a.path with
  | none => throw .missingPath
  | some path => return ⟨path, a.pattern, a.paging⟩

end Arguments
end QuadIndex
