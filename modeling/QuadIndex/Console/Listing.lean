import QuadIndex.Quad.Basic
import QuadIndex.Text.Lines

/-! Listings of quads: a quad on each line, its fields between tabs. Blank lines and lines that
begin with a number sign say nothing; a line of three fields has no context. -/

namespace QuadIndex.Listing

/-- A line with a wrong count of fields. -/
structure Fault where
  lineNumber : Nat
  count : Nat
  deriving DecidableEq

def Fault.message (f : Fault) : String :=
  s!"line {f.lineNumber}: expected 3 or 4 tab-separated fields, got {f.count}"

def isSkipped (line : List Char) : Bool := line.all Text.isBlank || line.head? = some '#'

def readLine (number : Nat) (line : List Char) : Except Fault Quad :=
  match (Text.pieces '\t' line).map String.ofList with
  | [s, p, o] => .ok ⟨s, p, o, ""⟩
  | [s, p, o, c] => .ok ⟨s, p, o, c⟩
  | fields => .error ⟨number, fields.length⟩

def readLines (number : Nat) : List (List Char) → Except Fault (List Quad)
  | [] => .ok []
  | line :: rest => do
    if isSkipped line then readLines (number + 1) rest
    else
      let q ← readLine number line
      let qs ← readLines (number + 1) rest
      return q :: qs

def parse (text : String) : Except Fault (List Quad) := readLines 1 (Text.lines text.toList)

def render (qs : List Quad) : String := String.join (qs.map fun q => q.line ++ "\n")

end QuadIndex.Listing
