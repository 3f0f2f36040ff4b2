import QuadIndex.Text.Blank

/-! The lines of a text. -/

namespace QuadIndex.Text

def dropReturn (line : List Char) : List Char :=
  match line.getLast? with
  | some '\r' => line.dropLast
  | _ => line

/-- Lines end with a line feed, which may have a carriage return before it. What stands after the
last line feed is a line too, unless it is empty. -/
def lines (cs : List Char) : List (List Char) :=
  let ps := pieces '\n' cs
  let ended := ps.dropLast.map dropReturn
  match ps.getLast? with
  | none | some [] => ended
  | some rest => ended ++ [rest]

end QuadIndex.Text
