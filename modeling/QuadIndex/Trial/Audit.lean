import QuadIndex.Engine.Faulty
import QuadIndex.Pattern.Paging
import QuadIndex.Store.Error
import QuadIndex.Trial.Model

/-! Audits: what the answers of a store are held against, and the findings where they fail. -/

namespace QuadIndex

inductive Finding where
  | resultDiffers (pattern : Pattern) (missing unexpected : List Quad)
  | notASlice (paging : Paging) (full paged : Nat)
  | cursorLeftOpen (counters : Counters)
  | severalCursors (counters : Counters)
  | unexpectedError (error : StoreError)
  deriving DecidableEq

def Counters.inspect (c : Counters) : String :=
  Inspect.fields "SimulatedStoreStats"
    [("cursors_opened", toString c.cursorsOpened), ("open_cursors", toString c.openCursors),
     ("max_open_cursors", toString c.maxOpenCursors), ("rows_read", toString c.rowsRead),
     ("batches_written", toString c.batchesWritten),
     ("injected_read_errors", toString c.injectedReadErrors),
     ("injected_write_errors", toString c.injectedWriteErrors)]

namespace Finding

def description : Finding → String
  | resultDiffers .. => "query result differs from reference model"
  | notASlice .. => "paged result is not a slice of the full result"
  | cursorLeftOpen _ => "cursor left open after query completed"
  | severalCursors _ => "more than one cursor open at once"
  | unexpectedError _ => "unexpected store error"

def context : Finding → String
  | resultDiffers p missing unexpected =>
    "spec " ++ p.inspect ++ "; missing " ++ Text.quotedList (missing.map Quad.line) ++
      "; unexpected " ++ Text.quotedList (unexpected.map Quad.line)
  | notASlice paging full paged =>
    "options " ++ paging.inspect ++ s!"; full {full}; paged {paged}"
  | cursorLeftOpen c | severalCursors c => c.inspect
  | unexpectedError e => e.message

end Finding

structure Violation where
  operation : Nat
  finding : Finding
  deriving DecidableEq

namespace Audit

/-- The results of a query, taken as a set, are those that the model expects. -/
def query (p : Pattern) (results : List Quad) (m : Model) : List Finding :=
  let actual := Quad.ascending results
  let expected := m.expected p
  if actual = expected then []
  else [.resultDiffers p (expected.filter (· ∉ actual)) (actual.filter (· ∉ expected))]

/-- A page is the slice of the full results that was asked for. -/
def paging (p : Paging) (full paged : List Quad) : List Finding :=
  if paged = p.slice full then [] else [.notASlice p full.length paged.length]

/-- No cursor is left open, and there was never more than one. -/
def cursors (c : Counters) : List Finding :=
  (if c.openCursors = 0 then [] else [.cursorLeftOpen c]) ++
    if c.maxOpenCursors ≤ 1 then [] else [.severalCursors c]

def located (operation : Nat) (fs : List Finding) : List Violation := fs.map (⟨operation, ·⟩)

end Audit
end QuadIndex
