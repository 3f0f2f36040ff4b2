import QuadIndex.Console.Arguments
import QuadIndex.Console.Listing
import QuadIndex.Console.Log
import QuadIndex.Console.Run
import QuadIndex.Engine.Basic
import QuadIndex.Engine.Chance
import QuadIndex.Engine.Faulty
import QuadIndex.Engine.Keystream
import QuadIndex.Index.Basic
import QuadIndex.Index.Registry
import QuadIndex.Json.Draft
import QuadIndex.Json.Number
import QuadIndex.Json.Reading
import QuadIndex.Json.Shortest
import QuadIndex.Json.Token
import QuadIndex.Json.Value
import QuadIndex.Main
import QuadIndex.Pattern.Basic
import QuadIndex.Pattern.Branch
import QuadIndex.Pattern.Constraint
import QuadIndex.Pattern.Inspect
import QuadIndex.Pattern.Json
import QuadIndex.Pattern.Paging
import QuadIndex.Plan.Basic
import QuadIndex.Plan.Predicate
import QuadIndex.Plan.Strategy
import QuadIndex.Proofs.Console.Listing
import QuadIndex.Proofs.Engine.Chance
import QuadIndex.Proofs.Engine.Counters
import QuadIndex.Proofs.Engine.Lawful
import QuadIndex.Proofs.Engine.Session
import QuadIndex.Proofs.Engine.Tally
import QuadIndex.Proofs.Engine.Trigger
import QuadIndex.Proofs.Index.Codes
import QuadIndex.Proofs.Index.KeyGroup
import QuadIndex.Proofs.Index.KeyOrder
import QuadIndex.Proofs.Index.KeySpace
import QuadIndex.Proofs.Json.ReadBack
import QuadIndex.Proofs.Json.Rendering
import QuadIndex.Proofs.Json.Tokens
import QuadIndex.Proofs.Pattern.Division
import QuadIndex.Proofs.Pattern.Edits
import QuadIndex.Proofs.Pattern.Enumeration
import QuadIndex.Proofs.Pattern.Faults
import QuadIndex.Proofs.Pattern.Pushes
import QuadIndex.Proofs.Pattern.Reading
import QuadIndex.Proofs.Plan.Choice
import QuadIndex.Proofs.Plan.Pushdown
import QuadIndex.Proofs.Plan.Reach
import QuadIndex.Proofs.Plan.Span
import QuadIndex.Proofs.Quad.Ascending
import QuadIndex.Proofs.Record.Damage
import QuadIndex.Proofs.Record.Remainder
import QuadIndex.Proofs.Record.RoundTrip
import QuadIndex.Proofs.Scan.Agenda
import QuadIndex.Proofs.Scan.Cursors
import QuadIndex.Proofs.Scan.Delivery
import QuadIndex.Proofs.Scan.Demand
import QuadIndex.Proofs.Scan.Plain
import QuadIndex.Proofs.Scan.Progress
import QuadIndex.Proofs.Scan.Recorder
import QuadIndex.Proofs.Scan.Turn
import QuadIndex.Proofs.Settings
import QuadIndex.Proofs.Store.Answer
import QuadIndex.Proofs.Store.Backfill
import QuadIndex.Proofs.Store.Content
import QuadIndex.Proofs.Store.Failure
import QuadIndex.Proofs.Store.History
import QuadIndex.Proofs.Store.Mirror
import QuadIndex.Proofs.Store.Operations
import QuadIndex.Proofs.Store.Replacement
import QuadIndex.Proofs.Store.Retrieval
import QuadIndex.Proofs.Store.Stage
import QuadIndex.Proofs.Store.Watch
import QuadIndex.Proofs.Table.Contents
import QuadIndex.Proofs.Table.Cursor
import QuadIndex.Proofs.Table.Gaps
import QuadIndex.Proofs.Table.Guarded
import QuadIndex.Proofs.Table.Traversal
import QuadIndex.Proofs.Text.Lex
import QuadIndex.Proofs.Text.Lines
import QuadIndex.Proofs.Text.Pieces
import QuadIndex.Proofs.Text.Utf8
import QuadIndex.Proofs.Trial.Admissible
import QuadIndex.Proofs.Trial.Audit
import QuadIndex.Proofs.Trial.Run
import QuadIndex.Proofs.Trial.Workload
import QuadIndex.Quad.Basic
import QuadIndex.Quad.Checksum
import QuadIndex.Quad.Json
import QuadIndex.Quad.Record
import QuadIndex.Quad.Term
import QuadIndex.Scan.Basic
import QuadIndex.Scan.Stream
import QuadIndex.Settings
import QuadIndex.Store.Basic
import QuadIndex.Store.Error
import QuadIndex.Table.Basic
import QuadIndex.Table.Bound
import QuadIndex.Table.Cursor
import QuadIndex.Text.Blank
import QuadIndex.Text.Lines
import QuadIndex.Text.Quoted
import QuadIndex.Text.Unprinted
import QuadIndex.Text.Utf8
import QuadIndex.Trial.Audit
import QuadIndex.Trial.Model
import QuadIndex.Trial.Run
import QuadIndex.Trial.Survey
import QuadIndex.Trial.Workload
