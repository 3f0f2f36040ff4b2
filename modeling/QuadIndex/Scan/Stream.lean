import QuadIndex.Pattern.Paging
import QuadIndex.Scan.Basic

/-! Result streams: the rows of several scans one after the other, decoded, filtered and paged.
A stream is a value; each poll takes the engine as it is then. It opens a cursor only when the one
before is exhausted, so it never reads ahead and never has two cursors open. -/

namespace QuadIndex

structure ActiveScan (κ : Type) where
  cursor : κ
  filter : Option (List Predicate)
  indexName : String
  rows : Nat

inductive Phase where
  | ready
  | done
  | failed
  deriving DecidableEq

inductive StreamEvent where
  | opened (indexName : String) (filtered : Bool) (cap : Option Nat)
  | exhausted (indexName : String) (rows : Nat)
  | filteredOut (quad : Quad)
  | failed (indexName : String) (error : QueryError)
  | closed
  deriving DecidableEq

structure ResultStream (κ : Type) where
  pending : List Scan
  active : Option (ActiveScan κ)
  /-- Results still to pass over. -/
  skip : Nat
  /-- Results still to give. -/
  remaining : Option Nat
  phase : Phase
  /-- What has happened, the latest first. -/
  journal : List StreamEvent

/-- A quad, or the error that ends the stream. -/
abbrev Item := Except QueryError Quad

namespace ResultStream

variable {σ κ : Type}

/-- A stream that has read nothing yet. With a limit of zero it is done at once. -/
def ofScans (scans : List Scan) (p : Paging) : ResultStream κ :=
  if p.limit = some 0 then ⟨[], none, p.offset, p.limit, .done, []⟩
  else ⟨scans, none, p.offset, p.limit, .ready, []⟩

def hasOpenCursor (st : ResultStream κ) : Bool := st.active.isSome

def isTerminated (st : ResultStream κ) : Bool := st.phase ≠ .ready

/-- Bounds for the number of items still to come. -/
def sizeHint (st : ResultStream κ) : Nat × Option Nat :=
  (0, if st.phase = .ready then st.remaining else some 0)

def note (st : ResultStream κ) (e : StreamEvent) : ResultStream κ :=
  { st with journal := e :: st.journal }

/-- The cap for the rows of a scan. Without a filter every row counts, so no more are wanted than
those to pass over and those to give. -/
def cap (st : ResultStream κ) (s : Scan) : Option Nat :=
  match s.filter, st.remaining with
  | none, some n => some (Paging.addCounts st.skip n)
  | _, _ => s.range.limit

variable [Engine σ κ]

def releaseActive (st : ResultStream κ) (s : σ) : σ :=
  match st.active with
  | some a => Engine.release a.cursor s
  | none => s

/-- Leaves the ready phase for good. -/
def finish (phase : Phase) (st : ResultStream κ) (s : σ) : ResultStream κ × σ :=
  ({ st with pending := [], active := none, phase := phase }, st.releaseActive s)

/-- Stops the stream at the wish of its consumer. -/
def close (st : ResultStream κ) (s : σ) : ResultStream κ × σ :=
  if st.phase = .ready then (st.note .closed).finish .done s else (st, s)

def openScan (st : ResultStream κ) (scan : Scan) (s : σ) : ResultStream κ × σ :=
  let cap := st.cap scan
  let (cursor, s) := Engine.scan { scan.range with limit := cap } s
  let st := st.note (.opened scan.indexName scan.filter.isSome cap)
  ({ st with active := some ⟨cursor, scan.filter, scan.indexName, 0⟩ }, s)

inductive Turn where
  | again
  | give (item : Option Item)

def fail (st : ResultStream κ) (indexName : String) (e : QueryError) (s : σ) :
    Turn × ResultStream κ × σ :=
  (.give (some (.error e)), (st.note (.failed indexName e)).finish .failed s)

/-- Takes a decoded quad: it is filtered out, passed over, or given. -/
def accept (st : ResultStream κ) (a : ActiveScan κ) (q : Quad) (s : σ) :
    Turn × ResultStream κ × σ :=
  if !Scan.passes a.filter q then (.again, st.note (.filteredOut q), s)
  else if 0 < st.skip then (.again, { st with skip := st.skip - 1 }, s)
  else
    let st := { st with remaining := st.remaining.map (· - 1) }
    (.give (some (.ok q)), if st.remaining = some 0 then st.finish .done s else (st, s))

def advance (st : ResultStream κ) (a : ActiveScan κ) (s : σ) : Turn × ResultStream κ × σ :=
  match Engine.next a.cursor s with
  | (none, cursor, s) =>
    (.again, { st.note (.exhausted a.indexName a.rows) with active := none },
      Engine.release cursor s)
  | (some (.error e), cursor, s) =>
    { st with active := some { a with cursor } }.fail a.indexName (.engine e) s
  | (some (.ok value), cursor, s) =>
    let a := { a with cursor, rows := a.rows + 1 }
    let st := { st with active := some a }
    match Record.decode value with
    | .error f => st.fail a.indexName (.engine (.corruption f.message)) s
    | .ok q => st.accept a q s

/-- One turn: open the next scan, or read one row of the active one. -/
def turn (st : ResultStream κ) (s : σ) : Turn × ResultStream κ × σ :=
  if st.phase ≠ .ready then (.give none, st, s)
  else
    match st.active, st.pending with
    | some a, _ => st.advance a s
    | none, scan :: pending => (.again, { st with pending }.openScan scan s)
    | none, [] => (.give none, st.finish .done s)

/-- Takes turns until one gives an answer, `fuel` turns at most. -/
def pollUpTo : Nat → ResultStream κ → σ → Option Item × ResultStream κ × σ
  | 0, st, s => (none, st, s)
  | fuel + 1, st, s =>
    match st.turn s with
    | (.again, st, s) => pollUpTo fuel st s
    | (.give item, st, s) => (item, st, s)

/-- More turns than a poll can take: each scan is opened, gives every row of the table at most once,
and ends. -/
def turnBound (st : ResultStream κ) (s : σ) : Nat :=
  (st.pending.length + 1) * ((Engine.table s).size + 2) + 1

def poll (st : ResultStream κ) (s : σ) : Option Item × ResultStream κ × σ :=
  pollUpTo (st.turnBound s) st s

/-- Polls until nothing comes, `fuel` times at most. -/
def drainUpTo : Nat → ResultStream κ → σ → List Item × ResultStream κ × σ
  | 0, st, s => ([], st, s)
  | fuel + 1, st, s =>
    match st.poll s with
    | (none, st, s) => ([], st, s)
    | (some item, st, s) =>
      let (items, st, s) := drainUpTo fuel st s
      (item :: items, st, s)

def drain (st : ResultStream κ) (s : σ) : List Item × ResultStream κ × σ :=
  drainUpTo (st.turnBound s) st s

/-- All quads that are still to come, or the error instead of them. -/
def collect (st : ResultStream κ) (s : σ) : Except QueryError (List Quad) × σ :=
  let (items, _, s) := st.drain s
  (items.mapM id, s)

end ResultStream
end QuadIndex
