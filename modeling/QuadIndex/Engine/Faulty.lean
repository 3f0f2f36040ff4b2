import QuadIndex.Engine.Basic
import QuadIndex.Engine.Chance

/-! Engines that fail on purpose: a table whose reads and writes may fail by chance, or after a set
number of rows, and which counts what is done to it. -/

namespace QuadIndex

structure FaultRates where
  read : Rate
  write : Rate
  deriving DecidableEq, Inhabited

namespace FaultRates

def none : FaultRates := ⟨.zero, .zero⟩

def low : FaultRates := ⟨⟨1, 3⟩, ⟨1, 3⟩⟩

def high : FaultRates := ⟨⟨5, 2⟩, ⟨5, 2⟩⟩

/-- Some operation may fail by chance. -/
def injects (r : FaultRates) : Bool := r.read.isPositive || r.write.isPositive

end FaultRates

structure Counters where
  cursorsOpened : Nat := 0
  openCursors : Nat := 0
  maxOpenCursors : Nat := 0
  rowsRead : Nat := 0
  batchesWritten : Nat := 0
  injectedReadErrors : Nat := 0
  injectedWriteErrors : Nat := 0
  deriving DecidableEq, Inhabited

namespace Counters

def opened (c : Counters) : Counters :=
  { c with
    cursorsOpened := c.cursorsOpened + 1
    openCursors := c.openCursors + 1
    maxOpenCursors := max c.maxOpenCursors (c.openCursors + 1) }

def closed (c : Counters) : Counters := { c with openCursors := c.openCursors - 1 }

/-- Starts anew; the cursors that are open stay counted. -/
def reset (c : Counters) : Counters :=
  { openCursors := c.openCursors, maxOpenCursors := c.openCursors }

end Counters

structure FaultyEngine where
  table : Table
  rates : FaultRates
  chance : Chance
  /-- Reads fail once after this many more rows. -/
  failAfter : Option Nat
  counters : Counters

/-- A cursor of a failing engine, until it is closed. -/
structure FaultyCursor where
  inner : Cursor
  isOpen : Bool
  deriving DecidableEq

namespace FaultyEngine

def make (words : Nat → UInt32) (rates : FaultRates) : FaultyEngine :=
  ⟨.empty, rates, .ofWords words, none, {}⟩

def count (e : FaultyEngine) (f : Counters → Counters) : FaultyEngine :=
  { e with counters := f e.counters }

def resetCounters (e : FaultyEngine) : FaultyEngine := e.count Counters.reset

def setRates (rates : FaultRates) (e : FaultyEngine) : FaultyEngine := { e with rates }

/-- Lets a number of rows more be read, and then one read fail. -/
def failScanAfter (rows : Nat) (e : FaultyEngine) : FaultyEngine :=
  { e with failAfter := some rows }

/-- Decides whether an operation fails. A rate that is not positive takes no word. -/
def strikes (e : FaultyEngine) (r : Rate) : Bool × FaultyEngine :=
  if r.isPositive then
    let (b, chance) := Chance.happens r e.chance
    (b, { e with chance })
  else (false, e)

def write (b : Batch) (e : FaultyEngine) : Except EngineError Unit × FaultyEngine :=
  let e := e.count fun c => { c with batchesWritten := c.batchesWritten + 1 }
  match e.strikes e.rates.write with
  | (true, e) =>
    (.error (.injectedFault "simulated write error"),
      e.count fun c => { c with injectedWriteErrors := c.injectedWriteErrors + 1 })
  | (false, e) => (.ok (), { e with table := e.table.apply b })

def scan (r : KeyRange) (e : FaultyEngine) : FaultyCursor × FaultyEngine :=
  (⟨.ofRange r, true⟩, e.count Counters.opened)

/-- Closes a cursor, which counts only once. -/
def close (c : FaultyCursor) (e : FaultyEngine) : FaultyCursor × FaultyEngine :=
  if c.isOpen then ({ c with isOpen := false }, e.count Counters.closed) else (c, e)

/-- The fault that a read meets, if any. The set number of rows goes before chance. -/
def readFault (e : FaultyEngine) : Option EngineError × FaultyEngine :=
  let struck (e : FaultyEngine) :=
    e.count fun c => { c with injectedReadErrors := c.injectedReadErrors + 1 }
  if e.failAfter = some 0 then
    (some (.injectedFault "simulated scan failure"), struck { e with failAfter := none })
  else
    match e.strikes e.rates.read with
    | (true, e) => (some (.injectedFault "simulated read error"), struck e)
    | (false, e) => (none, e)

def rowRead (e : FaultyEngine) : FaultyEngine :=
  { e.count fun c => { c with rowsRead := c.rowsRead + 1 } with
    failAfter := e.failAfter.map (· - 1) }

/-- The next row of a cursor. A fault or the end closes it. -/
def next (c : FaultyCursor) (e : FaultyEngine) :
    Option (Except EngineError Bytes) × FaultyCursor × FaultyEngine :=
  if c.isOpen then
    match e.readFault with
    | (some error, e) => (some (.error error), close c e)
    | (none, e) =>
      match c.inner.next e.table with
      | (some entry, inner) => (some (.ok entry.2), { c with inner }, e.rowRead)
      | (none, inner) => (none, close { c with inner } e)
  else (none, c, e)

instance : Engine FaultyEngine FaultyCursor where
  table := table
  write := write
  scan := scan
  next := next
  release c e := (close c e).2

end FaultyEngine
end QuadIndex
