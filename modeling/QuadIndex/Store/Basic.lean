import QuadIndex.Scan.Stream
import QuadIndex.Settings
import QuadIndex.Store.Error

/-! Quad stores: a set of quads kept in an engine under every index of a registry. Each operation
gives its result and the store after it. -/

namespace QuadIndex

structure Store (σ : Type) where
  engine : σ
  registry : Registry
  defaultContext : String
  /-- The plans of all queries so far, the latest first. -/
  plansRun : List Plan

abbrev Outcome (σ α : Type) := Except StoreError α × Store σ

namespace Store

variable {σ κ : Type}

/-- A store over an engine. The default context must be fit for storing. -/
def make (engine : σ) (settings : Settings) : Except StoreError (Store σ) :=
  match Quad.fault? ⟨"", "", "", settings.defaultContext⟩ with
  | some f => .error (.ofQuadFault f)
  | none => .ok ⟨engine, settings.registry, settings.defaultContext, []⟩

/-- A quad with the given context in place of an empty one. -/
def fillContext (context : String) (q : Quad) : Quad :=
  if q.context = "" then { q with context } else q

/-- The form in which a quad is stored. -/
def normalize (context : String) (q : Quad) : Except StoreError Quad :=
  let q := fillContext context q
  match q.fault? with
  | some f => .error (.ofQuadFault f)
  | none => .ok q

def normalizeAll (context : String) : List Quad → Except StoreError (List Quad)
  | [] => .ok []
  | q :: qs => do
    let q ← normalize context q
    let qs ← normalizeAll context qs
    return q :: qs

def erasures (is : List Index) (qs : List Quad) : Batch :=
  qs.flatMap fun q => is.map fun i => .erase (i.key q)

def insertions (is : List Index) (qs : List Quad) : Batch :=
  qs.flatMap fun q => is.map fun i => .put (i.key q) (Record.encode q)

/-- The batch of a write: all removals go before all insertions. -/
def batch (st : Store σ) (old new : List Quad) : Except StoreError Batch := do
  let old ← normalizeAll st.defaultContext old
  let new ← normalizeAll st.defaultContext new
  return erasures st.registry.indexes old ++ insertions st.registry.indexes new

def plan (st : Store σ) (p : Pattern) : Except StoreError Plan :=
  match Plan.ofPattern p st.registry with
  | .ok plan => .ok plan
  | .error e => .error (.ofQuery e)

/-- Starts a query. Errors of planning come here, before any cursor is opened. -/
def query (st : Store σ) (p : Pattern) (paging : Paging) : Outcome σ (ResultStream κ) :=
  match st.plan p with
  | .error e => (.error e, st)
  | .ok plan => (.ok (.ofScans plan.scans paging), { st with plansRun := plan :: st.plansRun })

variable [Engine σ κ]

/-- Hands a batch to the engine; an empty one is not worth the call. -/
def submit (st : Store σ) (b : Batch) : Outcome σ Unit :=
  if b.isEmpty then (.ok (), st)
  else
    match Engine.write b st.engine with
    | (.ok (), engine) => (.ok (), { st with engine })
    | (.error e, engine) => (.error (.engine e), { st with engine })

def patch (st : Store σ) (old new : List Quad) : Outcome σ Unit :=
  match st.batch old new with
  | .error e => (.error e, st)
  | .ok b => st.submit b

def put (st : Store σ) (qs : List Quad) : Outcome σ Unit := st.patch [] qs

def erase (st : Store σ) (qs : List Quad) : Outcome σ Unit := st.patch qs []

def collect (st : Store σ) (stream : ResultStream κ) : Outcome σ (List Quad) :=
  match stream.collect st.engine with
  | (.ok qs, engine) => (.ok qs, { st with engine })
  | (.error e, engine) => (.error (.ofQuery e), { st with engine })

/-- The quads that match a pattern, as often as branches give them, by pages. -/
def get (st : Store σ) (p : Pattern) (paging : Paging) : Outcome σ (List Quad) :=
  match st.query p paging with
  | (.error e, st) => (.error e, st)
  | (.ok stream, st) => st.collect stream

/-- The distinct quads that match a pattern. -/
def matching (st : Store σ) (p : Pattern) : Outcome σ (List Quad) :=
  match st.get p {} with
  | (.error e, st) => (.error e, st)
  | (.ok qs, st) => (.ok (Quad.ascending qs), st)

/-- Replaces the quads that match a pattern by others, and tells how many were replaced. -/
def patchMatching (st : Store σ) (p : Pattern) (new : List Quad) : Outcome σ Nat :=
  match st.matching p with
  | (.error e, st) => (.error e, st)
  | (.ok old, st) =>
    match st.patch old new with
    | (.error e, st) => (.error e, st)
    | (.ok (), st) => (.ok old.length, st)

def eraseMatching (st : Store σ) (p : Pattern) : Outcome σ Nat := st.patchMatching p []

/-- Applies an operation to quads one by one until it fails, and counts them. -/
def eachQuad (op : Store σ → Quad → Outcome σ Unit) (st : Store σ) (count : Nat) :
    List Quad → Outcome σ Nat
  | [] => (.ok count, st)
  | q :: qs =>
    match op st q with
    | (.error e, st) => (.error e, st)
    | (.ok (), st) => eachQuad op st (count + 1) qs

def putEach (st : Store σ) (qs : List Quad) : Outcome σ Nat :=
  eachQuad (fun st q => st.put [q]) st 0 qs

def eraseEach (st : Store σ) (qs : List Quad) : Outcome σ Nat :=
  eachQuad (fun st q => st.erase [q]) st 0 qs

/-- The stream of all quads, read from the first index. -/
def everything (st : Store σ) : ResultStream κ :=
  .ofScans [(Strategy.ofBranch ⟨[]⟩ st.registry.first).scan] {}

/-- Adds an index and fills it from the first one. It is used for planning only after its entries
have been written. -/
def register (st : Store σ) (i : Index) : Outcome σ Unit :=
  match st.registry.register i with
  | .error e => (.error (.ofRegistry e), st)
  | .ok registry =>
    match st.collect st.everything with
    | (.error e, st) => (.error e, st)
    | (.ok qs, st) =>
      match st.submit (insertions [i] qs) with
      | (.error e, st) => (.error e, st)
      | (.ok (), st) => (.ok (), { st with registry })

/-- Takes the plans of the queries since this was last done, the earliest first. -/
def takePlans (st : Store σ) : List Plan × Store σ :=
  (st.plansRun.reverse, { st with plansRun := [] })

end Store
end QuadIndex
