import QuadIndex.Store.Basic
import QuadIndex.Trial.Audit
import QuadIndex.Trial.Workload

/-! Trials: a store over an engine that may fail takes a drawn workload, and every answer is audited
against the model. -/

namespace QuadIndex

structure TrialSettings where
  /-- The choices of the engine. They start anew with each run. -/
  engineWords : Nat → UInt32
  /-- The choices of the workload. They go on from one run to the next. -/
  workloadWords : Nat → UInt32
  rates : FaultRates
  workload : WorkloadSettings
  store : Settings

/-- Engine and workload both make the choices that one seed stands for. -/
def TrialSettings.seeded (seed : UInt64) (rates : FaultRates) (workload : WorkloadSettings)
    (store : Settings) : TrialSettings :=
  ⟨Chance.seededWords seed, Chance.seededWords seed, rates, workload, store⟩

/-- A trial: its counts and violations add up over all its runs. -/
structure Trial where
  settings : TrialSettings
  chance : Chance
  model : Model
  violations : List Violation
  processed : Nat
  succeeded : Nat
  failed : Nat

structure TrialReport where
  processed : Nat
  succeeded : Nat
  failed : Nat
  finalQuads : Nat
  violations : List Violation
  completed : Bool
  failure : Option String
  deriving DecidableEq

def TrialReport.passed (r : TrialReport) : Bool := r.completed && r.violations.isEmpty

namespace Trial

def make (s : TrialSettings) : Trial :=
  ⟨s, .ofWords s.workloadWords, .empty s.store.defaultContext, [], 0, 0, 0⟩

def report (t : Trial) (completed : Bool) (failure : Option String) : TrialReport :=
  ⟨t.processed, t.succeeded, t.failed, t.model.size, t.violations, completed, failure⟩

def found (t : Trial) (operation : Nat) (fs : List Finding) : Trial :=
  { t with violations := t.violations ++ Audit.located operation fs }

/-- An error is a fault of the store, unless the engine was told to fail. -/
def errorFindings (t : Trial) : StoreError → List Finding
  | .engine (.injectedFault reason) =>
    if t.settings.rates.injects then []
    else [.unexpectedError (.engine (.injectedFault reason))]
  | e => [.unexpectedError e]

def fail (t : Trial) (operation : Nat) (e : StoreError) : Trial :=
  { t with failed := t.failed + 1 }.found operation (t.errorFindings e)

def succeed (t : Trial) : Trial := { t with succeeded := t.succeeded + 1 }

/-- Follows a write of the store with the same write of the model, if it succeeded. -/
def wrote (t : Trial) (operation : Nat) (outcome : Except StoreError Unit)
    (follow : Model → Model) : Trial :=
  match outcome with
  | .ok () => { t.succeed with model := follow t.model }
  | .error e => t.fail operation e

abbrev TrialStore := Store FaultyEngine

/-- Asks for one page more and compares it with the full results. -/
def auditPage (t : Trial) (st : TrialStore) (operation : Nat) (p : Pattern) (page : Paging)
    (full : List Quad) : Trial × TrialStore :=
  if page = {} then (t, st)
  else
    match st.get p page with
    | (.error e, st) => (t.fail operation e, st)
    | (.ok paged, st) => (t.succeed.found operation (Audit.paging page full paged), st)

/-- Asks for all results, and then for the page if there is one. -/
def auditQuery (t : Trial) (st : TrialStore) (operation : Nat) (p : Pattern) (page : Paging) :
    Trial × TrialStore :=
  match st.get p {} with
  | (.error e, st) => (t.fail operation e, st)
  | (.ok full, st) =>
    auditPage (t.succeed.found operation (Audit.query p full t.model)) st operation p page full

def apply (t : Trial) (st : TrialStore) (operation : Nat) : Operation → Trial × TrialStore
  | .put qs =>
    let (outcome, st) := st.put qs
    (t.wrote operation outcome (·.put qs), st)
  | .erase qs =>
    let (outcome, st) := st.erase qs
    (t.wrote operation outcome (·.erase qs), st)
  | .query p page =>
    let st := { st with engine := st.engine.resetCounters }
    let (t, st) := t.auditQuery st operation p page
    (t.found operation (Audit.cursors st.engine.counters), st)

/-- Draws and applies operations, numbered from the given one. -/
def operate (t : Trial) (st : TrialStore) (first : Nat) : Nat → Trial × TrialStore
  | 0 => (t, st)
  | n + 1 =>
    let (op, chance) := Workload.operation t.settings.workload t.chance
    let (t, st) := { t with chance, processed := t.processed + 1 }.apply st first op
    operate t st (first + 1) n

def run (t : Trial) (operations : Nat) : TrialReport × Trial :=
  let engine := FaultyEngine.make t.settings.engineWords t.settings.rates
  match Store.make engine t.settings.store with
  | .error e => (t.report false (some s!"failed to create store: {e.message}"), t)
  | .ok st =>
    let t := { t with model := .empty t.settings.store.defaultContext }
    let (t, _) := t.operate st 0 operations
    (t.report true none, t)

end Trial
end QuadIndex
