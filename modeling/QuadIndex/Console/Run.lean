import QuadIndex.Console.Arguments
import QuadIndex.Console.Listing
import QuadIndex.Console.Log
import QuadIndex.Store.Basic

/-! The command line: it loads a listing into a fresh store and prints the quads that match a
pattern. -/

namespace QuadIndex.Console

/-- What the command line finds around it. -/
structure Surroundings where
  lookup : String → Option String
  /-- The bytes of a file, or why there are none. -/
  readFile : String → Except String Bytes

structure Result where
  code : Nat
  output : String
  log : List LogRecord
  deriving DecidableEq

/-- The quads to print or the error that ended the run, and the log up to then. -/
abbrev Answer := Except String (List Quad) × List LogRecord

def info (message : String) : LogRecord := ⟨.info, LogRecord.programTarget, message⟩

def error (message : String) : LogRecord := ⟨.error, LogRecord.programTarget, message⟩

def answer (st : Store Table) (plan : Plan) (p : Pattern) (page : Paging) : Answer :=
  match st.query p page with
  | (.error e, _) => (.error e.message, [])
  | (.ok stream, st) =>
    let (items, stream, _) := stream.drain st.engine
    let log := plan.choices.mapIdx LogRecord.ofChoice ++
      stream.journal.reverse.map LogRecord.ofStreamEvent
    match items.mapM id with
    | .error e => (.error e.message, log)
    | .ok qs => (.ok qs, log)

def fileText (path : String) (s : Surroundings) : Except String String :=
  match s.readFile path with
  | .error reason => .error s!"Failed to read {path}: {reason}"
  | .ok bytes =>
    match Text.Utf8.decode bytes with
    | .error _ => .error s!"Failed to read {path}: stream did not contain valid UTF-8"
    | .ok text => .ok text

def patternOf (a : Arguments) : Except String Pattern :=
  match a.pattern with
  | none => .ok .empty
  | some text =>
    match Pattern.ofText text with
    | .error e => .error (QueryError.ofTextError e).message
    | .ok p => .ok p

def loadStore (settings : Settings) (qs : List Quad) : Except String (Store Table) :=
  match Store.make Table.empty settings with
  | .error e => .error e.message
  | .ok st =>
    match st.put qs with
    | (.error e, _) => .error e.message
    | (.ok (), st) => .ok st

/-- Everything that can fail before the store is filled, in order. -/
def prepare (a : Arguments) (settings : Settings) (s : Surroundings) :
    Except String (List Quad × Pattern × Store Table) := do
  let text ← fileText a.path s
  let qs ← (Listing.parse text).mapError Listing.Fault.message
  let p ← patternOf a
  let st ← loadStore settings qs
  return (qs, p, st)

def load (a : Arguments) (settings : Settings) (s : Surroundings) : Answer :=
  match prepare a settings s with
  | .error message => (.error message, [])
  | .ok (qs, p, st) =>
    let loaded := info (s!"Loaded {qs.length} quads from {a.path} into indexes " ++
      Text.quotedList st.registry.names)
    match st.plan p with
    | .error e => (.error e.message, [loaded])
    | .ok plan =>
      let (result, log) := answer st plan p a.paging
      (result, loaded :: info ("query plan:\n" ++ plan.text) :: log)

def runVerbose (args : List String) (s : Surroundings) : Result :=
  match Settings.load s.lookup with
  | .error e => ⟨1, "", [error s!"Failed to load configuration: {e.message}"]⟩
  | .ok settings =>
    match Arguments.parse args with
    | .error e => ⟨1, "", [error (e.message ++ "\n" ++ Arguments.usage)]⟩
    | .ok a =>
      match load a settings s with
      | (.error message, log) => ⟨1, "", log ++ [error message]⟩
      | (.ok qs, log) =>
        ⟨0, Listing.render qs, log ++ [info s!"{qs.length} quads matched"]⟩

def run (args : List String) (s : Surroundings) : Result :=
  let result := runVerbose args s
  let verbosity := Verbosity.ofSetting (s.lookup Verbosity.variableName)
  { result with log := result.log.filter verbosity.shows }

end QuadIndex.Console
