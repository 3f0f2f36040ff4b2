import QuadIndex.Scan.Stream
import QuadIndex.Text.Blank

/-! Log records of the command line, and which of them are shown. -/

namespace QuadIndex

inductive LogLevel where
  | error
  | warn
  | info
  | debug
  | trace
  deriving DecidableEq

namespace LogLevel

def name : LogLevel → String
  | error => "ERROR"
  | warn => "WARN"
  | info => "INFO"
  | debug => "DEBUG"
  | trace => "TRACE"

/-- Later levels say more. -/
def rank : LogLevel → Nat
  | error => 1
  | warn => 2
  | info => 3
  | debug => 4
  | trace => 5

end LogLevel

structure LogRecord where
  level : LogLevel
  target : String
  message : String
  deriving DecidableEq

namespace LogRecord

/-- The part of the program that runs the command line. -/
def programTarget : String := "quadstore"

def storeTarget : String := "quadstore::store"

def streamTarget : String := "quadstore::query::stream"

/-- Characters that steer a terminal are shown as escapes. -/
def shownChar (c : Char) : List Char :=
  if c = '\x1b' ∨ c = '\x07' ∨ c = '\x08' ∨ c = '\x0c' ∨ c = '\x7f' then
    ['\\', 'x', Nat.digitChar (c.toNat / 16), Nat.digitChar (c.toNat % 16)]
  else if 0x80 ≤ c.toNat ∧ c.toNat ≤ 0x9F then
    ['\\', 'u', '\x7b'] ++ Text.hexDigits c.toNat ++ ['\x7d']
  else [c]

def text (r : LogRecord) : String :=
  r.level.name ++ " " ++ r.target ++ ": " ++
    String.ofList (r.message.toList.flatMap shownChar)

def ofStreamEvent : StreamEvent → LogRecord
  | .opened name filtered cap =>
    ⟨.debug, streamTarget, s!"opening cursor on {name} (filtered: {filtered}, row cap: " ++
      Inspect.option (cap.map toString) ++ ")"⟩
  | .exhausted name rows =>
    ⟨.debug, streamTarget, s!"cursor on {name} exhausted after {rows} rows"⟩
  | .filteredOut q => ⟨.trace, streamTarget, "filtered out " ++ q.line⟩
  | .failed name e =>
    ⟨.warn, streamTarget, s!"query stream failed while scanning {name}: {e.message}"⟩
  | .closed => ⟨.debug, streamTarget, "query stream closed by consumer"⟩

def ofChoice (number : Nat) (c : Plan.Choice) : LogRecord :=
  ⟨.debug, storeTarget, s!"query branch #{number} " ++ c.branch.text ++
    s!": index {c.strategy.index.name} score {c.strategy.score}"⟩

end LogRecord

/-- How much of the log is shown: records up to a rank. -/
structure Verbosity where
  rank : Nat
  deriving DecidableEq

namespace Verbosity

def ofLevel (l : LogLevel) : Verbosity := ⟨l.rank⟩

def ofWord? (word : String) : Option Verbosity :=
  if word = "off" then some ⟨0⟩
  else if word = "error" then some (ofLevel .error)
  else if word = "warn" then some (ofLevel .warn)
  else if word = "info" then some (ofLevel .info)
  else if word = "debug" then some (ofLevel .debug)
  else if word = "trace" then some (ofLevel .trace)
  else none

def variableName : String := "RUST_LOG"

/-- A setting is a word, or the name of the program, an equals sign and a word. Without a setting,
or with one that cannot be read, records up to information are shown. -/
def ofSetting (setting : Option String) : Verbosity :=
  let word? :=
    match (setting.map fun s => Text.pieces '=' s.toList) with
    | some [word] => some (String.ofList word)
    | some [target, word] =>
      if String.ofList target = LogRecord.programTarget then some (String.ofList word) else none
    | _ => none
  (word?.bind ofWord?).getD (ofLevel .info)

def shows (v : Verbosity) (r : LogRecord) : Bool := r.level.rank ≤ v.rank

end Verbosity
end QuadIndex
