import QuadIndex.Index.Registry
import QuadIndex.Text.Blank

/-! Settings of a store, and how they are read from named variables. -/

namespace QuadIndex

structure Settings where
  registry : Registry
  defaultContext : String
  deriving DecidableEq

structure SettingsError where
  variableName : String
  reason : String
  deriving DecidableEq

def SettingsError.message (e : SettingsError) : String :=
  s!"invalid value for {e.variableName}: {e.reason}"

namespace Settings

/-- The context of quads that come without one. -/
def defaultContextName : String := "_DEFAULT_CONTEXT_"

def standard : Settings := ⟨.standard, defaultContextName⟩

def indexesVariable : String := "QUADSTORE_INDEXES"

def contextVariable : String := "QUADSTORE_DEFAULT_CONTEXT"

/-- The pieces of a list with commas, without blanks around them and without empty ones. -/
def listedCodes (text : String) : List String :=
  ((Text.pieces ',' text.toList).map Text.trim).filterMap fun piece =>
    if piece = [] then none else some (String.ofList piece)

def readOrders : List String → Except RegistryError (List Index)
  | [] => .ok []
  | codes :: rest =>
    match Index.ofCodes codes with
    | .error f => .error (.ofFault f)
    | .ok i => do
      let is ← readOrders rest
      return i :: is

def readRegistry (text : String) : Except RegistryError Registry := do
  Registry.ofList (← readOrders (listedCodes text))

def contextFault? (context : String) : Option String :=
  if context = "" then some "must not be empty"
  else if isReserved context then some "contains a reserved key character"
  else none

def loadRegistry (lookup : String → Option String) : Except SettingsError Registry :=
  match lookup indexesVariable with
  | none => .ok .standard
  | some text =>
    match readRegistry text with
    | .ok r => .ok r
    | .error e => .error ⟨indexesVariable, e.message⟩

def loadContext (lookup : String → Option String) : Except SettingsError String :=
  match lookup contextVariable with
  | none => .ok defaultContextName
  | some context =>
    match contextFault? context with
    | none => .ok context
    | some reason => .error ⟨contextVariable, reason⟩

/-- Reads settings; a variable that is not set leaves the standard in place. -/
def load (lookup : String → Option String) : Except SettingsError Settings := do
  let registry ← loadRegistry lookup
  let defaultContext ← loadContext lookup
  return ⟨registry, defaultContext⟩

end Settings
end QuadIndex
