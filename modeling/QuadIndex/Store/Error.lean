import QuadIndex.Plan.Basic

/-! What can go wrong with an operation of a store. -/

namespace QuadIndex

inductive StoreError where
  | invalidQuery (reason : String)
  | noViableIndex
  | invalidIndex (reason : String)
  | invalidQuad (reason : String)
  | engine (error : EngineError)
  deriving DecidableEq

namespace StoreError

def message : StoreError → String
  | invalidQuery reason => s!"invalid query: {reason}"
  | noViableIndex => "no viable index"
  | invalidIndex reason => s!"invalid index: {reason}"
  | invalidQuad reason => s!"invalid quad: {reason}"
  | engine e => s!"storage error: {e.message}"

def cause? : StoreError → Option EngineError
  | engine e => some e
  | _ => none

def ofQuery : QueryError → StoreError
  | .invalidQuery reason => invalidQuery reason
  | .noViableIndex => noViableIndex
  | .engine e => engine e

def ofRegistry : RegistryError → StoreError
  | .noViableIndex => noViableIndex
  | e => invalidIndex e.message

def ofQuadFault (f : QuadFault) : StoreError := invalidQuad f.message

end StoreError
end QuadIndex
