import QuadIndex.Engine.Basic
import QuadIndex.Index.Registry
import QuadIndex.Pattern.Json
import QuadIndex.Plan.Strategy

/-! Plans: for each branch of a pattern the strategy by which it is answered. -/

namespace QuadIndex

inductive QueryError where
  | invalidQuery (reason : String)
  | noViableIndex
  | engine (error : EngineError)
  deriving DecidableEq

namespace QueryError

def ofFault (f : PatternFault) : QueryError := .invalidQuery f.message

def ofTextError (e : PatternTextError) : QueryError := .invalidQuery e.message

def message : QueryError → String
  | invalidQuery reason => s!"invalid query: {reason}"
  | noViableIndex => "no viable index"
  | engine e => s!"storage error: {e.message}"

def cause? : QueryError → Option EngineError
  | engine e => some e
  | _ => none

end QueryError

namespace Strategy

def pick (ss : List Strategy) : Except QueryError Strategy :=
  match best? ss with
  | some s => .ok s
  | none => .error .noViableIndex

end Strategy

namespace Plan

structure Choice where
  branch : Branch
  strategy : Strategy
  deriving DecidableEq

end Plan

structure Plan where
  choices : List Plan.Choice
  deriving DecidableEq

namespace Plan

def choose (r : Registry) (b : Branch) : Except QueryError Choice := do
  let s ← Strategy.pick (r.indexes.map (Strategy.ofBranch b))
  return ⟨b, s⟩

def chooseAll (r : Registry) : List Branch → Except QueryError (List Choice)
  | [] => .ok []
  | b :: bs => do
    let c ← choose r b
    let cs ← chooseAll r bs
    return c :: cs

/-- Plans each branch of a pattern by itself. -/
def ofPattern (p : Pattern) (r : Registry) : Except QueryError Plan :=
  match p.divide with
  | .error f => .error (.ofFault f)
  | .ok bs => Plan.mk <$> chooseAll r bs

def indexNames (p : Plan) : List String := p.choices.map (·.strategy.index.name)

def Choice.text (number : Nat) (c : Choice) : String :=
  s!"#{number} " ++ c.branch.text ++ " -> " ++ c.strategy.text

def text (p : Plan) : String :=
  String.intercalate "\n" (p.choices.mapIdx Choice.text)

end Plan
end QuadIndex
