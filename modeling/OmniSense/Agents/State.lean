import Mathlib.Data.Rat.Defs
import Mathlib.Algebra.Order.Ring.Int

/-! `agents/state.py`: the fields of the investigation state that the router and the node wrapper
read, the deltas nodes return, and the reducers that merge a delta into the state. -/

namespace OmniSense.Agents

inductive AgentName
  | planner | collector | retriever | insight | strategy | critic | report | unknown
  deriving DecidableEq, Repr

inductive InvestigationStatus
  | queued | planning | running | reflecting | completed | completedWithFindings | failed
  | cancelled | unknown
  deriving DecidableEq, Repr

def InvestigationStatus.isTerminal : InvestigationStatus → Bool
  | completed | completedWithFindings | failed | cancelled => true
  | queued | planning | running | reflecting | unknown => false

/-! ## Payloads -/

/-- What the `Any` of a `dict[str, Any]` may hold in a state that is checkpointed as JSON. -/
inductive Payload
  | null
  | bool (b : Bool)
  | num (q : ℚ)
  | str (s : String)
  | arr (items : List Payload)
  | obj (fields : List (String × Payload))

abbrev Object := List (String × Payload)

def Object.get (o : Object) (key : String) : Option Payload := o.lookup key

inductive EdgeError
  | typeError
  deriving DecidableEq, Repr

namespace Payload

def truthy : Payload → Bool
  | null => false
  | bool b => b
  | num q => q ≠ 0
  | str s => s ≠ ""
  | arr items => !items.isEmpty
  | obj fields => !fields.isEmpty

/-- `str(x).lower()`, as far as the words it is compared with can tell: the text of a number, an
array or an object is none of them. -/
def word : Payload → String
  | null => "none"
  | bool b => toString b
  | str s => s.toLower
  | num _ | arr _ | obj _ => ""

def iterate : Payload → Except EdgeError (List Payload)
  | arr items => .ok items
  | str s => .ok (s.toList.map fun c => str (String.singleton c))
  | obj fields => .ok (fields.map fun field => str field.1)
  | null | bool _ | num _ => .error .typeError

/-- Booleans are numbers to `==`. -/
def number? : Payload → Option ℚ
  | bool b => some (if b then 1 else 0)
  | num q => some q
  | null | str _ | arr _ | obj _ => none

mutual

/-- `==`; two objects are equal whatever the order of their keys. -/
def eq : Payload → Payload → Bool
  | arr xs, ys => match ys with
    | arr ys => eqItems xs ys
    | _ => false
  | obj xs, ys => match ys with
    | obj ys => xs.length == ys.length && eqFields xs ys
    | _ => false
  | str s, ys => match ys with
    | str t => s == t
    | _ => false
  | null, ys => match ys with
    | null => true
    | _ => false
  | bool b, ys => ys.number? == (bool b).number?
  | num q, ys => ys.number? == some q

def eqItems : List Payload → List Payload → Bool
  | [], ys => ys.isEmpty
  | x :: xs, ys => match ys with
    | [] => false
    | y :: ys => eq x y && eqItems xs ys

def eqFields : List (String × Payload) → Object → Bool
  | [], _ => true
  | (key, x) :: xs, ys => (match ys.get key with
    | some y => eq x y
    | none => false) && eqFields xs ys

end

end Payload

/-! ## The state -/

structure AgentError where
  agent : AgentName
  errorType : String
  recoverable : Bool := true
  deriving DecidableEq, Repr

structure PlanStep where
  agent : AgentName
  requiresFreshData : Bool := false
  deriving DecidableEq, Repr

structure TokenLedger where
  inputTokens : ℤ := 0
  outputTokens : ℤ := 0
  deriving DecidableEq, Repr

def TokenLedger.totalTokens (ledger : TokenLedger) : ℤ := ledger.inputTokens + ledger.outputTokens

def TokenLedger.plus (ledger other : TokenLedger) : TokenLedger where
  inputTokens := ledger.inputTokens + other.inputTokens
  outputTokens := ledger.outputTokens + other.outputTokens

structure InvestigationState where
  deadlineAt : Option ℤ
  plan : List PlanStep
  status : InvestigationStatus
  critiqueHistory : List Object
  errors : List AgentError
  critique : Option Object
  revisionCount : ℤ
  report : Option Object
  stepCount : ℤ
  tokensSpent : TokenLedger

def newState (deadlineAt : ℤ) : InvestigationState where
  deadlineAt := some deadlineAt
  plan := []
  status := .queued
  critiqueHistory := []
  errors := []
  critique := none
  revisionCount := 0
  report := none
  stepCount := 0
  tokensSpent := {}

/-- What a node returns: `none` is an absent key, and `some none` a key set to `None`. -/
structure Delta where
  deadlineAt : Option ℤ := none
  plan : Option (List PlanStep) := none
  status : Option InvestigationStatus := none
  critiqueHistory : Option (List Object) := none
  errors : Option (List AgentError) := none
  critique : Option (Option Object) := none
  revisionCount : Option ℤ := none
  report : Option (Option Object) := none
  stepCount : Option ℤ := none
  tokensSpent : Option TokenLedger := none

/-- `_merged`, which is also what the reducers annotated on the state make of a delta. -/
def InvestigationState.merged (state : InvestigationState) (delta : Delta) :
    InvestigationState where
  deadlineAt := delta.deadlineAt <|> state.deadlineAt
  plan := delta.plan.getD state.plan
  status := delta.status.getD state.status
  critiqueHistory := state.critiqueHistory ++ delta.critiqueHistory.getD []
  errors := state.errors ++ delta.errors.getD []
  critique := delta.critique.getD state.critique
  revisionCount := delta.revisionCount.getD state.revisionCount
  report := delta.report.getD state.report
  stepCount := state.stepCount + delta.stepCount.getD 0
  tokensSpent := (delta.tokensSpent.map state.tokensSpent.plus).getD state.tokensSpent

end OmniSense.Agents
