import OmniSense.Agents.Graph
import OmniSense.Llm.Structured

/-! `agents/base.py`: the node entry of an agent, with the budget it is given and the ledger it
leaves, and a run as the nodes it calls one after another. -/

namespace OmniSense.Agents

open Library Llm

def EXIT_PATH_AGENTS : List AgentName := [.report, .critic]

/-- `int(limit * EXIT_PATH_OVERDRAFT)`, the overdraft being 1.25. -/
def overdraft (limit : ℕ) : ℕ := limit * 5 / 4

def budgetLimit (settings : AgentSettings) (agent : AgentName) : ℕ :=
  if agent ∈ EXIT_PATH_AGENTS then overdraft settings.tokenBudgetPerInvestigation
  else settings.tokenBudgetPerInvestigation

/-- One `call_model`, with what becomes of its requests. -/
structure ModelCall where
  tier : ModelTier
  schema : Schema
  outcomes : List Outcome

/-- A node that is called: the calls that `execute` and its retries make one after another, the
requests that the time slice leaves room for where the node outlives it, and what `to_delta`, or the
error that ended `execute`, writes. -/
structure Invocation where
  name : NodeName
  agent : AgentName
  readings : Readings
  calls : List ModelCall
  slice : Option ℕ
  output : Delta

structure Runtime where
  settings : AgentSettings
  provider : LLMProvider
  modelFor : ModelTier → String

/-- A run between two nodes. The modes are the provider's; nothing reads the requests made. -/
structure RunState where
  state : InvestigationState
  crashed : Bool
  modes : String → StructuredMode
  sent : List (Sent AgentName)

def RunState.start (deadlineAt : ℤ) (modes : String → StructuredMode) : RunState :=
  ⟨newState deadlineAt, false, modes, []⟩

def snapshot (ledger : MutableLedger) : TokenLedger := ⟨ledger.inputTokens, ledger.outputTokens⟩

namespace Runtime

variable (runtime : Runtime)

/-- The router that `_context` builds, with the default pressure fraction of 0.15. -/
def router : ModelRouter := ⟨runtime.modelFor, 3 / 20⟩

/-- The calls of a node. An exception goes back to `execute`; a cancellation ends the node. -/
def execute : List ModelCall → Effect (Session (Wire AgentName)) Raised Unit
  | [] => pure ()
  | call :: calls => do
    modify fun s => { s with world := { s.world with outcomes := call.outcomes } }
    tryCatch (do let _ ← runtime.router.structured runtime.provider call.tier call.schema)
      fun raised => if raised.errorClass = .cancelled then throw raised else pure ()
    execute calls

/-- `_context`: the budget is seeded from the run's spend, the ledger starts empty. -/
def context (invocation : Invocation) (run : RunState) : Session (Wire AgentName) where
  budget := some {
    limit := budgetLimit runtime.settings invocation.agent
    spent := run.state.tokensSpent.totalTokens
    shedEvents := [] }
  world := {
    outcomes := []
    slice := invocation.slice
    modes := run.modes
    ledger := ⟨0, 0, 0, 0⟩
    sender := invocation.agent
    sent := run.sent }
  tried := []

def spentWire (invocation : Invocation) (run : RunState) : Wire AgentName :=
  ((runtime.execute invocation.calls).exec (runtime.context invocation run)).2.world

/-- `BaseAgent.__call__` under the timeout of `wrap_node`. -/
def node (invocation : Invocation) (run : RunState) : NodeResult :=
  match invocation.slice with
  | some _ => .raised "timeout" true
  | none => .returned { invocation.output with
      stepCount := some 1
      tokensSpent := some (snapshot (runtime.spentWire invocation run).ledger) }

def invoke (run : RunState) (invocation : Invocation) : RunState :=
  if run.crashed then run
  else
    let called : RunState :=
      match skips runtime.settings invocation.readings.entry invocation.name run.state with
      | some _ => run
      | none =>
        let wire := runtime.spentWire invocation run
        { run with modes := wire.modes, sent := wire.sent }
    match wrapNode runtime.settings invocation.readings invocation.name
        (fun _ => runtime.node invocation run) run.state with
    | .error _ => { called with crashed := true }
    | .ok delta => { called with state := run.state.merged delta }

def after (deadlineAt : ℤ) (modes : String → StructuredMode) (invocations : List Invocation) :
    RunState :=
  invocations.foldl runtime.invoke (.start deadlineAt modes)

end Runtime

end OmniSense.Agents
