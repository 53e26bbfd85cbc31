import OmniSense.Agents.State

/-! `agents/router.py`: the guard every edge consults, the edges themselves, and the brakes of the
critic loop. -/

namespace OmniSense.Agents

inductive NodeName
  | planner | collector | retriever | graphExpansion | insight | strategy | critic | report
  | criticFinal
  deriving DecidableEq, Repr

/-- Where an edge leads: another node, or `END`. -/
inductive Route
  | node (name : NodeName)
  | finish
  deriving DecidableEq, Repr

structure AgentSettings where
  maxSteps : ℕ := 50
  maxCriticRevisions : ℕ := 2
  tokenBudgetPerInvestigation : ℕ := 1000000
  maxSteps_ge : 1 ≤ maxSteps := by decide
  tokenBudget_ge : 1000 ≤ tokenBudgetPerInvestigation := by decide

instance : Inhabited AgentSettings := ⟨{}⟩

def ANALYSIS_BRANCHES : List (AgentName × NodeName) := []

def NODE_AGENT : NodeName → AgentName
  | .planner => .planner
  | .collector => .collector
  | .retriever => .retriever
  | .graphExpansion => .unknown
  | .insight => .insight
  | .strategy => .strategy
  | .critic => .critic
  | .report => .report
  | .criticFinal => .critic

def FIXED_TAIL_STEPS : ℕ := 5

def REENTRY_TARGETS : List (String × NodeName) :=
  [("retriever", .retriever), ("insight", .insight), ("strategy", .strategy), ("report", .insight)]

def TERMINAL_NODES : List NodeName := [.report, .criticFinal]

/-! ## Guards -/

inductive HaltReason
  | maxSteps | deadline | tokenBudget | planTooLarge | blockingError | cancelled
  deriving DecidableEq, Repr

def HaltReason.text : HaltReason → String
  | maxSteps => "max_steps_exceeded"
  | deadline => "deadline_exceeded"
  | tokenBudget => "token_budget_exhausted"
  | planTooLarge => "plan_exceeds_step_budget"
  | blockingError => "blocking_error"
  | cancelled => "cancelled"

structure Halt where
  reason : HaltReason
  route : Route
  status : InvestigationStatus
  deriving DecidableEq, Repr

variable (state : InvestigationState)

def firstBlockingError : Option AgentError :=
  state.errors.find? fun error => !error.recoverable

variable (settings : AgentSettings)

variable (moment : ℤ)

variable (state : InvestigationState)

/-- `check_guards`, with the clock reading as `moment`. -/
def checkGuards :
    Option Halt :=
  if state.status = .cancelled then some ⟨.cancelled, .finish, .cancelled⟩
  else if state.status.isTerminal then some ⟨.cancelled, .finish, state.status⟩
  else if (firstBlockingError state).isSome then some ⟨.blockingError, .finish, .failed⟩
  else if settings.maxSteps ≤ state.stepCount then
    some ⟨.maxSteps, .node .report, .completedWithFindings⟩
  else if state.deadlineAt.any (· ≤ moment) then
    some ⟨.deadline, .node .report, .completedWithFindings⟩
  else if settings.tokenBudgetPerInvestigation ≤ state.tokensSpent.totalTokens then
    some ⟨.tokenBudget, .node .report, .completedWithFindings⟩
  else none

def haltError (halt : Halt) (agent : AgentName) : AgentError where
  agent := agent
  errorType := halt.reason.text
  recoverable := halt.status ≠ .failed

/-! ## Plan inspection -/

def estimatedStepsRemaining : ℕ := state.plan.length + FIXED_TAIL_STEPS

def planExceedsBudget : Bool :=
  settings.maxSteps < state.stepCount + estimatedStepsRemaining state

def needsFreshData : Bool := state.plan.any PlanStep.requiresFreshData

def plannedBranches : List NodeName :=
  (ANALYSIS_BRANCHES.filter fun branch => state.plan.any (·.agent = branch.1)).map Prod.snd

/-! ## Critic-loop brakes -/

/-- `state.get("critique") or {}`. -/
def standingCritique : Object := state.critique.getD []

def verdictOr (default : String) (critique : Object) : String :=
  ((critique.get "verdict").map Payload.word).getD default

def lastTwo : Option (Object × Object) :=
  match state.critiqueHistory.reverse with
  | latest :: previous :: _ => some (latest, previous)
  | _ => none

def artifactUnchanged : Bool :=
  match lastTwo state with
  | none => false
  | some (latest, previous) =>
    let currentHash := (latest.get "artifact_sha256").getD .null
    currentHash.truthy && currentHash.eq ((previous.get "artifact_sha256").getD .null)

variable (critique : Object)

/-- `critique.get("findings") or []`, iterated. -/
def findings : Except EdgeError (List Payload) :=
  match critique.get "findings" with
  | some value => if value.truthy then value.iterate else .ok []
  | none => .ok []

def isResolved : Payload → Bool
  | .obj fields => ((Object.get fields "resolved").map Payload.truthy).getD false
  | _ => false

def unresolvedCount : Except EdgeError ℕ :=
  (findings critique).map fun found => found.countP fun finding => !isResolved finding

def progressStalled : Except EdgeError Bool :=
  match lastTwo state with
  | none => .ok false
  | some (latest, previous) => do
    let now ← unresolvedCount latest
    let before ← unresolvedCount previous
    return before ≤ now

/-- The `target_stage` of a finding that names one. -/
def targetStage : Payload → Option Payload
  | .obj fields => (Object.get fields "target_stage").filter Payload.truthy
  | _ => none

def namedStage : Except EdgeError Payload :=
  match critique.get "target_stage" with
  | some .null | none =>
    (findings critique).map fun found => (found.findSome? targetStage).getD .null
  | some stage => .ok stage

def reentryTarget : Except EdgeError NodeName :=
  (namedStage critique).map fun stage => (REENTRY_TARGETS.lookup stage.word).getD .insight

/-! ## Edges -/

def routeAfterPlanner :
    Route :=
  match checkGuards settings moment state with
  | some halt => halt.route
  | none =>
    if planExceedsBudget settings state then .node .report
    else if needsFreshData state then .node .collector else .node .retriever

def routeGuarded (successor : NodeName) (settings : AgentSettings) (moment : ℤ)
    (state : InvestigationState) : Route :=
  match checkGuards settings moment state with
  | some halt => halt.route
  | none => .node successor

def routeAfterCollector := routeGuarded .retriever
def routeAfterRetriever := routeGuarded .graphExpansion
def routeAfterInsight := routeGuarded .strategy
def routeAfterStrategy := routeGuarded .critic

def dispatchAnalysis :
    List Route :=
  match checkGuards settings moment state with
  | some halt => [halt.route]
  | none =>
    match plannedBranches state with
    | [] => [.node .insight]
    | branches => branches.map .node

def routeAfterCritic :
    Except EdgeError Route :=
  match checkGuards settings moment state with
  | some halt => .ok halt.route
  | none =>
    if verdictOr "accept" (standingCritique state) ≠ "revise" then .ok (.node .report)
    else if settings.maxCriticRevisions ≤ state.revisionCount then .ok (.node .report)
    else if artifactUnchanged state then .ok (.node .report)
    else do
      let stalled ← progressStalled state
      if stalled then .ok (.node .report)
      else (reentryTarget (standingCritique state)).map .node

def routeAfterReport : Route := .node .criticFinal

def routeAfterFinalCritic : Route := .finish

/-! ## Status -/

def phaseStatus : NodeName → InvestigationStatus
  | .planner => .planning
  | .critic | .criticFinal => .reflecting
  | _ => .running

def terminalStatus :
    Except EdgeError InvestigationStatus :=
  if (firstBlockingError state).isSome then .ok .failed
  else if state.status = .cancelled ∨ state.status = .failed then .ok state.status
  else if (checkGuards settings moment state).isSome then .ok .completedWithFindings
  else if state.report = none then .ok .completedWithFindings
  else
    let critique := standingCritique state
    if verdictOr "" critique = "accept" then
      (unresolvedCount critique).map fun unresolved =>
        if unresolved = 0 then .completed else .completedWithFindings
    else .ok .completedWithFindings

end OmniSense.Agents
