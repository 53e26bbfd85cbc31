import OmniSense.Agents.Router
import OmniSense.Library.Runs

/-! `agents/graph.py`: the node wrapper and the wired graph, run node by node. The graph is linear
since `ANALYSIS_BRANCHES` is empty, so a superstep is the execution of one node. -/

namespace OmniSense.Agents
open Library

def CONCURRENT_NODES : List NodeName := []

/-- What calling a node comes to. A node that raises, or outlives its time slice, is recorded by
the type of its error and whether that error is recoverable. -/
inductive NodeResult
  | returned (delta : Delta)
  | raised (errorType : String) (recoverable : Bool)

/-! ## The node wrapper -/

variable (name : NodeName)

def isExempt (halt : Halt) : Bool :=
  name ∈ TERMINAL_NODES ∧ halt.route ≠ .finish

def alreadyRecorded (state : InvestigationState) (errorType : String) : Bool :=
  state.errors.any (·.errorType = errorType)

def haltDelta (halt : Halt) (state : InvestigationState) : Delta where
  errors :=
    if alreadyRecorded state halt.reason.text then none
    else some [haltError halt (NODE_AGENT name)]
  status :=
    if name ∉ CONCURRENT_NODES ∧ halt.status.isTerminal ∧ halt.route = .finish then
      some halt.status
    else none

def recordHalt (halt : Halt) (delta : Delta) (state : InvestigationState) :
    Delta :=
  if alreadyRecorded state halt.reason.text then delta
  else { delta with errors := some (delta.errors.getD [] ++ [haltError halt (NODE_AGENT name)]) }

def verdictOf (critique : Option Object) : String :=
  match critique with
  | none => ""
  | some critique => verdictOr "" critique

def mirrorCritique (delta : Delta) : Delta :=
  match delta.critique, delta.critiqueHistory with
  | some (some critique), none => { delta with critiqueHistory := some [critique] }
  | _, _ => delta

def enforceRevisionProgress (delta : Delta) (state : InvestigationState) : Delta :=
  if verdictOf state.critique = "revise" then
    { mirrorCritique delta with
      revisionCount := some (max (delta.revisionCount.getD 0) (state.revisionCount + 1)) }
  else mirrorCritique delta

def annotateOnly (delta : Delta) : Delta := { delta with revisionCount := none, report := none }

variable (settings : AgentSettings)

variable (moment : ℤ)

variable (name : NodeName)

def stampStatus (delta : Delta)
    (state : InvestigationState) : Except EdgeError Delta :=
  if name ∈ CONCURRENT_NODES ∨ delta.status.isSome then .ok delta
  else
    let after := state.merged delta
    if name = .criticFinal then
      (terminalStatus settings moment after).map fun status => { delta with status := some status }
    else
      match (checkGuards settings moment after).filter (·.route = .finish) with
      | some halt => .ok { delta with status := some halt.status }
      | none => .ok { delta with status := some (phaseStatus name) }

/-- The clock readings of one superstep: the guard before the node, the status stamp after it and
the outgoing edge. -/
structure Readings where
  entry : ℤ
  stamp : ℤ
  edge : ℤ
  forward : entry ≤ stamp ∧ stamp ≤ edge

def calledDelta (result : NodeResult) : Delta :=
  match result with
  | .returned delta => { delta with stepCount := some (delta.stepCount.getD 1) }
  | .raised errorType recoverable =>
    { errors := some [⟨NODE_AGENT name, errorType, recoverable⟩], stepCount := some 1 }

def skips
    (state : InvestigationState) : Option Halt :=
  (checkGuards settings moment state).filter fun halt => !isExempt name halt

def ruledDelta (called : Delta)
    (state : InvestigationState) : Delta :=
  let recorded := match checkGuards settings moment state with
    | some halt => recordHalt name halt called state
    | none => called
  match name with
  | .critic => enforceRevisionProgress recorded state
  | .criticFinal => annotateOnly recorded
  | _ => recorded

/-- `wrap_node`: the delta that one execution of `name` on `state` writes. -/
def wrapNode (readings : Readings) (name : NodeName)
    (node : InvestigationState → NodeResult) (state : InvestigationState) :
    Except EdgeError Delta :=
  match skips settings readings.entry name state with
  | some halt => .ok (haltDelta name halt state)
  | none =>
    let called := calledDelta name (node state)
    stampStatus settings readings.stamp name
      (ruledDelta settings readings.entry name called state) state

/-! ## The wired graph -/

def nextRoute
    (state : InvestigationState) : Except EdgeError Route :=
  match name with
  | .planner => .ok (routeAfterPlanner settings moment state)
  | .collector => .ok (routeAfterCollector settings moment state)
  | .retriever => .ok (routeAfterRetriever settings moment state)
  | .graphExpansion => .ok ((dispatchAnalysis settings moment state).headD .finish)
  | .insight => .ok (routeAfterInsight settings moment state)
  | .strategy => .ok (routeAfterStrategy settings moment state)
  | .critic => routeAfterCritic settings moment state
  | .report => .ok routeAfterReport
  | .criticFinal => .ok routeAfterFinalCritic

/-- A run about to execute a node, at `END`, or stopped by an exception of the wrapper or an edge. -/
inductive Config
  | running (name : NodeName) (state : InvestigationState)
  | ended (state : InvestigationState)
  | crashed

def superstep (readings : Readings)
    (nodes : NodeName → InvestigationState → NodeResult) : Config → Config
  | .running name state =>
    match wrapNode settings readings name (nodes name) state with
    | .error _ => .crashed
    | .ok delta =>
      let after := state.merged delta
      match nextRoute settings readings.edge name after with
      | .error _ => .crashed
      | .ok .finish => .ended after
      | .ok (.node successor) => .running successor after
  | .ended state => .ended state
  | .crashed => .crashed

/-- A run of the graph: its limits, the clock, and what each node does when it is called in each
superstep. -/
structure Run where
  settings : AgentSettings
  readings : ℕ → Readings
  nodes : ℕ → NodeName → InvestigationState → NodeResult
  deadlineAt : ℤ

/-- The configuration before superstep `i`. -/
def Run.trace (run : Run) : ℕ → Config
  | 0 => .running .planner (newState run.deadlineAt)
  | i + 1 => superstep run.settings (run.readings i) (run.nodes i) (run.trace i)

/-- Superstep `i` calls `name` on `state`, and the node returns `delta`. -/
def Run.Returns (run : Run) (i : ℕ) (name : NodeName) (state : InvestigationState)
    (delta : Delta) : Prop :=
  run.trace i = .running name state ∧
    skips run.settings (run.readings i).entry name state = none ∧
    run.nodes i name state = .returned delta

def Run.CriticOwned (run : Run) : Prop :=
  ∀ i name state delta, run.Returns i name state delta → name ≠ .critic → name ≠ .criticFinal →
    delta.critique = none ∧ delta.critiqueHistory = none ∧ delta.revisionCount = none

def reenters : Config → Config → Bool
  | .running .critic _, .running .retriever _ => true
  | .running .critic _, .running .insight _ => true
  | .running .critic _, .running .strategy _ => true
  | _, _ => false

def Reenters (before later : Config) : Prop := reenters before later = true

instance : DecidableRel Reenters := fun _ _ => inferInstanceAs (Decidable (_ = true))

/-- The re-entries from the critic among the first `n` supersteps. -/
def Run.reentries (run : Run) (n : ℕ) : ℕ := laps Reenters run.trace n

end OmniSense.Agents
