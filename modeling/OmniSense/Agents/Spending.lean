import OmniSense.Agents.Base
import OmniSense.Llm.Metering

/-! Whether the tokens of a run are counted once, and how far its requests overrun the budget. -/

namespace OmniSense.Agents

open Library Llm

variable {usage : Answer → Option Usage} {runtime : Runtime}

variable (settings : AgentSettings)

def capOf (agent : AgentName) : ℤ := budgetLimit settings agent

theorem budgetLimit_le (agent : AgentName) :
    budgetLimit settings agent ≤ overdraft settings.tokenBudgetPerInvestigation := by
  unfold budgetLimit overdraft
  split_ifs
  · exact le_refl _
  · omega

/-- What a node may not do: outlive its slice after an answer with usage, or have an answer with
usage turned down. -/
structure Invocation.Spares (usage : Answer → Option Usage) (provider : LLMProvider)
    (invocation : Invocation) : Prop where
  kept : invocation.slice ≠ none → ∀ call ∈ invocation.calls, ∀ outcome ∈ call.outcomes,
    provider.reported usage outcome = .zero
  returned : ∀ call ∈ invocation.calls, ∀ outcome ∈ call.outcomes,
    provider.reported usage outcome = .zero ∨ provider.Accepts call.schema outcome

variable {invocation : Invocation} {run : RunState}

theorem Invocation.Spares.fair {provider : LLMProvider} (h : invocation.Spares usage provider) :
    ∀ call ∈ invocation.calls, ∀ outcome ∈ call.outcomes,
      provider.Fair usage invocation.slice.isSome call.schema outcome := by
  intro call hcall outcome houtcome
  cases hslice : invocation.slice with
  | none => exact (h.returned call hcall outcome houtcome).imp_right fun haccepts => ⟨rfl, haccepts⟩
  | some left => exact .inl (h.kept (hslice ▸ Option.some_ne_none left) call hcall outcome houtcome)

/-! ## The calls of a node -/

section Node

variable {timed : Bool} {sender : AgentName} {base : Spend}

theorem metered_load {provider : LLMProvider} {cap : AgentName → ℤ} {fair fair' : Outcome → Prop}
    {ledger : MutableLedger} {s : Session (Wire AgentName)}
    (h : Metered usage cap provider timed fair sender base ledger s) {outcomes : List Outcome}
    (hfair : ∀ outcome ∈ outcomes, fair' outcome) :
    Metered usage cap provider timed fair' sender base ledger
      { s with world := { s.world with outcomes := outcomes } } :=
  ⟨⟨h.books.sender, h.books.ledger, hfair, h.books.input, h.books.output, h.books.paced⟩, h.budget,
    h.timed⟩

theorem metered_weaken {provider : LLMProvider} {cap : AgentName → ℤ} {fair : Outcome → Prop}
    {ledger : MutableLedger} {s : Session (Wire AgentName)}
    (h : Metered usage cap provider timed fair sender base ledger s) :
    Metered usage cap provider timed (fun _ => True) sender base ledger s :=
  metered_load h fun _ _ => trivial

theorem metered_execute (husage : runtime.provider.Faithful usage) {calls : List ModelCall}
    (hfair : ∀ call ∈ calls, ∀ outcome ∈ call.outcomes,
      runtime.provider.Fair usage timed call.schema outcome) :
    Effect.Keeps (fun s => ∃ ledger, Metered usage (capOf runtime.settings) runtime.provider timed
      (fun _ => True) sender base ledger s) (runtime.execute calls) := by
  induction calls with
  | nil => exact Effect.Keeps.ret ()
  | cons call calls ih =>
    have hcall := hfair call (List.mem_cons_self ..)
    have hcalls := ih fun call hmem => hfair call (List.mem_cons_of_mem _ hmem)
    refine Effect.Triple.bind (Q := fun _ s => ∃ ledger, Metered usage (capOf runtime.settings)
        runtime.provider timed (runtime.provider.Fair usage timed call.schema) sender base ledger s)
      (Effect.Triple.update fun s h => ?_) fun _ => ?_
    · obtain ⟨ledger, hsession⟩ := h
      exact ⟨ledger, metered_load hsession hcall⟩
    · refine Effect.Triple.bind (Effect.Triple.catching (Effect.Triple.bind
        (metered_structured husage runtime.router call.tier) fun _ =>
          Effect.Triple.ret fun s h => ?_) fun raised => ?_) fun _ => hcalls
      · obtain ⟨ledger, hsession⟩ := h
        exact ⟨ledger, metered_weaken hsession⟩
      · split_ifs
        · refine Effect.Triple.raise fun s h => ?_
          obtain ⟨ledger, hsession⟩ := h
          exact ⟨ledger, metered_weaken hsession⟩
        · refine Effect.Triple.ret fun s h => ?_
          obtain ⟨ledger, hsession⟩ := h
          exact ⟨ledger, metered_weaken hsession⟩

end Node

/-! ## The wrapper and the run -/

structure Balanced (usage : Answer → Option Usage) (runtime : Runtime) (run : RunState) : Prop where
  counted : run.crashed = false → run.state.tokensSpent =
    ⟨inputSpent (runtime.provider.reported usage) run.sent,
      outputSpent (runtime.provider.reported usage) run.sent⟩
  paced : Paced (totalCost (runtime.provider.reported usage))
    (fun r => capOf runtime.settings r.sender) run.sent

theorem tokensSpent_recordHalt (name : NodeName) (halt : Halt) (delta : Delta)
    (state : InvestigationState) :
    (recordHalt name halt delta state).tokensSpent = delta.tokensSpent := by
  unfold recordHalt
  split_ifs <;> rfl

theorem tokensSpent_mirrorCritique (delta : Delta) :
    (mirrorCritique delta).tokensSpent = delta.tokensSpent := by
  unfold mirrorCritique
  split <;> rfl

theorem tokensSpent_ruledDelta (moment : ℤ) (name : NodeName)
    (called : Delta) (state : InvestigationState) :
    (ruledDelta settings moment name called state).tokensSpent = called.tokensSpent := by
  have henforced : ∀ delta : Delta,
      (enforceRevisionProgress delta state).tokensSpent = delta.tokensSpent := by
    intro delta
    unfold enforceRevisionProgress
    split_ifs
    · exact tokensSpent_mirrorCritique delta
    · exact tokensSpent_mirrorCritique delta
  unfold ruledDelta
  cases checkGuards settings moment state with
  | none =>
    cases name with
    | critic => exact henforced called
    | _ => rfl
  | some halt =>
    cases name with
    | critic => exact (henforced _).trans (tokensSpent_recordHalt ..)
    | _ => exact tokensSpent_recordHalt ..

theorem tokensSpent_stampStatus {settings : AgentSettings} {moment : ℤ} {name : NodeName}
    {delta stamped : Delta} {state : InvestigationState}
    (h : stampStatus settings moment name delta state = .ok stamped) :
    stamped.tokensSpent = delta.tokensSpent := by
  unfold stampStatus at h
  dsimp only at h
  split_ifs at h
  · cases h
    rfl
  · obtain ⟨status, _, rfl⟩ := ok_of_map h
    rfl
  · split at h <;>
    · cases h
      rfl

section Wrapper

variable {settings : AgentSettings} {readings : Readings} {name : NodeName}
  {node : InvestigationState → NodeResult} {state : InvestigationState} {delta : Delta}

theorem tokensSpent_of_skipped {halt : Halt}
    (hskips : skips settings readings.entry name state = some halt)
    (h : wrapNode settings readings name node state = .ok delta) : delta.tokensSpent = none := by
  unfold wrapNode at h
  rw [hskips] at h
  cases h
  rfl

theorem tokensSpent_of_called (hskips : skips settings readings.entry name state = none)
    (h : wrapNode settings readings name node state = .ok delta) :
    delta.tokensSpent = (calledDelta name (node state)).tokensSpent := by
  unfold wrapNode at h
  rw [hskips] at h
  rw [tokensSpent_stampStatus h, tokensSpent_ruledDelta]

end Wrapper

theorem balanced_start (deadlineAt : ℤ) (modes : String → StructuredMode) :
    Balanced usage runtime (.start deadlineAt modes) :=
  ⟨fun _ => rfl, paced_nil⟩

theorem metered_context {timed : Bool}
    (h : Balanced usage runtime run) (hrun : run.crashed = false) :
    Metered usage (capOf runtime.settings) runtime.provider timed (fun _ => True) invocation.agent
      ⟨run.state.tokensSpent.inputTokens, run.state.tokensSpent.outputTokens⟩ ⟨0, 0, 0, 0⟩
      (runtime.context invocation run) := by
  refine ⟨⟨rfl, rfl, fun _ _ => trivial, ?_, ?_, h.paced⟩, ⟨_, rfl, rfl, ?_⟩, fun _ => ⟨rfl, rfl⟩⟩
  · exact (congrArg TokenLedger.inputTokens (h.counted hrun)).symm.trans (Int.add_zero _).symm
  · exact (congrArg TokenLedger.outputTokens (h.counted hrun)).symm.trans (Int.add_zero _).symm
  · exact congrArg₂ (· + ·) (Int.add_zero _).symm (Int.add_zero _).symm

theorem tokensSpent_called (husage : runtime.provider.Faithful usage)
    (hspares : invocation.Spares usage runtime.provider)
    (h : Balanced usage runtime run) (hrun : run.crashed = false) :
    (((calledDelta invocation.name (runtime.node invocation run)).tokensSpent.map
        run.state.tokensSpent.plus).getD run.state.tokensSpent =
      ⟨inputSpent (runtime.provider.reported usage) (runtime.spentWire invocation run).sent,
        outputSpent (runtime.provider.reported usage) (runtime.spentWire invocation run).sent⟩) ∧
    Paced (totalCost (runtime.provider.reported usage)) (fun r => capOf runtime.settings r.sender)
      (runtime.spentWire invocation run).sent := by
  obtain ⟨ledger, hsession⟩ := Effect.Keeps.state (metered_execute husage hspares.fair)
    ⟨_, metered_context h hrun⟩
  refine ⟨?_, hsession.books.paced⟩
  have hinput : inputSpent (runtime.provider.reported usage)
      (runtime.spentWire invocation run).sent =
        run.state.tokensSpent.inputTokens + ledger.inputTokens := hsession.books.input
  have houtput : outputSpent (runtime.provider.reported usage)
      (runtime.spentWire invocation run).sent =
        run.state.tokensSpent.outputTokens + ledger.outputTokens := hsession.books.output
  have hledger : (runtime.spentWire invocation run).ledger = ledger := hsession.books.ledger
  unfold Runtime.node
  rw [hinput, houtput, hledger]
  cases hslice : invocation.slice with
  | none => rfl
  | some left =>
    obtain ⟨hno, hnone⟩ := hsession.timed (by rw [hslice]; rfl)
    rw [hno, hnone, Int.add_zero, Int.add_zero]
    rfl

theorem balanced_invoke (husage : runtime.provider.Faithful usage)
    (hspares : invocation.Spares usage runtime.provider)
    (h : Balanced usage runtime run) : Balanced usage runtime (runtime.invoke run invocation) := by
  unfold Runtime.invoke
  split_ifs with hcrashed
  · exact h
  have hrun := Bool.eq_false_of_not_eq_true hcrashed
  cases hskips : skips runtime.settings invocation.readings.entry invocation.name run.state with
  | some halt =>
    cases hwrap : wrapNode runtime.settings invocation.readings invocation.name
        (fun _ => runtime.node invocation run) run.state with
    | error e => exact ⟨nofun, h.paced⟩
    | ok delta =>
      refine ⟨fun _ => Eq.trans ?_ (h.counted hrun), h.paced⟩
      change (delta.tokensSpent.map run.state.tokensSpent.plus).getD run.state.tokensSpent = _
      rw [tokensSpent_of_skipped hskips hwrap]
      rfl
  | none =>
    obtain ⟨hspent, hpaced⟩ := tokensSpent_called husage hspares h hrun
    cases hwrap : wrapNode runtime.settings invocation.readings invocation.name
        (fun _ => runtime.node invocation run) run.state with
    | error e => exact ⟨nofun, hpaced⟩
    | ok delta =>
      refine ⟨fun _ => Eq.trans ?_ hspent, hpaced⟩
      change (delta.tokensSpent.map run.state.tokensSpent.plus).getD run.state.tokensSpent = _
      rw [tokensSpent_of_called hskips hwrap]

/-- A run none of whose nodes outlives its slice after an answer with usage, and none of whose
answers with usage is turned down, counts every token once, and a request takes the total past the
overdraft by no more than its own usage. -/
theorem spend_counted (husage : runtime.provider.Faithful usage) (deadlineAt : ℤ)
    (modes : String → StructuredMode) (invocations : List Invocation)
    (hspares : ∀ invocation ∈ invocations, invocation.Spares usage runtime.provider) :
    ((runtime.after deadlineAt modes invocations).crashed = false →
      (runtime.after deadlineAt modes invocations).state.tokensSpent =
        ⟨inputSpent (runtime.provider.reported usage)
            (runtime.after deadlineAt modes invocations).sent,
          outputSpent (runtime.provider.reported usage)
            (runtime.after deadlineAt modes invocations).sent⟩) ∧
    ∀ i r, (runtime.after deadlineAt modes invocations).sent[i]? = some r →
      spentOn (totalCost (runtime.provider.reported usage))
          ((runtime.after deadlineAt modes invocations).sent.take i) <
        budgetLimit runtime.settings r.sender ∧
      spentOn (totalCost (runtime.provider.reported usage))
          ((runtime.after deadlineAt modes invocations).sent.take (i + 1)) ≤
        overdraft runtime.settings.tokenBudgetPerInvestigation +
          totalCost (runtime.provider.reported usage) r := by
  have hbalanced : Balanced usage runtime (runtime.after deadlineAt modes invocations) := by
    refine foldl_done (I := fun _ => Balanced usage runtime) (balanced_start deadlineAt modes) ?_
    exact fun _ invocation hmem _ h => balanced_invoke husage (hspares invocation hmem) h
  refine ⟨fun hrun => ?_, fun i r hr => ⟨hbalanced.paced i r hr, ?_⟩⟩
  · exact hbalanced.counted hrun
  · exact hbalanced.paced.take_succ hr (Int.ofNat_le.2 (budgetLimit_le _ _))

/-! ## Two runs -/

def readInt : Json → Option ℤ
  | .number q => some q.num
  | _ => none

def readText : Json → String
  | .str s => s
  | _ => ""

variable (content : String)

/-- An answer whose reply is `content`, with three tokens in and two out. -/
def replying : Answer where
  status := 200
  retryAfter := none
  text := "\x7b\"choices\":[\x7b\"message\":\x7b\"content\":\"" ++ content ++
    "\"\x7d\x7d],\"usage\":\x7b\"prompt_tokens\":3,\"completion_tokens\":2\x7d\x7d"

/-- An endpoint whose answers reply `content`. -/
def endpointOf : OpenAICompatibleProvider where
  python := {
    loads := fun _ => some (.object
      [("choices", .array [.object [("message", .object [("content", .str content)])]]),
        ("usage", .object [("prompt_tokens", .number 3), ("completion_tokens", .number 2)])])
    str := readText
    int := readInt
    casefold := id }
  baseUrl := ""
  modelWorker := "w"
  timeoutSeconds := "60"

def runtimeOf : Runtime :=
  ⟨default, .openAICompatible (endpointOf content), fun _ => "m"⟩

def emptyModel : Schema where
  name := "Empty"
  modelValidateJson := fun text => if text = "\x7b\x7d" then .ok (.object []) else .error ""

def planning (outcomes : List Outcome) (slice : Option ℕ) : Invocation where
  name := .planner
  agent := .planner
  readings := ⟨0, 0, 0, ⟨le_refl 0, le_refl 0⟩⟩
  calls := [⟨.planner, emptyModel, outcomes⟩]
  slice := slice
  output := {}

def fitting : List Invocation :=
  [planning [.answered (replying "\x7b\x7d")] none, planning [.timedOut] (some 1)]

theorem fitting_accepts :
    (endpointOf "\x7b\x7d").Accepts emptyModel (.answered (replying "\x7b\x7d")) :=
  ⟨_, _, _, rfl, rfl, rfl⟩

theorem fitting_spares (invocation : Invocation) (h : invocation ∈ fitting) :
    invocation.Spares (fun _ => none) (runtimeOf "\x7b\x7d").provider := by
  rcases List.mem_cons.1 h with rfl | h
  · refine ⟨fun hslice => absurd rfl hslice, fun call hcall outcome houtcome => ?_⟩
    obtain rfl := List.mem_singleton.1 hcall
    obtain rfl := List.mem_singleton.1 houtcome
    exact .inr fitting_accepts
  · obtain rfl := List.mem_singleton.1 h
    have htimeout : ∀ call ∈ (planning [.timedOut] (some 1)).calls, ∀ outcome ∈ call.outcomes,
        (runtimeOf "\x7b\x7d").provider.reported (fun _ => none) outcome = .zero := by
      intro call hcall outcome houtcome
      obtain rfl := List.mem_singleton.1 hcall
      obtain rfl := List.mem_singleton.1 houtcome
      rfl
    exact ⟨fun _ => htimeout, fun call hcall outcome houtcome =>
      .inl (htimeout call hcall outcome houtcome)⟩

theorem fitting_counted :
    ((runtimeOf "\x7b\x7d").after 10 (fun _ => .schema) fitting).crashed = false ∧
      ((runtimeOf "\x7b\x7d").after 10 (fun _ => .schema) fitting).state.tokensSpent =
        ⟨inputSpent ((runtimeOf "\x7b\x7d").provider.reported fun _ => none)
            ((runtimeOf "\x7b\x7d").after 10 (fun _ => .schema) fitting).sent,
          outputSpent ((runtimeOf "\x7b\x7d").provider.reported fun _ => none)
            ((runtimeOf "\x7b\x7d").after 10 (fun _ => .schema) fitting).sent⟩ := by
  have hrun : ((runtimeOf "\x7b\x7d").after 10 (fun _ => .schema) fitting).crashed = false := by
    decide
  exact ⟨hrun,
    (spend_counted (show (runtimeOf "\x7b\x7d").provider.Faithful fun _ => none from trivial) 10
      (fun _ => .schema) fitting fitting_spares).1 hrun⟩

def turnedDown : List Invocation :=
  [planning [.answered (replying "no"), .answered (replying "no")] none]

/-- A reply that is turned down is asked for again, and turned down again: ten tokens, none of them
counted. -/
theorem turnedDown_uncounted :
    ((runtimeOf "no").after 10 (fun _ => .schema) turnedDown).crashed = false ∧
      ((runtimeOf "no").after 10 (fun _ => .schema) turnedDown).state.tokensSpent ≠
        ⟨inputSpent ((runtimeOf "no").provider.reported fun _ => none)
            ((runtimeOf "no").after 10 (fun _ => .schema) turnedDown).sent,
          outputSpent ((runtimeOf "no").provider.reported fun _ => none)
            ((runtimeOf "no").after 10 (fun _ => .schema) turnedDown).sent⟩ := by
  decide

end OmniSense.Agents
