import OmniSense.Agents.Graph
import OmniSense.Library.Effect

/-! Termination of the investigation graph through the revision counter alone. A run walks down the
topology, and each way back up from the critic is paid for by the counter. -/

namespace OmniSense.Agents
open Library Option

variable {settings : AgentSettings} {readings : Readings} {name successor : NodeName}
  {state after : InvestigationState} {delta : Delta} {moment : ℤ} {halt : Halt} {run : Run}

/-! ## Guards -/

def guarded (settings : AgentSettings) (moment : ℤ) (state : InvestigationState) : Prop :=
  (checkGuards settings moment state).isSome

theorem guarded_iff : guarded settings moment state ↔
    state.status.isTerminal ∨ (firstBlockingError state).isSome ∨
      settings.maxSteps ≤ state.stepCount ∨ state.deadlineAt.any (· ≤ moment) ∨
      settings.tokenBudgetPerInvestigation ≤ state.tokensSpent.totalTokens := by
  unfold guarded checkGuards
  split_ifs with hcancelled hterminal hblocking hsteps hdeadline htokens
  · have hterminal : state.status.isTerminal := by rw [hcancelled]; rfl
    simp only [isSome_some, hterminal, true_or]
  all_goals simp_all

theorem firstBlockingError_append {errors : List AgentError}
    (h : (firstBlockingError state).isSome) (hafter : after.errors = state.errors ++ errors) :
    (firstBlockingError after).isSome := by
  unfold firstBlockingError at h ⊢
  rw [List.find?_isSome] at h ⊢
  obtain ⟨error, herror, hblocking⟩ := h
  refine ⟨error, ?_, hblocking⟩
  rw [hafter]
  exact List.mem_append_left errors herror

theorem guarded_after_halt {later : ℤ} (h : guarded settings moment state)
    (hlater : moment ≤ later) :
    guarded settings later (state.merged (haltDelta name halt state)) := by
  rw [guarded_iff] at h ⊢
  rcases h with hterminal | hblocking | hsteps | hdeadline | htokens
  · left
    simp only [InvestigationState.merged, haltDelta]
    split_ifs with hstamped
    · exact hstamped.2.1
    · exact hterminal
  · exact .inr (.inl (firstBlockingError_append hblocking rfl))
  · refine .inr (.inr (.inl ?_))
    simpa only [InvestigationState.merged, haltDelta, getD_none, add_zero] using hsteps
  · refine .inr (.inr (.inr (.inl ?_)))
    have hsame : (state.merged (haltDelta name halt state)).deadlineAt = state.deadlineAt := rfl
    rw [hsame]
    cases hat : state.deadlineAt with
    | none => simp only [hat, any_none, Bool.false_eq_true] at hdeadline
    | some deadline =>
      simp only [hat, any_some, decide_eq_true_eq] at hdeadline ⊢
      exact hdeadline.trans hlater
  · exact .inr (.inr (.inr (.inr htokens)))

theorem checkGuards_route (h : checkGuards settings moment state = some halt) :
    halt.route = .finish ∨ halt.route = .node .report := by
  unfold checkGuards at h
  split_ifs at h <;> cases h <;> simp only [true_or, or_true]

/-! ## Edges -/

def nodeRank : NodeName → ℕ
  | .planner => 9
  | .collector => 8
  | .retriever => 7
  | .graphExpansion => 6
  | .insight => 5
  | .strategy => 4
  | .critic => 3
  | .report => 2
  | .criticFinal => 1

theorem nodeRank_pos : 0 < nodeRank name := by
  cases name <;> decide

theorem nodeRank_lt_of_halt (h : checkGuards settings moment state = some halt)
    (hroute : halt.route = .node successor) (hreport : name ≠ .report)
    (hfinal : name ≠ .criticFinal) : nodeRank successor < nodeRank name := by
  rcases checkGuards_route h with hend | hship
  · rw [hend] at hroute
    cases hroute
  · rw [hship] at hroute
    cases hroute
    cases name <;> first | contradiction | decide

theorem routeGuarded_rank (h : routeGuarded name settings moment state = .node successor)
    {source : NodeName} (hname : nodeRank name < nodeRank source) (hreport : source ≠ .report)
    (hfinal : source ≠ .criticFinal) : nodeRank successor < nodeRank source := by
  unfold routeGuarded at h
  split at h
  · next halt hhalt => exact nodeRank_lt_of_halt hhalt h hreport hfinal
  · cases h
    exact hname

theorem routeAfterPlanner_rank (h : routeAfterPlanner settings moment state = .node successor) :
    nodeRank successor < nodeRank .planner := by
  unfold routeAfterPlanner at h
  split at h
  · next halt hhalt => exact nodeRank_lt_of_halt hhalt h (by decide) (by decide)
  · split_ifs at h <;> cases h <;> decide

theorem dispatchAnalysis_eq : dispatchAnalysis settings moment state =
    [routeGuarded .insight settings moment state] := by
  -- No branch is wired, so the dispatch names one node.
  have hnone : plannedBranches state = [] := rfl
  unfold dispatchAnalysis routeGuarded
  rw [hnone]
  split <;> rfl

variable {critique : Object} {i : ℕ}

theorem reentryTarget_mem {stage : NodeName} (h : reentryTarget critique = .ok stage) :
    stage = .retriever ∨ stage = .insight ∨ stage = .strategy := by
  have htable : ∀ word : String, ∀ stage : NodeName,
      (REENTRY_TARGETS.lookup word).getD .insight = stage →
        stage = .retriever ∨ stage = .insight ∨ stage = .strategy := by
    intro word stage hstage
    simp only [REENTRY_TARGETS, List.lookup_cons, List.lookup_nil] at hstage
    repeat' split at hstage
    all_goals
      subst hstage
      simp only [getD_some, getD_none, true_or, or_true]
  obtain ⟨named, _, hnamed⟩ := ok_of_map h
  exact htable _ _ hnamed

theorem routeAfterCritic_cases
    (h : routeAfterCritic settings moment state = .ok (.node successor)) :
    nodeRank successor < nodeRank .critic ∨
      (¬ guarded settings moment state ∧
        verdictOr "accept" (standingCritique state) = "revise" ∧
        state.revisionCount < settings.maxCriticRevisions ∧
        (successor = .retriever ∨ successor = .insight ∨ successor = .strategy)) := by
  have hreport : nodeRank .report < nodeRank .critic := by decide
  unfold routeAfterCritic at h
  split at h
  · next halt hhalt =>
    exact .inl (nodeRank_lt_of_halt hhalt (Except.ok.inj h) (by decide) (by decide))
  · next hnone =>
    split_ifs at h with hverdict hcap hartifact
    · cases h
      exact .inl hreport
    · cases h
      exact .inl hreport
    · cases h
      exact .inl hreport
    · obtain ⟨stalled, _, hbranch⟩ := ok_of_bind h
      split_ifs at hbranch
      · cases hbranch
        exact .inl hreport
      · obtain ⟨stage, hstage, hnode⟩ := ok_of_map hbranch
        cases hnode
        refine .inr ⟨?_, not_not.mp hverdict, not_le.mp hcap, reentryTarget_mem hstage⟩
        unfold guarded
        rw [hnone]
        exact Bool.false_ne_true

theorem nextRoute_cases (h : nextRoute settings moment name state = .ok (.node successor)) :
    nodeRank successor < nodeRank name ∨
      (name = .critic ∧ ¬ guarded settings moment state ∧
        verdictOr "accept" (standingCritique state) = "revise" ∧
        state.revisionCount < settings.maxCriticRevisions ∧
        (successor = .retriever ∨ successor = .insight ∨ successor = .strategy)) := by
  -- Every edge leads down, apart from the way back from an unsatisfied critic.
  cases name with
  | planner => exact .inl (routeAfterPlanner_rank (Except.ok.inj h))
  | collector | retriever | insight | strategy =>
    exact .inl (routeGuarded_rank (Except.ok.inj h) (by decide) (by decide) (by decide))
  | graphExpansion =>
    have hdispatch := Except.ok.inj h
    rw [dispatchAnalysis_eq] at hdispatch
    exact .inl (routeGuarded_rank hdispatch (by decide) (by decide) (by decide))
  | critic => exact (routeAfterCritic_cases h).imp_right fun hback => ⟨rfl, hback⟩
  | report =>
    cases h
    exact .inl (by decide)
  | criticFinal => cases h

/-! ## What the wrapper writes -/

def Delta.loopKeys (delta : Delta) : Option (Option Object) × Option (List Object) × Option ℤ :=
  (delta.critique, delta.critiqueHistory, delta.revisionCount)

@[simp] theorem haltDelta_loopKeys :
    (haltDelta name halt state).loopKeys = (none, none, none) := rfl

@[simp] theorem recordHalt_loopKeys :
    (recordHalt name halt delta state).loopKeys = delta.loopKeys := by
  unfold recordHalt
  split_ifs <;> rfl

theorem mirrorCritique_revisionCount :
    (mirrorCritique delta).revisionCount = delta.revisionCount := by
  unfold mirrorCritique
  split <;> rfl

theorem stampStatus_loopKeys {stamped : Delta}
    (h : stampStatus settings moment name delta state = .ok stamped) :
    stamped.loopKeys = delta.loopKeys := by
  unfold stampStatus at h
  split_ifs at h with hquiet hfinal
  · cases h
    rfl
  · obtain ⟨status, _, hstatus⟩ := ok_of_map h
    rw [← hstatus]
    rfl
  · dsimp only at h
    split at h <;> cases h <;> rfl

theorem merged_revisionCount :
    (state.merged delta).revisionCount = delta.loopKeys.2.2.getD state.revisionCount := rfl

theorem merged_critique : (state.merged delta).critique = delta.loopKeys.1.getD state.critique :=
  rfl

theorem wrapNode_cases {node : InvestigationState → NodeResult}
    (h : wrapNode settings readings name node state = .ok delta) :
    (∃ halt, skips settings readings.entry name state = some halt ∧
        delta = haltDelta name halt state) ∨
      (skips settings readings.entry name state = none ∧
        delta.loopKeys = (ruledDelta settings readings.entry name
          (calledDelta name (node state)) state).loopKeys) := by
  unfold wrapNode at h
  split at h
  · next halt hskip => exact .inl ⟨halt, hskip, (Except.ok.inj h).symm⟩
  · next hskip => exact .inr ⟨hskip, stampStatus_loopKeys h⟩

/-! ## The revision counter -/

/-- Re-entries paid for: those counted, and the one a standing `revise` is about to cost. -/
def spent (state : InvestigationState) : ℤ :=
  state.revisionCount + if verdictOf state.critique = "revise" then 1 else 0

theorem revisionCount_le_spent : state.revisionCount ≤ spent state := by
  unfold spent
  split_ifs <;> omega

theorem spent_of_revise (h : verdictOr "accept" (standingCritique state) = "revise") :
    spent state = state.revisionCount + 1 := by
  have hverdict : verdictOf state.critique = "revise" := by
    unfold standingCritique at h
    cases hcritique : state.critique with
    | none =>
      rw [hcritique] at h
      exact absurd h (by decide)
    | some critique =>
      simp only [hcritique, getD_some] at h
      unfold verdictOr at h
      unfold verdictOf verdictOr
      cases hword : (Object.get critique "verdict").map Payload.word with
      | none =>
        rw [hword] at h
        exact absurd h (by decide)
      | some word =>
        rw [hword] at h
        simpa only [hword, getD_some] using h
  unfold spent
  rw [if_pos hverdict]

theorem spent_merged_of_quiet (h : delta.loopKeys = (none, none, none)) :
    spent (state.merged delta) = spent state := by
  unfold spent
  rw [merged_revisionCount, merged_critique, h]
  rfl

theorem skips_critic :
    skips settings moment .critic state = checkGuards settings moment state := by
  unfold skips
  cases checkGuards settings moment state with
  | none | some => rfl

theorem spent_le_revisionCount {called : Delta}
    (hskip : skips settings moment .critic state = none)
    (hcount : verdictOf state.critique ≠ "revise" → ∀ count, called.revisionCount = some count →
      state.revisionCount ≤ count)
    (hkeys : delta.loopKeys = (ruledDelta settings moment .critic called state).loopKeys) :
    spent state ≤ (state.merged delta).revisionCount := by
  -- A critic that was called leaves the counter at what the loop has cost so far, or above.
  rw [skips_critic] at hskip
  rw [merged_revisionCount, hkeys]
  unfold ruledDelta spent
  simp only [hskip, enforceRevisionProgress]
  split_ifs with hrevise
  · exact le_max_right _ _
  · change _ ≤ (mirrorCritique called).revisionCount.getD state.revisionCount
    rw [mirrorCritique_revisionCount, add_zero]
    cases hwritten : called.revisionCount with
    | none => exact le_rfl
    | some count => exact hcount hrevise count hwritten

theorem ruledDelta_loopKeys {called : Delta} (hcritic : name ≠ .critic)
    (hfinal : name ≠ .criticFinal) :
    (ruledDelta settings moment name called state).loopKeys = called.loopKeys := by
  unfold ruledDelta
  cases name <;> first
    | contradiction
    | (dsimp only
       split
       · exact recordHalt_loopKeys
       · rfl)

/-! ## Runs -/

theorem Run.trace_succ_running (h : run.trace (i + 1) = .running successor after) :
    ∃ name state delta, run.trace i = .running name state ∧
      wrapNode run.settings (run.readings i) name (run.nodes i name) state = .ok delta ∧
      after = state.merged delta ∧
      nextRoute run.settings (run.readings i).edge name after = .ok (.node successor) := by
  change superstep _ _ _ (run.trace i) = _ at h
  unfold superstep at h
  split at h
  · next name state hat =>
    split at h
    · cases h
    · next delta hdelta =>
      dsimp only at h
      split at h
      · cases h
      · cases h
      · next node hroute =>
        cases h
        exact ⟨name, state, delta, hat, hdelta, rfl, hroute⟩
  · cases h
  · cases h

/-- The critic does not turn the counter back on a pass that no `revise` verdict led to. -/
def Run.CountsForward (run : Run) : Prop :=
  ∀ i state delta count, run.Returns i .critic state delta →
    verdictOf state.critique ≠ "revise" → delta.revisionCount = some count →
      state.revisionCount ≤ count

theorem Run.CriticOwned.quiet (howned : run.CriticOwned) (hcritic : name ≠ .critic)
    (hfinal : name ≠ .criticFinal) (hat : run.trace i = .running name state)
    (hwrap : wrapNode run.settings (run.readings i) name (run.nodes i name) state = .ok delta) :
    delta.loopKeys = (none, none, none) := by
  rcases wrapNode_cases hwrap with ⟨halt, _, rfl⟩ | ⟨hskip, hkeys⟩
  · exact haltDelta_loopKeys
  · rw [hkeys, ruledDelta_loopKeys hcritic hfinal]
    cases hresult : run.nodes i name state with
    | raised errorType recoverable => rfl
    | returned written =>
      obtain ⟨hcritique, hhistory, hcount⟩ :=
        howned i name state written ⟨hat, hskip, hresult⟩ hcritic hfinal
      change (written.critique, written.critiqueHistory, written.revisionCount) = _
      rw [hcritique, hhistory, hcount]

theorem reenters_iff : Reenters (.running name state) (.running successor after) ↔
    name = .critic ∧ (successor = .retriever ∨ successor = .insight ∨ successor = .strategy) := by
  cases name <;> cases successor <;> simp [Reenters, reenters]

theorem Reenters.running {before later : Config} (h : Reenters before later) :
    ∃ name state successor after,
      before = .running name state ∧ later = .running successor after := by
  unfold Reenters reenters at h
  split at h
  all_goals first
    | exact ⟨_, _, _, _, rfl, rfl⟩
    | cases h

theorem reentry_unbraked (hback : Reenters (.running name state) (.running successor after))
    (hroute : nextRoute settings moment name after = .ok (.node successor)) :
    name = .critic ∧ ¬ guarded settings moment after ∧
      verdictOr "accept" (standingCritique after) = "revise" ∧
      after.revisionCount < settings.maxCriticRevisions := by
  -- Where the run goes back up from the critic, no brake held.
  obtain ⟨rfl, htarget⟩ := reenters_iff.mp hback
  rcases nextRoute_cases hroute with hdown | ⟨_, hguard, hverdict, hcap, _⟩
  · rcases htarget with rfl | rfl | rfl <;> exact absurd hdown (by decide)
  · exact ⟨rfl, hguard, hverdict, hcap⟩

theorem Run.spent_step (howned : run.CriticOwned) (hcounts : run.CountsForward)
    (hat : run.trace i = .running name state)
    (hnext : run.trace (i + 1) = .running successor after) :
    spent state ≤ spent after ∧
      (Reenters (run.trace i) (run.trace (i + 1)) →
        spent state + 1 ≤ spent after ∧ spent after ≤ run.settings.maxCriticRevisions) := by
  -- One superstep never lowers what the loop has cost, and a re-entry is paid for within the cap.
  obtain ⟨_, _, delta, hat', hwrap, rfl, hroute⟩ := Run.trace_succ_running hnext
  rw [hat] at hat'
  cases hat'
  rw [hat, hnext]
  by_cases hcritic : name = .critic
  · subst hcritic
    rcases wrapNode_cases hwrap with ⟨halt, hskip, rfl⟩ | ⟨hskip, hkeys⟩
    · -- A skipped critic counts nothing, and the guard that skipped it ships the report.
      refine ⟨(spent_merged_of_quiet haltDelta_loopKeys).ge, fun hback => ?_⟩
      have hfired : guarded run.settings (run.readings i).entry state := by
        unfold guarded
        rw [← skips_critic, hskip]
        rfl
      have hlater := (run.readings i).forward
      have hstill : guarded run.settings (run.readings i).edge
          (state.merged (haltDelta .critic halt state)) :=
        guarded_after_halt hfired (hlater.1.trans hlater.2)
      exact absurd hstill (reentry_unbraked hback hroute).2.1
    · have hcount : verdictOf state.critique ≠ "revise" → ∀ count,
          (calledDelta .critic (run.nodes i .critic state)).revisionCount = some count →
            state.revisionCount ≤ count := by
        intro hverdict count hwritten
        cases hresult : run.nodes i .critic state with
        | raised errorType recoverable =>
          rw [hresult] at hwritten
          cases hwritten
        | returned written =>
          rw [hresult] at hwritten
          exact hcounts i state written count ⟨hat, hskip, hresult⟩ hverdict hwritten
      have hpaid := spent_le_revisionCount hskip hcount hkeys
      refine ⟨hpaid.trans revisionCount_le_spent, fun hback => ?_⟩
      obtain ⟨_, _, hverdict, hcap⟩ := reentry_unbraked hback hroute
      rw [spent_of_revise hverdict]
      exact ⟨by omega, by omega⟩
  · have hfinal : name ≠ .criticFinal := by
      rintro rfl
      cases hroute
    have hquiet := howned.quiet hcritic hfinal hat hwrap
    refine ⟨(spent_merged_of_quiet hquiet).ge, fun hback => ?_⟩
    exact absurd (reenters_iff.mp hback).1 hcritic

theorem Run.laps_le_spent (howned : run.CriticOwned) (hcounts : run.CountsForward) (n : ℕ) :
    run.reentries n ≤ run.settings.maxCriticRevisions ∧
      ∀ name state, run.trace n = .running name state → (run.reentries n : ℤ) ≤ spent state := by
  induction n with
  | zero =>
    refine ⟨Nat.zero_le _, fun name state hat => ?_⟩
    cases hat
    exact le_rfl
  | succ n ih =>
    obtain ⟨hcap, hpaid⟩ := ih
    unfold Run.reentries at hcap hpaid ⊢
    by_cases hback : Reenters (run.trace n) (run.trace (n + 1))
    · obtain ⟨name, state, successor, after, hat, hnext⟩ := hback.running
      have hstep := (Run.spent_step howned hcounts hat hnext).2 hback
      have hbefore := hpaid name state hat
      rw [laps_succ_of_lap hback]
      refine ⟨by omega, fun successor' after' hnext' => ?_⟩
      rw [hnext] at hnext'
      cases hnext'
      push_cast
      omega
    · rw [laps_succ_of_not hback]
      refine ⟨hcap, fun successor after hnext => ?_⟩
      obtain ⟨name, state, delta, hat, _⟩ := Run.trace_succ_running hnext
      exact (hpaid name state hat).trans (Run.spent_step howned hcounts hat hnext).1

/-! ## Findings that can be read -/

def Readable (critique : Object) : Prop := ∃ found, findings critique = .ok found

structure Sound (state : InvestigationState) : Prop where
  standing : Readable (standingCritique state)
  history : ∀ critique ∈ state.critiqueHistory, Readable critique

structure Delta.Sound (delta : Delta) : Prop where
  critique : ∀ critique, delta.critique = some (some critique) → Readable critique
  history : ∀ history, delta.critiqueHistory = some history →
    ∀ critique ∈ history, Readable critique

theorem Readable.nil : Readable [] := ⟨[], rfl⟩

theorem Delta.Sound.of_quiet (h : delta.loopKeys = (none, none, none)) : delta.Sound := by
  obtain ⟨hcritique, hrest⟩ := Prod.mk.inj h
  obtain ⟨hhistory, _⟩ := Prod.mk.inj hrest
  refine ⟨fun critique hwritten => ?_, fun history hwritten => ?_⟩
  · rw [hcritique] at hwritten
    cases hwritten
  · rw [hhistory] at hwritten
    cases hwritten

theorem Delta.Sound.congr {other : Delta} (h : delta.Sound)
    (hcritique : other.critique = delta.critique)
    (hhistory : other.critiqueHistory = delta.critiqueHistory) : other.Sound := by
  refine ⟨fun critique hwritten => h.critique critique ?_,
    fun history hwritten => h.history history ?_⟩
  · rw [← hcritique, hwritten]
  · rw [← hhistory, hwritten]

theorem Delta.Sound.mirror (h : delta.Sound) : (mirrorCritique delta).Sound := by
  unfold mirrorCritique
  split
  · next critique hcritique hhistory =>
    refine ⟨h.critique, fun history hwritten other hother => ?_⟩
    cases hwritten
    rw [List.mem_singleton.mp hother]
    exact h.critique critique hcritique
  · exact h

theorem Sound.merged (hstate : Sound state) (hdelta : delta.Sound) :
    Sound (state.merged delta) := by
  refine ⟨?_, fun critique hcritique => ?_⟩
  · unfold standingCritique
    change Readable ((delta.critique.getD state.critique).getD [])
    cases hwritten : delta.critique with
    | none => exact hstate.standing
    | some critique =>
      cases critique with
      | none => exact .nil
      | some critique => exact hdelta.critique critique hwritten
  · change critique ∈ state.critiqueHistory ++ delta.critiqueHistory.getD [] at hcritique
    rcases List.mem_append.mp hcritique with hold | hnew
    · exact hstate.history critique hold
    · cases hwritten : delta.critiqueHistory with
      | none =>
        rw [hwritten] at hnew
        cases hnew
      | some history =>
        rw [hwritten] at hnew
        exact hdelta.history history hwritten critique hnew

theorem Readable.unresolvedCount (h : Readable critique) :
    ∃ count, unresolvedCount critique = .ok count := by
  obtain ⟨found, hfound⟩ := h
  unfold Agents.unresolvedCount
  rw [hfound]
  exact ⟨_, rfl⟩

theorem Readable.reentryTarget (h : Readable critique) :
    ∃ stage, reentryTarget critique = .ok stage := by
  obtain ⟨found, hfound⟩ := h
  unfold Agents.reentryTarget namedStage
  rw [hfound]
  split <;> exact ⟨_, rfl⟩

theorem lastTwo_mem {latest previous : Object} (h : lastTwo state = some (latest, previous)) :
    latest ∈ state.critiqueHistory ∧ previous ∈ state.critiqueHistory := by
  unfold lastTwo at h
  split at h
  · next latest' previous' rest hreverse =>
    cases h
    constructor <;> rw [← List.mem_reverse, hreverse] <;> simp
  · cases h

theorem Sound.progressStalled (h : Sound state) : ∃ stalled, progressStalled state = .ok stalled := by
  unfold Agents.progressStalled
  split
  · exact ⟨false, rfl⟩
  · next latest previous htwo =>
    obtain ⟨hlatest, hprevious⟩ := lastTwo_mem htwo
    obtain ⟨now, hnow⟩ := (h.history latest hlatest).unresolvedCount
    obtain ⟨before, hbefore⟩ := (h.history previous hprevious).unresolvedCount
    rw [hnow, hbefore]
    exact ⟨_, rfl⟩

theorem Sound.routeAfterCritic (h : Sound state) :
    ∃ route, routeAfterCritic settings moment state = .ok route := by
  obtain ⟨stalled, hstalled⟩ := h.progressStalled
  obtain ⟨stage, hstage⟩ := h.standing.reentryTarget
  unfold Agents.routeAfterCritic
  rw [hstalled, hstage]
  split
  · exact ⟨_, rfl⟩
  · split_ifs
    · exact ⟨_, rfl⟩
    · exact ⟨_, rfl⟩
    · exact ⟨_, rfl⟩
    · cases stalled <;> exact ⟨_, rfl⟩

theorem Sound.nextRoute (h : Sound state) :
    ∃ route, nextRoute settings moment name state = .ok route := by
  cases name with
  | critic => exact h.routeAfterCritic
  | _ => exact ⟨_, rfl⟩

theorem Sound.terminalStatus (h : Sound state) :
    ∃ status, terminalStatus settings moment state = .ok status := by
  obtain ⟨count, hcount⟩ := h.standing.unresolvedCount
  unfold Agents.terminalStatus
  dsimp only
  rw [hcount]
  split_ifs <;> exact ⟨_, rfl⟩

theorem Sound.stampStatus (h : Sound (state.merged delta)) :
    ∃ stamped, stampStatus settings moment name delta state = .ok stamped := by
  obtain ⟨status, hstatus⟩ := h.terminalStatus
  unfold Agents.stampStatus
  dsimp only
  rw [hstatus]
  split_ifs
  · exact ⟨_, rfl⟩
  · exact ⟨_, rfl⟩
  · split <;> exact ⟨_, rfl⟩

theorem Delta.Sound.ruled (h : delta.Sound) :
    (ruledDelta settings moment name delta state).Sound := by
  have hrecorded : ∀ halt, (recordHalt name halt delta state).Sound := by
    intro halt
    unfold recordHalt
    split_ifs
    · exact h
    · exact h.congr rfl rfl
  have henforced : ∀ recorded : Delta, recorded.Sound →
      (enforceRevisionProgress recorded state).Sound := by
    intro recorded hsound
    unfold enforceRevisionProgress
    split_ifs
    · exact hsound.mirror.congr rfl rfl
    · exact hsound.mirror
  unfold ruledDelta
  cases checkGuards settings moment state with
  | none =>
    cases name with
    | critic => exact henforced delta h
    | criticFinal => exact h.congr rfl rfl
    | _ => exact h
  | some halt =>
    cases name with
    | critic => exact henforced _ (hrecorded halt)
    | criticFinal => exact (hrecorded halt).congr rfl rfl
    | _ => exact hrecorded halt

def Run.ReadableCritiques (run : Run) : Prop :=
  ∀ i name state delta, run.Returns i name state delta → delta.Sound

theorem Run.ReadableCritiques.wrapNode (hreadable : run.ReadableCritiques)
    (hat : run.trace i = .running name state) (hstate : Sound state) :
    ∃ delta, wrapNode run.settings (run.readings i) name (run.nodes i name) state = .ok delta ∧
      delta.Sound := by
  unfold Agents.wrapNode
  cases hskip : skips run.settings (run.readings i).entry name state with
  | some halt => exact ⟨_, rfl, .of_quiet haltDelta_loopKeys⟩
  | none =>
    have hcalled : (calledDelta name (run.nodes i name state)).Sound := by
      cases hresult : run.nodes i name state with
      | raised errorType recoverable => exact .of_quiet rfl
      | returned written => exact (hreadable i name state written ⟨hat, hskip, hresult⟩).congr rfl rfl
    have hruled : (ruledDelta run.settings (run.readings i).entry name
        (calledDelta name (run.nodes i name state)) state).Sound := hcalled.ruled
    obtain ⟨stamped, hstamped⟩ := (hstate.merged hruled).stampStatus
    have hkeys := stampStatus_loopKeys hstamped
    refine ⟨stamped, hstamped, hruled.congr ?_ ?_⟩
    · exact congrArg Prod.fst hkeys
    · exact congrArg (·.2.1) hkeys

theorem Run.ReadableCritiques.trace (hreadable : run.ReadableCritiques) (n : ℕ) :
    run.trace n ≠ .crashed ∧ ∀ name state, run.trace n = .running name state → Sound state := by
  induction n with
  | zero =>
    refine ⟨Config.noConfusion, fun name state hat => ?_⟩
    cases hat
    exact ⟨.nil, fun critique hcritique => nomatch hcritique⟩
  | succ n ih =>
    obtain ⟨hrunning, hsound⟩ := ih
    change superstep _ _ _ (run.trace n) ≠ _ ∧ ∀ name state, superstep _ _ _ (run.trace n) = _ → _
    cases hat : run.trace n with
    | crashed => exact absurd hat hrunning
    | ended state => exact ⟨Config.noConfusion, fun _ _ hended => nomatch hended⟩
    | running name state =>
      obtain ⟨delta, hwrap, hdelta⟩ := hreadable.wrapNode hat (hsound name state hat)
      have hafter := (hsound name state hat).merged hdelta
      obtain ⟨route, hroute⟩ : ∃ route, nextRoute run.settings (run.readings n).edge name
          (state.merged delta) = .ok route := hafter.nextRoute
      unfold superstep
      simp only [hwrap, hroute]
      cases route with
      | finish => exact ⟨Config.noConfusion, fun _ _ hended => nomatch hended⟩
      | node successor =>
        refine ⟨Config.noConfusion, fun name' state' hnext => ?_⟩
        cases hnext
        exact hafter

/-! ## Termination -/

def configRank : Config → ℕ
  | .running name _ => nodeRank name
  | .ended _ | .crashed => 0

theorem Run.configRank_down (i : ℕ) (hlive : 0 < configRank (run.trace i))
    (hback : ¬ Reenters (run.trace i) (run.trace (i + 1))) :
    configRank (run.trace (i + 1)) < configRank (run.trace i) := by
  cases hnext : run.trace (i + 1) with
  | ended | crashed => exact hlive
  | running successor after =>
    obtain ⟨name, state, delta, hat, _, _, hroute⟩ := Run.trace_succ_running hnext
    rw [hat, hnext] at hback
    rw [hat]
    rcases nextRoute_cases hroute with hdown | ⟨hcritic, _, _, _, htarget⟩
    · exact hdown
    · exact absurd (reenters_iff.mpr ⟨hcritic, htarget⟩) hback

theorem configRank_reenters {before later : Config} (h : Reenters before later) :
    configRank later < configRank before + 5 := by
  obtain ⟨name, state, successor, after, rfl, rfl⟩ := h.running
  obtain ⟨rfl, htarget⟩ := reenters_iff.mp h
  rcases htarget with rfl | rfl | rfl <;> simp [configRank, nodeRank]

theorem zero_forward : (0 : ℤ) ≤ 0 ∧ (0 : ℤ) ≤ 0 := ⟨le_rfl, le_rfl⟩

/-- A run in which the critic writes `delta` on every pass and the other nodes write nothing. -/
def criticRun (settings : AgentSettings) (delta : Delta) : Run where
  settings := settings
  readings _ := ⟨0, 0, 0, zero_forward⟩
  nodes _ name _ := if name = .critic then .returned delta else .returned {}
  deadlineAt := 1

theorem criticRun_owned : (criticRun settings delta).CriticOwned := by
  rintro i name state written ⟨_, _, hresult⟩ hcritic _
  simp only [criticRun, if_neg hcritic, NodeResult.returned.injEq] at hresult
  subst hresult
  exact ⟨rfl, rfl, rfl⟩

theorem criticRun_writes {written : Delta}
    (h : (criticRun settings delta).Returns i name state written) :
    written = delta ∨ written = {} := by
  have hresult := h.2.2
  unfold criticRun at hresult
  dsimp only at hresult
  split_ifs at hresult
  · exact .inl (NodeResult.returned.inj hresult).symm
  · exact .inr (NodeResult.returned.inj hresult).symm

def revisingDelta : Delta where
  critique := some (some [("verdict", .str "Revise"), ("target_stage", .str "retriever")])

def TerminatesByRevisions : Prop :=
  ∃ bound : ℕ → ℕ, ∀ run : Run, run.CriticOwned →
    (∀ n, run.reentries n ≤ run.settings.maxCriticRevisions) ∧
      ∃ n ≤ bound run.settings.maxCriticRevisions, ∃ state, run.trace n = .ended state

def negativeCountDelta : Delta where
  critique := some (some [("verdict", .str "revise")])
  revisionCount := some (-1)

end OmniSense.Agents
