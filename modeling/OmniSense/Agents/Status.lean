import OmniSense.Agents.Termination

/-! The status a run comes to rest with. While the graph runs, a status that is terminal and an
unrecoverable error both mean `failed`; the final critic settles everything else. -/

namespace OmniSense.Agents
open Library Option

variable {settings : AgentSettings} {readings : Readings} {name successor : NodeName}
  {state after : InvestigationState} {delta : Delta} {moment : ℤ} {halt : Halt} {run : Run}

def InvestigationState.isBlocked (state : InvestigationState) : Prop :=
  ∃ error ∈ state.errors, error.recoverable = false

theorem firstBlockingError_isSome : (firstBlockingError state).isSome ↔ state.isBlocked := by
  unfold firstBlockingError InvestigationState.isBlocked
  rw [List.find?_isSome]
  simp only [Bool.not_eq_true']

/-- What holds before every node: nothing but a failure is final yet, and no error is fatal
without being one. -/
def Unsettled (state : InvestigationState) : Prop :=
  state.status.isTerminal ∨ state.isBlocked → state.status = .failed

/-- What holds at `END`. -/
def Settled (state : InvestigationState) : Prop :=
  state.status.isTerminal ∧ (state.isBlocked → state.status = .failed)

/-! ## The guard that ends a run -/

theorem checkGuards_finish (h : checkGuards settings moment state = some halt)
    (hroute : halt.route = .finish) :
    (state.status.isTerminal ∧ halt.status = state.status) ∨
      (state.isBlocked ∧ halt.status = .failed) := by
  unfold checkGuards at h
  split_ifs at h with hcancelled hterminal hblocked
  · cases h
    exact .inl ⟨by rw [hcancelled]; rfl, hcancelled.symm⟩
  · cases h
    exact .inl ⟨hterminal, rfl⟩
  · cases h
    exact .inr ⟨firstBlockingError_isSome.mp hblocked, rfl⟩
  all_goals
    cases h
    cases hroute

theorem checkGuards_report (h : checkGuards settings moment state = some halt)
    (hroute : halt.route ≠ .finish) :
    state.status.isTerminal = false ∧ ¬ state.isBlocked ∧ halt.status ≠ .failed := by
  -- A guard that ships a report means that nothing is final.
  unfold checkGuards at h
  split_ifs at h with hcancelled hterminal hblocked
  · cases h
    exact absurd rfl hroute
  · cases h
    exact absurd rfl hroute
  · cases h
    exact absurd rfl hroute
  all_goals
    cases h
    refine ⟨by simpa using hterminal, fun hb => hblocked (firstBlockingError_isSome.mpr hb), ?_⟩
    decide

theorem checkGuards_none (h : checkGuards settings moment state = none) :
    state.status.isTerminal = false ∧ ¬ state.isBlocked := by
  have hguard : ¬ guarded settings moment state := by
    unfold guarded
    rw [h]
    exact Bool.false_ne_true
  rw [guarded_iff, not_or, not_or] at hguard
  exact ⟨by simpa using hguard.1, fun hb => hguard.2.1 (firstBlockingError_isSome.mpr hb)⟩

theorem Unsettled.failed_of_halt (h : Unsettled state)
    (hguard : checkGuards settings moment state = some halt) (hroute : halt.route = .finish) :
    halt.status = .failed := by
  rcases checkGuards_finish hguard hroute with ⟨hterminal, hsame⟩ | ⟨-, hfailed⟩
  · exact hsame.trans (h (.inl hterminal))
  · exact hfailed

/-! ## One node -/

theorem isBlocked_haltDelta (h : (state.merged (haltDelta name halt state)).isBlocked)
    (hstatus : halt.status ≠ .failed) : state.isBlocked := by
  obtain ⟨error, herror, hfatal⟩ := h
  have hmem : error ∈ state.errors ∨ error ∈ [haltError halt (NODE_AGENT name)] := by
    rcases List.mem_append.mp herror with hold | hnew
    · exact .inl hold
    · right
      change error ∈ (if alreadyRecorded state halt.reason.text then none
        else some [haltError halt (NODE_AGENT name)] : Option (List AgentError)).getD [] at hnew
      split_ifs at hnew
      · cases hnew
      · exact hnew
  rcases hmem with hold | hnew
  · exact ⟨error, hold, hfatal⟩
  · obtain rfl := List.mem_singleton.mp hnew
    simp [haltError, hstatus] at hfatal

theorem Unsettled.skip (h : Unsettled state)
    (hskip : skips settings moment name state = some halt) :
    Unsettled (state.merged (haltDelta name halt state)) := by
  obtain ⟨hguard, -⟩ := filter_eq_some_iff.mp hskip
  have hconcurrent : name ∉ CONCURRENT_NODES := List.not_mem_nil
  by_cases hroute : halt.route = .finish
  · intro _
    have hfailed := h.failed_of_halt hguard hroute
    have hstamp : (haltDelta name halt state).status = some .failed := by
      unfold haltDelta
      rw [if_pos ⟨hconcurrent, by rw [hfailed]; rfl, hroute⟩, hfailed]
    simp [InvestigationState.merged, hstamp]
  · obtain ⟨hrunning, hfree, hstatus⟩ := checkGuards_report hguard hroute
    have hsame : (state.merged (haltDelta name halt state)).status = state.status := by
      simp [InvestigationState.merged, haltDelta, hroute]
    rintro (hterminal | hblocked)
    · rw [hsame, hrunning] at hterminal
      cases hterminal
    · exact absurd (isBlocked_haltDelta hblocked hstatus) hfree

theorem Unsettled.skip_final (h : Unsettled state)
    (hskip : skips settings moment .criticFinal state = some halt) :
    (state.merged (haltDelta .criticFinal halt state)).status = .failed := by
  obtain ⟨hguard, hexempt⟩ := filter_eq_some_iff.mp hskip
  have hroute : halt.route = .finish := by
    by_contra hroute
    simp [isExempt, TERMINAL_NODES, hroute] at hexempt
  have hfailed := h.failed_of_halt hguard hroute
  simp [InvestigationState.merged, haltDelta, CONCURRENT_NODES, hroute, hfailed,
    InvestigationStatus.isTerminal]

theorem ruledDelta_status {called : Delta} :
    (ruledDelta settings moment name called state).status = called.status := by
  have hrecord : ∀ halt, (recordHalt name halt called state).status = called.status := by
    intro halt
    unfold recordHalt
    split_ifs <;> rfl
  have hmirror : ∀ delta : Delta, (mirrorCritique delta).status = delta.status := by
    intro delta
    unfold mirrorCritique
    split <;> rfl
  have hrevision : ∀ delta : Delta,
      (enforceRevisionProgress delta state).status = delta.status := by
    intro delta
    unfold enforceRevisionProgress
    split_ifs
    · exact hmirror delta
    · exact hmirror delta
  unfold ruledDelta
  rcases checkGuards settings moment state with _ | halt
  · cases name <;> first | rfl | exact hrevision _
  · cases name <;> first
      | exact hrecord halt
      | exact (hrevision _).trans (hrecord halt)

theorem terminalStatus_settled {status : InvestigationStatus}
    (h : terminalStatus settings moment state = .ok status) :
    status.isTerminal ∧ (state.isBlocked → status = .failed) := by
  unfold terminalStatus at h
  dsimp only at h
  split_ifs at h with hblocked hstopped
  · cases h
    exact ⟨rfl, fun _ => rfl⟩
  all_goals
    have hfree : ¬ state.isBlocked := fun hb => hblocked (firstBlockingError_isSome.mpr hb)
    refine ⟨?_, fun hb => absurd hb hfree⟩
  · cases h
    rcases hstopped with hs | hs <;> (rw [hs]; rfl)
  · cases h
    rfl
  · cases h
    rfl
  · obtain ⟨unresolved, -, hstatus⟩ := ok_of_map h
    rw [← hstatus]
    split_ifs <;> rfl
  · cases h
    rfl

theorem merged_status (status : InvestigationStatus) :
    state.merged { delta with status := some status } =
      { state.merged delta with status := status } := rfl

theorem Unsettled.stamp (h : Unsettled state) (hname : name ≠ .criticFinal)
    (hquiet : delta.status = none) {stamped : Delta}
    (hstamp : stampStatus settings moment name delta state = .ok stamped) :
    Unsettled (state.merged stamped) := by
  -- A node that was called and is not the final critic stamps a failure or a phase.
  have hopen : ¬(name ∈ CONCURRENT_NODES ∨ delta.status.isSome) := by
    simp [CONCURRENT_NODES, hquiet]
  have hphase : (phaseStatus name).isTerminal = false := by
    cases name <;> rfl
  have hstatus : (state.merged delta).status = state.status := by
    simp [InvestigationState.merged, hquiet]
  unfold stampStatus at hstamp
  rw [if_neg hopen] at hstamp
  simp only [if_neg hname] at hstamp
  split at hstamp
  · next halt hhalt =>
    obtain ⟨hguard, hroute⟩ := filter_eq_some_iff.mp hhalt
    have hroute : halt.route = .finish := of_decide_eq_true hroute
    cases hstamp
    intro _
    rcases checkGuards_finish hguard hroute with ⟨hterminal, hsame⟩ | ⟨-, hfailed⟩
    · rw [hsame, hstatus]
      exact h (.inl (hstatus ▸ hterminal))
    · exact hfailed
  · next hnone =>
    cases hstamp
    have hfree : ¬ (state.merged delta).isBlocked := by
      cases hguard : checkGuards settings moment (state.merged delta) with
      | none => exact (checkGuards_none hguard).2
      | some halt =>
        refine (checkGuards_report hguard fun hroute => ?_).2.1
        simp [hguard, hroute] at hnone
    rintro (hterminal | hblocked)
    · rw [merged_status, hphase] at hterminal
      cases hterminal
    · exact absurd hblocked hfree

theorem stamp_final (hquiet : delta.status = none) {stamped : Delta}
    (hstamp : stampStatus settings moment .criticFinal delta state = .ok stamped) :
    Settled (state.merged stamped) := by
  have hopen : ¬(NodeName.criticFinal ∈ CONCURRENT_NODES ∨ delta.status.isSome) := by
    simp [CONCURRENT_NODES, hquiet]
  unfold stampStatus at hstamp
  rw [if_neg hopen] at hstamp
  simp only [if_pos] at hstamp
  obtain ⟨status, hterminal, hstamped⟩ := ok_of_map hstamp
  rw [← hstamped, merged_status]
  obtain ⟨hstatus, hfailed⟩ := terminalStatus_settled hterminal
  exact ⟨hstatus, hfailed⟩

/-! ## Runs -/

/-- No node callable writes `status`. -/
def Run.StatusOwned (run : Run) : Prop :=
  ∀ i name state delta, run.Returns i name state delta → delta.status = none

variable {i : ℕ}

theorem Run.StatusOwned.called (hrun : run.StatusOwned) (hat : run.trace i = .running name state)
    (hskip : skips run.settings (run.readings i).entry name state = none) :
    (calledDelta name (run.nodes i name state)).status = none := by
  cases hresult : run.nodes i name state with
  | raised => rfl
  | returned written => exact hrun i name state written ⟨hat, hskip, hresult⟩

theorem nextRoute_finish (h : nextRoute settings moment name state = .ok .finish) :
    name = .criticFinal ∨
      ∃ halt, checkGuards settings moment state = some halt ∧ halt.route = .finish := by
  have hguarded : ∀ {target}, routeGuarded target settings moment state = .finish →
      ∃ halt, checkGuards settings moment state = some halt ∧ halt.route = .finish := by
    intro target hroute
    unfold routeGuarded at hroute
    split at hroute
    · next halt hhalt => exact ⟨halt, hhalt, hroute⟩
    · cases hroute
  cases name with
  | planner =>
    right
    have hroute := Except.ok.inj h
    unfold routeAfterPlanner at hroute
    split at hroute
    · next halt hhalt => exact ⟨halt, hhalt, hroute⟩
    · split_ifs at hroute
  | collector | retriever | insight | strategy => exact .inr (hguarded (Except.ok.inj h))
  | graphExpansion =>
    have hroute := Except.ok.inj h
    rw [dispatchAnalysis_eq] at hroute
    exact .inr (hguarded hroute)
  | critic =>
    right
    change routeAfterCritic settings moment state = .ok .finish at h
    unfold routeAfterCritic at h
    split at h
    · next halt hhalt => exact ⟨halt, hhalt, Except.ok.inj h⟩
    · split_ifs at h
      · cases h
      · cases h
      · cases h
      · obtain ⟨stalled, -, hbranch⟩ := ok_of_bind h
        split_ifs at hbranch
        · cases hbranch
        · obtain ⟨stage, -, hnode⟩ := ok_of_map hbranch
          cases hnode
  | report => cases h
  | criticFinal => exact .inl rfl

/-- What a run has come to: unsettled before a node, settled at `END`. -/
def Config.Consistent : Config → Prop
  | .running _ state => Unsettled state
  | .ended state => Settled state
  | .crashed => True

theorem Unsettled.settled_of_finish (h : Unsettled state) (hname : name ≠ .criticFinal)
    (hroute : nextRoute settings moment name state = .ok .finish) : Settled state := by
  obtain ⟨halt, hguard, hfinish⟩ := (nextRoute_finish hroute).resolve_left hname
  have hfailed : state.status = .failed := by
    rcases checkGuards_finish hguard hfinish with ⟨hterminal, -⟩ | ⟨hblocked, -⟩
    · exact h (.inl hterminal)
    · exact h (.inr hblocked)
  exact ⟨by rw [hfailed]; rfl, fun _ => hfailed⟩

theorem wrapNode_consistent {node : InvestigationState → NodeResult} (h : Unsettled state)
    (hcalled : skips settings readings.entry name state = none →
      (calledDelta name (node state)).status = none)
    (hwrap : wrapNode settings readings name node state = .ok delta) :
    if name = .criticFinal then Settled (state.merged delta)
    else Unsettled (state.merged delta) := by
  unfold wrapNode at hwrap
  split at hwrap
  · next halt hskip =>
    cases hwrap
    split_ifs with hname
    · subst hname
      have hfailed := h.skip_final hskip
      exact ⟨by rw [hfailed]; rfl, fun _ => hfailed⟩
    · exact h.skip hskip
  · next hskip =>
    have hquiet : (ruledDelta settings readings.entry name (calledDelta name (node state))
        state).status = none := ruledDelta_status.trans (hcalled hskip)
    split_ifs with hname
    · subst hname
      exact stamp_final hquiet hwrap
    · exact h.stamp hname hquiet hwrap

theorem Run.trace_consistent (hrun : run.StatusOwned) (n : ℕ) : (run.trace n).Consistent := by
  induction n with
  | zero =>
    rintro (hterminal | ⟨error, herror, -⟩)
    · cases hterminal
    · cases herror
  | succ n ih =>
    change (superstep _ _ _ (run.trace n)).Consistent
    cases hat : run.trace n with
    | running name state =>
      rw [hat] at ih
      unfold superstep
      dsimp only
      split
      · trivial
      · next delta hwrap =>
        have hkept := wrapNode_consistent ih (hrun.called hat) hwrap
        split
        · trivial
        · next hroute =>
          split_ifs at hkept with hname
          · exact hkept
          · exact hkept.settled_of_finish hname hroute
        · next successor hroute =>
          have hname : name ≠ .criticFinal := by
            rintro rfl
            cases hroute
          rwa [if_neg hname] at hkept
    | ended state =>
      rw [hat] at ih
      exact ih
    | crashed => trivial

def Config.state? : Config → Option InvestigationState
  | .running _ state => some state
  | .ended state => some state
  | .crashed => none

theorem Run.isBlocked_succ (hat : (run.trace i).state? = some state)
    (hblocked : state.isBlocked) (hnext : (run.trace (i + 1)).state? = some after) :
    after.isBlocked := by
  change (superstep _ _ _ (run.trace i)).state? = some after at hnext
  have hmerged : ∀ delta, (state.merged delta).isBlocked := by
    obtain ⟨error, herror, hfatal⟩ := hblocked
    exact fun delta => ⟨error, List.mem_append_left _ herror, hfatal⟩
  cases hconfig : run.trace i with
  | running name current =>
    rw [hconfig] at hat hnext
    cases hat
    unfold superstep at hnext
    dsimp only at hnext
    split at hnext
    · cases hnext
    · next delta _ =>
      split at hnext
      · cases hnext
      · cases hnext
        exact hmerged delta
      · cases hnext
        exact hmerged delta
  | ended current =>
    rw [hconfig] at hat hnext
    cases hat
    cases hnext
    exact hblocked
  | crashed =>
    rw [hconfig] at hat
    cases hat

theorem Run.state?_of_succ {i : ℕ} (h : (run.trace (i + 1)).state?.isSome) :
    (run.trace i).state?.isSome := by
  change (superstep _ _ _ (run.trace i)).state?.isSome at h
  cases hconfig : run.trace i with
  | running | ended => rfl
  | crashed =>
    rw [hconfig] at h
    cases h

theorem Run.trace_ended {n : ℕ} {final : InvestigationState} (hend : run.trace n = .ended final)
    (k : ℕ) : run.trace (n + k) = .ended final := by
  induction k with
  | zero => exact hend
  | succ k ih =>
    change superstep _ _ _ (run.trace (n + k)) = _
    rw [ih]
    rfl

theorem Run.isBlocked_later (hat : (run.trace i).state? = some state)
    (hblocked : state.isBlocked) (k : ℕ) (hlater : (run.trace (i + k)).state? = some after) :
    after.isBlocked := by
  induction k generalizing after with
  | zero =>
    rw [Nat.add_zero, hat] at hlater
    cases hlater
    exact hblocked
  | succ k ih =>
    obtain ⟨between, hbetween⟩ := isSome_iff_exists.mp
      (@Run.state?_of_succ run (i + k) (isSome_of_eq_some hlater))
    exact Run.isBlocked_succ hbetween (ih hbetween) hlater

/-- At `END` the status is terminal, and it is `failed` if an unrecoverable error was recorded. -/
theorem Run.ends_settled (hrun : run.StatusOwned) {n : ℕ} {final : InvestigationState}
    (hend : run.trace n = .ended final) :
    final.status.isTerminal ∧ ∀ i state, (run.trace i).state? = some state → state.isBlocked →
      final.status = .failed := by
  have hsettled : Settled final := by
    have := run.trace_consistent hrun n
    rwa [hend] at this
  refine ⟨hsettled.1, fun i state hat hblocked => hsettled.2 ?_⟩
  have hfinal : (run.trace (i + n)).state? = some final := by
    rw [Nat.add_comm, Run.trace_ended hend i]
    rfl
  exact Run.isBlocked_later hat hblocked n hfinal

def unplannedRun : Run where
  settings := default
  readings _ := ⟨0, 0, 0, zero_forward⟩
  nodes _ _ _ := .raised "schema_violation" false
  deadlineAt := 1

theorem ends_settled_unplanned : ∃ final, unplannedRun.trace 1 = .ended final ∧
    final.status.isTerminal ∧ ∀ i state, (unplannedRun.trace i).state? = some state →
      state.isBlocked → final.status = .failed := by
  have howned : unplannedRun.StatusOwned := fun _ _ _ _ h => nomatch h.2.2
  obtain ⟨final, hend⟩ : ∃ final, unplannedRun.trace 1 = .ended final := ⟨_, rfl⟩
  exact ⟨final, hend, unplannedRun.ends_settled howned hend⟩

end OmniSense.Agents
