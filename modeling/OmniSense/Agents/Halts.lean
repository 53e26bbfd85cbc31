import OmniSense.Agents.Status

/-! Early halts and their records. An edge decides that a run ships early; the wrapper of a later
node writes down why, from guards it evaluates again. -/

namespace OmniSense.Agents
open Library List Option

variable {settings : AgentSettings} {name successor : NodeName} {state after : InvestigationState}
  {delta : Delta} {moment : ℤ} {halt : Halt} {run : Run}

def earlyHalt (settings : AgentSettings) (moment : ℤ) (name : NodeName)
    (state : InvestigationState) : Option HaltReason :=
  match checkGuards settings moment state with
  | some halt => some halt.reason
  | none =>
    if name = .planner ∧ planExceedsBudget settings state then some .planTooLarge else none

variable (reason : HaltReason)

def recordsOf (errors : List AgentError) : ℕ :=
  errors.countP fun error => error.errorType = reason.text

namespace Run

variable (run : Run)

/-- Superstep `i` leads to the report early. -/
def HaltsEarly (i : ℕ) (reason : HaltReason) : Prop :=
  ∃ name state after, run.trace i = .running name state ∧
    run.trace (i + 1) = .running .report after ∧
    earlyHalt run.settings (run.readings i).edge name after = some reason

/-- The errors that the node called in superstep `i` wrote itself. -/
def calledErrors (i : ℕ) : List AgentError :=
  match run.trace i with
  | .running name state =>
    if (skips run.settings (run.readings i).entry name state).isSome then []
    else (calledDelta name (run.nodes i name state)).errors.getD []
  | _ => []

def ownErrors (n : ℕ) : List AgentError := (List.range n).flatMap run.calledErrors

/-- Every early halt left a record, and no reason was recorded twice: besides what nodes wrote
themselves, there is at most one error of its type. -/
def HaltsRecorded (n : ℕ) (final : InvestigationState) : Prop :=
  (∀ i reason, run.HaltsEarly i reason → ∃ error ∈ final.errors, error.errorType = reason.text) ∧
    ∀ reason, recordsOf reason final.errors ≤ recordsOf reason (run.ownErrors n) + 1

end Run

/-! ## What the wrapper adds to the errors -/

def haltRecord (settings : AgentSettings) (moment : ℤ) (name : NodeName)
    (state : InvestigationState) : List AgentError :=
  match checkGuards settings moment state with
  | some halt =>
    if alreadyRecorded state halt.reason.text then [] else [haltError halt (NODE_AGENT name)]
  | none => []

theorem ruledDelta_errors {called : Delta} :
    (ruledDelta settings moment name called state).errors.getD [] =
      called.errors.getD [] ++ haltRecord settings moment name state := by
  have hmirror : ∀ delta : Delta, (mirrorCritique delta).errors = delta.errors := by
    intro delta
    unfold mirrorCritique
    split <;> rfl
  have hrevision : ∀ delta : Delta,
      (enforceRevisionProgress delta state).errors = delta.errors := by
    intro delta
    unfold enforceRevisionProgress
    split_ifs
    · exact hmirror delta
    · exact hmirror delta
  unfold ruledDelta haltRecord
  cases checkGuards settings moment state with
  | none =>
    rw [append_nil]
    cases name <;> first | rfl | exact congrArg (Option.getD · []) (hrevision _)
  | some halt =>
    have hrecord : (recordHalt name halt called state).errors.getD [] = called.errors.getD [] ++
        if alreadyRecorded state halt.reason.text then []
        else [haltError halt (NODE_AGENT name)] := by
      unfold recordHalt
      split_ifs
      · exact (append_nil _).symm
      · rfl
    cases name <;> first
      | exact hrecord
      | exact (congrArg (Option.getD · []) (hrevision _)).trans hrecord

theorem stampStatus_errors {stamped : Delta}
    (h : stampStatus settings moment name delta state = .ok stamped) :
    stamped.errors = delta.errors := by
  unfold stampStatus at h
  split_ifs at h
  · cases h
    rfl
  · obtain ⟨status, -, hstatus⟩ := ok_of_map h
    rw [← hstatus]
  · dsimp only at h
    split at h <;> cases h <;> rfl

theorem haltDelta_errors (hskip : skips settings moment name state = some halt) :
    (haltDelta name halt state).errors.getD [] = haltRecord settings moment name state := by
  obtain ⟨hguard, -⟩ := filter_eq_some_iff.mp hskip
  unfold haltRecord
  rw [hguard]
  change (if alreadyRecorded state halt.reason.text then none
    else some [haltError halt (NODE_AGENT name)] : Option (List AgentError)).getD [] = _
  dsimp only
  split_ifs <;> rfl

namespace Run

variable {i : ℕ}

theorem errors_succ (hat : run.trace i = .running name state)
    (hnext : (run.trace (i + 1)).state? = some after) :
    after.errors = state.errors ++ (run.calledErrors i ++
      haltRecord run.settings (run.readings i).entry name state) := by
  -- One superstep appends what its node wrote and what its guard left to record.
  change (superstep _ _ _ (run.trace i)).state? = some after at hnext
  rw [hat] at hnext
  have hmerged : ∀ delta, wrapNode run.settings (run.readings i) name (run.nodes i name) state =
      .ok delta → (state.merged delta).errors = state.errors ++ (run.calledErrors i ++
        haltRecord run.settings (run.readings i).entry name state) := by
    intro delta hwrap
    have herrors : (state.merged delta).errors = state.errors ++ delta.errors.getD [] := rfl
    rw [herrors, calledErrors, hat]
    unfold wrapNode at hwrap
    split at hwrap
    · next halt hskip =>
      cases hwrap
      simp only [hskip, isSome_some, if_pos, nil_append, haltDelta_errors hskip]
    · next hskip =>
      simp only [hskip, isSome_none, Bool.false_eq_true, if_false,
        stampStatus_errors hwrap, ruledDelta_errors]
  unfold superstep at hnext
  dsimp only at hnext
  split at hnext
  · cases hnext
  · next delta hwrap =>
    split at hnext
    · cases hnext
    · cases hnext
      exact hmerged delta hwrap
    · cases hnext
      exact hmerged delta hwrap

/-! ## Nothing is recorded twice -/

theorem recordsOf_haltRecord :
    recordsOf reason (haltRecord settings moment name state) = 0 ∨
      (recordsOf reason state.errors = 0 ∧
        recordsOf reason (haltRecord settings moment name state) ≤ 1) := by
  unfold haltRecord
  cases checkGuards settings moment state with
  | none => exact .inl rfl
  | some halt =>
    dsimp only
    split_ifs with hrecorded
    · exact .inl rfl
    · by_cases hsame : halt.reason.text = reason.text
      · refine .inr ⟨countP_eq_zero.mpr fun error herror htype => hrecorded ?_, ?_⟩
        · refine any_eq_true.mpr ⟨error, herror, ?_⟩
          rw [hsame]
          exact htype
        · exact countP_le_length
      · left
        simp [recordsOf, haltError, hsame]

theorem recordsOf_le (i : ℕ) (hat : (run.trace i).state? = some state) :
    recordsOf reason state.errors ≤ recordsOf reason (run.ownErrors i) + 1 := by
  induction i generalizing state with
  | zero =>
    cases hat
    exact Nat.zero_le _
  | succ i ih =>
    have hown : recordsOf reason (run.ownErrors (i + 1)) =
        recordsOf reason (run.ownErrors i) + recordsOf reason (run.calledErrors i) := by
      unfold recordsOf ownErrors
      rw [range_succ, flatMap_append, countP_append, flatMap_singleton]
    obtain ⟨before, hbefore⟩ := isSome_iff_exists.mp
      (@Run.state?_of_succ run i (isSome_of_eq_some hat))
    have hle := ih hbefore
    cases hconfig : run.trace i with
    | running name current =>
      rw [hconfig] at hbefore
      cases hbefore
      have herrors := errors_succ hconfig hat
      have hsum : recordsOf reason state.errors = recordsOf reason before.errors +
          (recordsOf reason (run.calledErrors i) +
            recordsOf reason (haltRecord run.settings (run.readings i).entry name before)) := by
        unfold recordsOf
        rw [herrors, countP_append, countP_append]
      rw [hsum, hown]
      rcases @recordsOf_haltRecord run.settings name before (run.readings i).entry reason with
        hnone | ⟨hnew, hone⟩
      · omega
      · omega
    | ended current =>
      have hsame : run.trace (i + 1) = .ended current := run.trace_ended hconfig 1
      rw [hsame] at hat
      rw [hconfig] at hbefore
      cases hat
      cases hbefore
      omega
    | crashed =>
      rw [hconfig] at hbefore
      cases hbefore

/-! ## When a halt is recorded -/

/-- What superstep `i` needs for its halt to be recorded by the report: the plan was not rejected
for its size, the clock does not run back, and a run out of tokens is not out of time as well when
the report starts. -/
structure Recordable (run : Run) (i : ℕ) (name : NodeName) (after : InvestigationState) :
    Prop where
  planned : checkGuards run.settings (run.readings i).edge after = none → name = .planner →
    planExceedsBudget run.settings after = false
  forward : (run.readings i).edge ≤ (run.readings (i + 1)).entry
  inTime : (checkGuards run.settings (run.readings i).edge after).any
      (fun halt => halt.reason = .tokenBudget) = true →
    after.deadlineAt.any (fun deadline => deadline ≤ (run.readings (i + 1)).entry) = false

theorem checkGuards_later {later : ℤ} (h : checkGuards settings moment state = some halt)
    (hroute : halt.route = .node .report) (hlater : moment ≤ later)
    (htime : halt.reason = .tokenBudget →
      state.deadlineAt.any (fun deadline => deadline ≤ later) = false) :
    ∃ halt', checkGuards settings later state = some halt' ∧ halt'.reason = halt.reason ∧
      halt'.route = .node .report := by
  unfold checkGuards at h ⊢
  split_ifs at h with hcancelled hterminal hblocked hsteps hdeadline htokens
  · cases h
    cases hroute
  · cases h
    cases hroute
  · cases h
    cases hroute
  · cases h
    rw [if_neg hcancelled, if_neg hterminal, if_neg hblocked, if_pos hsteps]
    exact ⟨_, rfl, rfl, rfl⟩
  · cases h
    have hpassed : state.deadlineAt.any (fun deadline => deadline ≤ later) = true := by
      cases hat : state.deadlineAt with
      | none => simp [hat] at hdeadline
      | some deadline =>
        simp only [hat, any_some, decide_eq_true_eq] at hdeadline ⊢
        exact hdeadline.trans hlater
    rw [if_neg hcancelled, if_neg hterminal, if_neg hblocked, if_neg hsteps, if_pos hpassed]
    exact ⟨_, rfl, rfl, rfl⟩
  · cases h
    have hopen := htime rfl
    rw [if_neg hcancelled, if_neg hterminal, if_neg hblocked, if_neg hsteps,
      if_neg (by simp [hopen]), if_pos htokens]
    exact ⟨_, rfl, rfl, rfl⟩

theorem nextRoute_of_guard (h : checkGuards settings moment state = some halt)
    (hreport : name ≠ .report) (hfinal : name ≠ .criticFinal) :
    nextRoute settings moment name state = .ok halt.route := by
  have hguarded : ∀ target, routeGuarded target settings moment state = halt.route := by
    intro target
    unfold routeGuarded
    rw [h]
  cases name with
  | planner =>
    change Except.ok (routeAfterPlanner settings moment state) = _
    unfold routeAfterPlanner
    rw [h]
  | collector | retriever | insight | strategy => exact congrArg _ (hguarded _)
  | graphExpansion =>
    change Except.ok ((dispatchAnalysis settings moment state).headD .finish) = _
    rw [dispatchAnalysis_eq]
    exact congrArg _ (hguarded _)
  | critic =>
    change routeAfterCritic settings moment state = _
    unfold routeAfterCritic
    rw [h]
  | report => exact absurd rfl hreport
  | criticFinal => exact absurd rfl hfinal

theorem report_records (hat : run.trace i = .running .report state)
    (hguard : checkGuards run.settings (run.readings i).entry state = some halt)
    (hnext : (run.trace (i + 1)).state? = some after) :
    ∃ error ∈ after.errors, error.errorType = halt.reason.text := by
  rw [errors_succ hat hnext]
  unfold haltRecord
  rw [hguard]
  dsimp only
  split_ifs with hrecorded
  · obtain ⟨error, herror, htype⟩ := any_eq_true.mp hrecorded
    exact ⟨error, mem_append_left _ herror, of_decide_eq_true htype⟩
  · exact ⟨haltError halt (NODE_AGENT .report), by simp, rfl⟩

theorem state?_isSome {n : ℕ} {final : InvestigationState} (hend : run.trace n = .ended final)
    (i : ℕ) : (run.trace i).state?.isSome := by
  have hback : ∀ k, (run.trace (i + k)).state?.isSome → (run.trace i).state?.isSome := by
    intro k
    induction k with
    | zero => exact id
    | succ k ih => exact fun h => ih (Run.state?_of_succ h)
  refine hback n ?_
  rw [Nat.add_comm, run.trace_ended hend]
  rfl

theorem mem_errors_later {error : AgentError} (hat : (run.trace i).state? = some state)
    (herror : error ∈ state.errors) (k : ℕ) (hlater : (run.trace (i + k)).state? = some after) :
    error ∈ after.errors := by
  induction k generalizing after with
  | zero =>
    rw [Nat.add_zero, hat] at hlater
    cases hlater
    exact herror
  | succ k ih =>
    obtain ⟨between, hbetween⟩ := isSome_iff_exists.mp
      (@Run.state?_of_succ run (i + k) (isSome_of_eq_some hlater))
    have hmem := ih hbetween
    cases hconfig : run.trace (i + k) with
    | running name current =>
      rw [hconfig] at hbetween
      cases hbetween
      rw [errors_succ hconfig hlater]
      exact mem_append_left _ hmem
    | ended current =>
      have hsame : run.trace (i + k + 1) = .ended current := run.trace_ended hconfig 1
      have hlater' : (run.trace (i + k + 1)).state? = some after := hlater
      rw [hsame] at hlater'
      rw [hconfig] at hbetween
      cases hlater'
      cases hbetween
      exact hmem
    | crashed =>
      rw [hconfig] at hbetween
      cases hbetween

/-- A run whose every early halt can be recorded has them all recorded at `END`, each once. -/
theorem halts_recorded (hrun : ∀ i name state after, run.trace i = .running name state →
      run.trace (i + 1) = .running .report after → run.Recordable i name after)
    {n : ℕ} {final : InvestigationState} (hend : run.trace n = .ended final) :
    run.HaltsRecorded n final := by
  refine ⟨?_, fun reason => recordsOf_le reason n (by rw [hend]; rfl)⟩
  rintro i reason ⟨name, state, after, hat, hreport, hearly⟩
  have hlast : ∀ k, (run.trace (n + k)).state? = some final := fun k => by
    rw [run.trace_ended hend]
    rfl
  obtain ⟨hplanned, hforward, htime⟩ := hrun i name state after hat hreport
  unfold earlyHalt at hearly
  cases hguard : checkGuards run.settings (run.readings i).edge after with
  | none =>
    rw [hguard] at hearly
    simp only [ite_none_right_eq_some] at hearly
    rw [hplanned hguard hearly.1.1] at hearly
    simp at hearly
  | some halt =>
    rw [hguard] at hearly htime
    cases hearly
    obtain ⟨_, _, delta, hat', _, -, hnext⟩ := Run.trace_succ_running hreport
    rw [hat] at hat'
    cases hat'
    have hroute : halt.route = .node .report := by
      by_cases hname : name = .report ∨ name = .criticFinal
      · rcases hname with rfl | rfl <;> cases hnext
      · rw [not_or] at hname
        rw [nextRoute_of_guard hguard hname.1 hname.2] at hnext
        exact Except.ok.inj hnext
    obtain ⟨halt', hguard', hreason, -⟩ := checkGuards_later hguard hroute hforward
      fun htokens => htime (by simp [htokens])
    obtain ⟨recorded, hrecorded⟩ := isSome_iff_exists.mp (state?_isSome hend (i + 1 + 1))
    obtain ⟨error, herror, htype⟩ := report_records hreport hguard' hrecorded
    refine ⟨error, mem_errors_later hrecorded herror n ?_, htype.trans (congrArg _ hreason)⟩
    rw [Nat.add_comm]
    exact hlast _

end Run

/-! ## A plan too large -/

def oversizedRun : Run where
  settings := default
  readings _ := ⟨0, 0, 0, zero_forward⟩
  nodes _ name _ :=
    if name = .planner then .returned { plan := some (List.replicate 46 { agent := .retriever }) }
    else .returned {}
  deadlineAt := 1

theorem oversized_not_recorded :
    ∃ final, oversizedRun.trace 3 = .ended final ∧ oversizedRun.HaltsEarly 0 .planTooLarge ∧
      final.errors = [] ∧ ¬ oversizedRun.HaltsRecorded 3 final := by
  obtain ⟨final, hend, hnone⟩ : ∃ final, oversizedRun.trace 3 = .ended final ∧
      final.errors = [] := ⟨_, rfl, rfl⟩
  have hearly : oversizedRun.HaltsEarly 0 .planTooLarge := by
    refine ⟨.planner, _, _, rfl, rfl, ?_⟩
    rfl
  refine ⟨final, hend, hearly, hnone, fun h => ?_⟩
  obtain ⟨error, herror, -⟩ := h.1 0 _ hearly
  rw [hnone] at herror
  cases herror

def lateRun : Run where
  settings := default
  readings _ := ⟨0, 0, 0, zero_forward⟩
  nodes _ _ _ := .returned {}
  deadlineAt := 0

theorem halts_recorded_late :
    ∃ final, lateRun.trace 3 = .ended final ∧ lateRun.HaltsEarly 0 .deadline ∧
      lateRun.HaltsRecorded 3 final := by
  obtain ⟨final, hend⟩ : ∃ final, lateRun.trace 3 = .ended final := ⟨_, rfl⟩
  have hearly : lateRun.HaltsEarly 0 .deadline := ⟨.planner, _, _, rfl, rfl, rfl⟩
  refine ⟨final, hend, hearly, lateRun.halts_recorded ?_ hend⟩
  intro i name state after hat hreport
  rcases i with _ | _ | _ | k
  · cases hat
    cases hreport
    exact {
      planned := by
        intro h
        cases h
      forward := le_rfl
      inTime := by
        intro h
        cases h }
  · cases hat
    cases hreport
  · cases hat
    cases hreport
  · rw [show k + 1 + 1 + 1 = 3 + k by omega, lateRun.trace_ended hend] at hat
    cases hat

end OmniSense.Agents
