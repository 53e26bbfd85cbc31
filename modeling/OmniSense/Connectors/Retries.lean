import OmniSense.Connectors.Backoff
import OmniSense.Library.Runs

/-! One page under `retry_page`, call by call: what it waits for, what the breaker is told, and how
the page ends. -/

namespace OmniSense.Connectors

open Library List Option

/-- What one call of the operation ends in (`none` for a result), and what is read after it. -/
structure Trial where
  raised : Option Failure
  pause : Pause
  -- The clock of the breaker.
  endsAt : ℚ

/-- A sleep that was begun: how long it is to be, what was asked for, and the budget left then. -/
structure Sleep where
  delay : ℚ
  asked : Option ℚ
  remaining : ℚ
  deriving DecidableEq

/-- `record_success` or `record_failure`. -/
inductive Record
  | success | failure
  deriving DecidableEq

/-- The sleep that `sleep_before_retry` begins, if it gets that far. -/
def sleepBegun (policy : BackoffPolicy) (attempts : ℕ) (err : Failure) (pause : Pause) :
    Option Sleep :=
  match nextDelay policy (attempts - 1) err.retryAfterOf pause with
  | .error _ => none
  | .ok delay =>
    let remaining := policy.totalBudgetSeconds - pause.elapsed
    if policy.maxAttempts ≤ attempts then none
    else if remaining < delay then none
    else some ⟨delay, err.retryAfterOf, remaining⟩

structure Page where
  calls : ℕ
  -- Of the controller: those that failed and may be made again.
  attempts : ℕ
  sleeps : List Sleep
  -- What the controller's clock has to say once the last sleep is over.
  awake : ℚ
  records : List Record
  circuits : Circuits
  -- How the page ended: with a result (`none`), or with an exception.
  ending : Option (Option Failure)

namespace Page

/-- The state of the page once `check` has let it through. -/
def start (circuits : Circuits) : Page := ⟨0, 0, [], 0, [], circuits, none⟩

section

variable (policy : BackoffPolicy) (guard : Option (CircuitBreaker × String))

/-- The nested `record_success` and `record_failure`: without a breaker they do nothing. -/
def tell (s : Page) (record : Record) (now : ℚ) : Page :=
  match guard with
  | none => s
  | some (breaker, key) =>
    { s with
      records := s.records ++ [record]
      circuits :=
        match record with
        | .success => CircuitBreaker.recordSuccess s.circuits key
        | .failure => breaker.recordFailure s.circuits key now }

/-- The exception ends the page, and counts when it is a `ConnectorError`. -/
def fail (s : Page) (err : Failure) (now : ℚ) : Page :=
  { (if err.errorClass.isSome then s.tell guard .failure now else s) with ending := some (some err) }

def sleeping (s : Page) (sleep : Option Sleep) (elapsed : ℚ) : Page :=
  { s with
    attempts := s.attempts + 1
    sleeps := s.sleeps ++ sleep.toList
    awake := sleep.elim s.awake fun sleep => elapsed + sleep.delay }

def step (s : Page) (t : Trial) : Option Page :=
  if s.ending.isSome then none
  else
    let s := { s with calls := s.calls + 1 }
    match t.raised with
    | none => some { s.tell guard .success t.endsAt with ending := some none }
    | some (.transient r) =>
      let attempts := s.attempts + 1
      let s := s.sleeping (sleepBegun policy attempts (.transient r) t.pause) t.pause.elapsed
      match sleepBeforeRetry policy attempts (.transient r) t.pause with
      | .ok _ => some s
      | .error err => some (s.fail guard err t.endsAt)
    | some err => some (s.fail guard err t.endsAt)

/-- `retry_page` before its loop: `check` may refuse the page. -/
def enter (circuits : Circuits) (startsAt : ℚ) : Page :=
  match guard with
  | none => start circuits
  | some (_, key) =>
    match CircuitBreaker.check circuits key startsAt with
    | .error err => { start circuits with ending := some (some err) }
    | .ok circuits => start circuits

end

end Page

/-! ## What a round does -/

section

variable {policy : BackoffPolicy} {guard : Option (CircuitBreaker × String)} {s s' : Page}
  {t : Trial} {trials : List Trial}

def Sleep.Within (policy : BackoffPolicy) (sleep : Sleep) : Prop :=
  sleep.delay ≤ sleep.remaining ∧
    ∀ r ∈ sleep.asked, r ≤ policy.quotaThresholdSeconds ∧ sleep.delay = r

theorem sleep_cases (policy : BackoffPolicy) (attempts : ℕ) (r : Option ℚ) (pause : Pause) :
    (∃ a ∈ (Failure.transient r).retryAfterOf, policy.quotaThresholdSeconds < a ∧
      sleepBegun policy attempts (.transient r) pause = none ∧
      sleepBeforeRetry policy attempts (.transient r) pause =
        .error (.quota (some (pause.wallClock + a)) (some a))) ∨
    ((∀ a ∈ (Failure.transient r).retryAfterOf, a ≤ policy.quotaThresholdSeconds) ∧
      sleepBegun policy attempts (.transient r) pause = none ∧
      sleepBeforeRetry policy attempts (.transient r) pause = .error (.transient r)) ∨
    ∃ sleep, sleepBegun policy attempts (.transient r) pause = some sleep ∧
      attempts < policy.maxAttempts ∧ sleep.Within policy ∧
      sleep.asked = (Failure.transient r).retryAfterOf ∧
      sleep.remaining = policy.totalBudgetSeconds - pause.elapsed ∧
      (sleepBeforeRetry policy attempts (.transient r) pause = .ok sleep.delay ∨
        ∃ stop ∈ pause.interrupted,
          sleepBeforeRetry policy attempts (.transient r) pause = .error stop) := by
  have hasked : ∀ a ∈ (Failure.transient r).retryAfterOf, max 0 a = a := by
    intro a ha
    obtain ⟨raw, -, rfl⟩ := mem_map.mp ha
    exact max_eq_right (le_max_left 0 raw)
  unfold sleepBegun sleepBeforeRetry
  cases hdelay : nextDelay policy (attempts - 1) (Failure.transient r).retryAfterOf pause with
  | error quota =>
    refine .inl ?_
    unfold nextDelay at hdelay
    split at hdelay
    · cases hdelay
    · next a ha =>
      split_ifs at hdelay with hover
      cases hdelay
      exact ⟨a, ha, hover, rfl, rfl⟩
  | ok delay =>
    have hwaits : ∀ a ∈ (Failure.transient r).retryAfterOf,
        a ≤ policy.quotaThresholdSeconds ∧ delay = a := by
      intro a ha
      rw [mem_def.mp ha] at hdelay
      unfold nextDelay at hdelay
      dsimp only at hdelay
      split_ifs at hdelay with hover
      cases hdelay
      exact ⟨not_lt.mp hover, hasked a ha⟩
    dsimp only
    split_ifs with hlast hbudget
    · exact .inr (.inl ⟨fun a ha => (hwaits a ha).1, rfl, rfl⟩)
    · exact .inr (.inl ⟨fun a ha => (hwaits a ha).1, rfl, rfl⟩)
    · refine .inr (.inr ⟨_, rfl, not_le.mp hlast, ⟨not_lt.mp hbudget, hwaits⟩, rfl, rfl, ?_⟩)
      cases hstop : pause.interrupted with
      | none => exact .inl rfl
      | some stop => exact .inr ⟨stop, rfl, rfl⟩

/-- What a `Retry-After` on the outcome of a call asks for. -/
def Trial.asked (t : Trial) : Option ℚ :=
  match t.raised with
  | some (.transient r) => (Failure.transient r).retryAfterOf
  | _ => none

def recordsOf : Option Failure → List Record
  | none => [.success]
  | some err => if err.errorClass.isSome then [.failure] else []

namespace Page

def Awake (s : Page) (t : Trial) : Prop := s.awake ≤ t.pause.elapsed

instance (s : Page) (t : Trial) : Decidable (s.Awake t) := inferInstanceAs (Decidable (_ ≤ _))

structure Slept (policy : BackoffPolicy) (sleeps : List Sleep) (awake : ℚ) : Prop where
  within : ∀ sleep ∈ sleeps, sleep.Within policy
  total : (sleeps.map Sleep.delay).sum ≤ awake
  budget : sleeps ≠ [] → awake ≤ policy.totalBudgetSeconds

structure Accounts (policy : BackoffPolicy) (guard : Option (CircuitBreaker × String)) (s : Page) :
    Prop where
  calls : s.calls ≤ policy.maxAttempts
  running : s.ending = none →
    s.calls = s.attempts ∧ s.attempts < policy.maxAttempts ∧ s.records = []
  slept : Slept policy s.sleeps s.awake
  told : s.calls ≠ 0 → ∀ ending ∈ s.ending,
    s.records = if guard.isSome then recordsOf ending else []

variable (guard) in
theorem tell_eq (hrecords : s.records = []) (record : Record) (now : ℚ) :
    ∃ circuits, s.tell guard record now =
      { s with records := if guard.isSome then [record] else [], circuits := circuits } := by
  unfold tell
  rw [hrecords]
  cases guard with
  | none => exact ⟨s.circuits, by rw [← hrecords]; rfl⟩
  | some _ => exact ⟨_, rfl⟩

variable (guard) in
theorem fail_eq (hrecords : s.records = []) (err : Failure) (now : ℚ) :
    ∃ circuits, s.fail guard err now =
      { s with
        records := if guard.isSome then recordsOf (some err) else []
        circuits := circuits
        ending := some (some err) } := by
  have hof : recordsOf (some err) = if err.errorClass.isSome then [.failure] else [] := rfl
  unfold fail
  rw [hof]
  split_ifs with hclass hguard
  · obtain ⟨circuits, htell⟩ := tell_eq guard hrecords .failure now
    rw [htell, if_pos hguard]
    exact ⟨circuits, rfl⟩
  · obtain ⟨circuits, htell⟩ := tell_eq guard hrecords .failure now
    rw [htell, if_neg hguard]
    exact ⟨circuits, rfl⟩
  · rw [← hrecords]
    exact ⟨s.circuits, rfl⟩
  · rw [← hrecords]
    exact ⟨s.circuits, rfl⟩

variable (guard) in
theorem fail_accounts (hcalls : s.calls ≤ policy.maxAttempts) (hrecords : s.records = [])
    (hslept : Slept policy s.sleeps s.awake) (err : Failure) (now : ℚ) :
    Accounts policy guard (s.fail guard err now) ∧ (s.fail guard err now).calls = s.calls ∧
      (s.fail guard err now).ending = some (some err) := by
  obtain ⟨circuits, hfail⟩ := fail_eq guard hrecords err now
  rw [hfail]
  refine ⟨⟨hcalls, nofun, hslept, fun _ ending hmem => ?_⟩, rfl, rfl⟩
  cases hmem
  rfl

theorem Slept.concat {sleeps : List Sleep} {awake elapsed : ℚ} (h : Slept policy sleeps awake)
    {sleep : Sleep} (hawake : awake ≤ elapsed) (hwithin : sleep.Within policy)
    (hremaining : sleep.remaining = policy.totalBudgetSeconds - elapsed) :
    Slept policy (sleeps ++ [sleep]) (elapsed + sleep.delay) := by
  have hlong : sleep.delay ≤ policy.totalBudgetSeconds - elapsed := hremaining ▸ hwithin.1
  refine ⟨fun other hother => ?_, ?_, fun _ => ?_⟩
  · rcases mem_append.mp hother with hold | hnew
    · exact h.within other hold
    · obtain rfl := mem_singleton.mp hnew
      exact hwithin
  · rw [map_append, sum_append, map_singleton, sum_singleton]
    have htotal := h.total
    linarith
  · linarith

theorem sleeping_none (s : Page) (elapsed : ℚ) :
    s.sleeping none elapsed = { s with attempts := s.attempts + 1 } := by
  unfold sleeping
  rw [toList_none, append_nil]
  rfl

theorem step_accounts (hs : Accounts policy guard s) (hawake : s.Awake t)
    (hstep : Page.step policy guard s t = some s') :
    Accounts policy guard s' ∧ s'.calls = s.calls + 1 ∧
      ∀ a ∈ t.asked, policy.quotaThresholdSeconds < a →
        s'.ending = some (some (.quota (some (t.pause.wallClock + a)) (some a))) := by
  unfold step at hstep
  split_ifs at hstep with hover
  have hgoes : s.ending = none := not_isSome_iff_eq_none.mp hover
  obtain ⟨hcalls, hattempts, hrecords⟩ := hs.running hgoes
  have hnext : s.calls + 1 ≤ policy.maxAttempts := by omega
  dsimp only at hstep
  unfold Trial.asked
  split at hstep
  · next hraised =>
    cases hstep
    obtain ⟨circuits, htell⟩ := tell_eq guard (s := { s with calls := s.calls + 1 })
      hrecords .success t.endsAt
    rw [htell, hraised]
    refine ⟨⟨hnext, nofun, ⟨hs.slept.within, hs.slept.total, hs.slept.budget⟩, ?_⟩, rfl, nofun⟩
    rintro - _ ⟨⟩
    rfl
  · next r hraised =>
    rw [hraised]
    rcases sleep_cases policy (s.attempts + 1) r t.pause with
      ⟨a, ha, hquota, hbegun, hresult⟩ | ⟨hwithin, hbegun, hresult⟩ |
      ⟨sleep, hbegun, hlast, hwithin, hasked, hremaining, hresult⟩
    · -- The provider asked for more than the threshold: the page ends, whatever the attempt.
      rw [hbegun, hresult, sleeping_none] at hstep
      cases hstep
      obtain ⟨hdone, hsame, hending⟩ := fail_accounts guard
        (s := { s with calls := s.calls + 1, attempts := s.attempts + 1 }) hnext hrecords
        hs.slept (.quota (some (t.pause.wallClock + a)) (some a)) t.endsAt
      refine ⟨hdone, hsame, fun a' ha' _ => ?_⟩
      obtain rfl := mem_unique ha ha'
      exact hending
    · rw [hbegun, hresult, sleeping_none] at hstep
      cases hstep
      obtain ⟨hdone, hsame, -⟩ := fail_accounts guard
        (s := { s with calls := s.calls + 1, attempts := s.attempts + 1 }) hnext hrecords
        hs.slept (.transient r) t.endsAt
      exact ⟨hdone, hsame, fun a ha hover => absurd (hwithin a ha) (not_le.mpr hover)⟩
    · have hslept := hs.slept.concat hawake hwithin hremaining
      have hshort : ∀ a ∈ (Failure.transient r).retryAfterOf,
          a ≤ policy.quotaThresholdSeconds := fun a ha => (hwithin.2 a (hasked ▸ ha)).1
      rw [hbegun] at hstep
      rcases hresult with hresult | ⟨stop, -, hresult⟩
      · rw [hresult] at hstep
        cases hstep
        have hsame : s.calls + 1 = s.attempts + 1 := congrArg (· + 1) hcalls
        refine ⟨⟨hnext, fun _ => ⟨hsame, hlast, hrecords⟩, hslept, fun _ ending hmem => ?_⟩, rfl,
          fun a ha hover => absurd (hshort a ha) (not_le.mpr hover)⟩
        have hnone : s.ending = some ending := hmem
        rw [hgoes] at hnone
        cases hnone
      · -- What interrupts the sleep ends the page.
        rw [hresult] at hstep
        cases hstep
        obtain ⟨hdone, hsame, -⟩ := fail_accounts guard
          (s := sleeping { s with calls := s.calls + 1 } (some sleep) t.pause.elapsed) hnext
          hrecords hslept stop t.endsAt
        exact ⟨hdone, hsame, fun a ha hover => absurd (hshort a ha) (not_le.mpr hover)⟩
  · next err hnot hraised =>
    cases hstep
    obtain ⟨hdone, hsame, -⟩ := fail_accounts guard
      (s := { s with calls := s.calls + 1 }) hnext hrecords hs.slept err t.endsAt
    refine ⟨hdone, hsame, fun a ha => ?_⟩
    rw [hraised] at ha
    split at ha
    · next r heq => exact absurd (Option.some.inj heq) (hnot r)
    · cases ha

variable (guard) in
theorem enter_accounts (hmax : 1 ≤ policy.maxAttempts) (circuits : Circuits) (startsAt : ℚ) :
    Accounts policy guard (Page.enter guard circuits startsAt) ∧
      (Page.enter guard circuits startsAt).calls = 0 := by
  have hslept : Slept policy [] 0 :=
    ⟨fun _ h => absurd h not_mem_nil, le_rfl, fun h => absurd rfl h⟩
  have hstart : ∀ circuits, Accounts policy guard (start circuits) := fun circuits =>
    ⟨Nat.zero_le _, fun _ => ⟨rfl, hmax, rfl⟩, hslept, fun h => absurd rfl h⟩
  unfold enter
  split
  · exact ⟨hstart circuits, rfl⟩
  · split
    · exact ⟨⟨Nat.zero_le _, nofun, hslept, fun h => absurd rfl h⟩, rfl⟩
    · next circuits' _ => exact ⟨hstart circuits', rfl⟩

theorem runs_accounts (hs : Accounts policy guard s)
    (hclock : Along (Page.step policy guard) Awake s trials)
    (hrun : runs (Page.step policy guard) s trials = some s') :
    Accounts policy guard s' ∧ s'.calls = s.calls + trials.length ∧
      ∀ t ∈ trials, ∀ a ∈ t.asked, policy.quotaThresholdSeconds < a →
        s'.ending = some (some (.quota (some (t.pause.wallClock + a)) (some a))) := by
  induction trials generalizing s with
  | nil =>
    cases hrun
    exact ⟨hs, rfl, fun _ h => absurd h not_mem_nil⟩
  | cons t trials ih =>
    obtain ⟨s₁, hstep, hrest⟩ := bind_eq_some_iff.mp hrun
    obtain ⟨hs₁, hcalls, hquota⟩ := step_accounts hs hclock.1 hstep
    obtain ⟨hs', hcalls', hquota'⟩ := ih hs₁ (hclock.2 s₁ hstep) hrest
    refine ⟨hs', by rw [hcalls', hcalls, length_cons]; omega, fun t' ht' a ha hover => ?_⟩
    rcases mem_cons.mp ht' with rfl | ht'
    · -- Nothing follows the call that ended the page.
      have hending := hquota a ha hover
      cases trials with
      | nil =>
        cases hrest
        exact hending
      | cons t'' trials =>
        have hstuck : Page.step policy guard s₁ t'' = none := by
          unfold Page.step
          rw [hending]
          rfl
        rw [runs, hstuck] at hrest
        cases hrest
    · exact hquota' t' ht' a ha hover

end Page

/-- A page makes at most `max_attempts` calls and is over by then. It begins no sleep that the
budget left does not cover, and its sleeps together are within the budget; each is as long as the
provider asked for, if it did. A wait above the threshold ends the page as a quota error on any
attempt. A page that is let through leaves one record with the breaker. -/
theorem page_accounts (policy : BackoffPolicy) (guard : Option (CircuitBreaker × String))
    (hmax : 1 ≤ policy.maxAttempts) (circuits : Circuits) (startsAt : ℚ) (trials : List Trial)
    (page : Page)
    (hclock : Along (Page.step policy guard) Page.Awake (.enter guard circuits startsAt) trials)
    (hrun : runs (Page.step policy guard) (.enter guard circuits startsAt) trials = some page) :
    page.calls = trials.length ∧ page.calls ≤ policy.maxAttempts ∧
      (page.ending = none → page.calls < policy.maxAttempts) ∧
      (∀ sleep ∈ page.sleeps, sleep.delay ≤ sleep.remaining ∧
        ∀ r ∈ sleep.asked, r ≤ policy.quotaThresholdSeconds ∧ sleep.delay = r) ∧
      (page.sleeps ≠ [] → (page.sleeps.map Sleep.delay).sum ≤ policy.totalBudgetSeconds) ∧
      (∀ t ∈ trials, ∀ r ∈ t.asked, policy.quotaThresholdSeconds < r →
        page.ending = some (some (.quota (some (t.pause.wallClock + r)) (some r)))) ∧
      (guard.isSome → (Page.enter guard circuits startsAt).ending = none →
        (page.ending = some none → page.records = [.success]) ∧
        ∀ err, page.ending = some (some err) → err.errorClass.isSome →
          page.records = [.failure]) := by
  obtain ⟨hentered, hzero⟩ := Page.enter_accounts guard hmax circuits startsAt
  obtain ⟨haccounts, hcalls, hquota⟩ := Page.runs_accounts hentered hclock hrun
  rw [hzero, Nat.zero_add] at hcalls
  refine ⟨hcalls, haccounts.calls, fun hgoes => ?_, haccounts.slept.within,
    fun hne => haccounts.slept.total.trans (haccounts.slept.budget hne), hquota,
    fun hguard hlet => ?_⟩
  · obtain ⟨hsame, hlt, -⟩ := haccounts.running hgoes
    exact hsame ▸ hlt
  · have htold : ∀ ending, page.ending = some ending → page.records = recordsOf ending := by
      intro ending hending
      have hcalled : page.calls ≠ 0 := by
        intro hnone
        obtain rfl := eq_nil_of_length_eq_zero (hcalls.symm.trans hnone)
        cases hrun
        rw [hlet] at hending
        cases hending
      rw [haccounts.told hcalled ending hending, if_pos hguard]
    refine ⟨htold none, fun err hending hclass => ?_⟩
    rw [htold _ hending]
    exact if_pos hclass

/-! ## The loop of `retryPage` makes these rounds -/

def endingOf : Except Failure PUnit → Option Failure
  | .ok _ => none
  | .error err => some err

variable {breaker : CircuitBreaker} {key : String} {x : Attempt → Runtime PUnit}
  {env : ℕ → Attempt}

theorem exec_outcome (y : Runtime PUnit) (p : Process) : ∃ ending world,
    (outcome (onWorld y)).exec p = (.ok ending, { p with world := world }) := by
  have hcaught : (outcome (onWorld y)).exec p = match (onWorld y).exec p with
      | (.ok _, p') => (.ok none, p')
      | (.error err, p') => (.ok (some err), p') := by
    unfold outcome
    rw [Effect.exec_tryCatch, Effect.exec_bind]
    rcases (onWorld y).exec p with ⟨err | ⟨⟩, p'⟩ <;> rfl
  have hworld : (onWorld y).exec p = ((y.exec p.world).1, { p with world := (y.exec p.world).2 }) :=
    rfl
  rw [hcaught, hworld]
  rcases (y.exec p.world).1 with err | ⟨⟩
  · exact ⟨some err, _, rfl⟩
  · exact ⟨none, _, rfl⟩

variable (breaker key) in
theorem exec_fail {p : Process} (hcircuits : s.circuits = p.circuits) (err : Failure) (now : ℚ) :
    let raised := (do
      if err.errorClass.isSome then recordFailure breaker key now
      throw err : Service PUnit).exec p
    endingOf raised.1 = some err ∧
      (s.fail (some (breaker, key)) err now).circuits = raised.2.circuits := by
  unfold Page.fail
  split_ifs
  · exact ⟨rfl, congrArg (breaker.recordFailure · key now) hcircuits⟩
  · exact ⟨rfl, hcircuits⟩

variable (policy breaker key x env) in
theorem retryRound_step (again : Service PUnit) (p : Process) (hgoes : s.ending = none)
    (hcircuits : s.circuits = p.circuits) :
    let round := retryRound policy breaker key (fun a => onWorld (x a)) env s.attempts again
    ∃ t s', Page.step policy (some (breaker, key)) s t = some s' ∧
      (s'.ending = some (endingOf (round.exec p).1) ∧ s'.circuits = (round.exec p).2.circuits ∨
        ∃ p', s'.ending = none ∧ s'.attempts = s.attempts + 1 ∧ s'.circuits = p'.circuits ∧
          s.attempts + 1 < policy.maxAttempts ∧ round.exec p = again.exec p') := by
  obtain ⟨ending, world, houtcome⟩ := exec_outcome (x (env s.attempts)) p
  have hover : ¬ s.ending.isSome = true := by simp [hgoes]
  refine ⟨⟨ending, (env s.attempts).pause, (env s.attempts).endsAt⟩, ?_⟩
  unfold retryRound Page.step
  rw [if_neg hover]
  rw [Effect.exec_bind, houtcome]
  rcases ending with _ | err
  · refine ⟨_, rfl, .inl ⟨rfl, ?_⟩⟩
    exact congrArg (CircuitBreaker.recordSuccess · key) hcircuits
  · cases err with
    | transient r =>
      dsimp only
      cases hsleep : sleepBeforeRetry policy (s.attempts + 1) (.transient r)
          (env s.attempts).pause with
      | ok delay =>
        refine ⟨_, rfl, .inr ⟨{ p with world := world }, hgoes, rfl, hcircuits, ?_, rfl⟩⟩
        rcases sleep_cases policy (s.attempts + 1) r (env s.attempts).pause with
          ⟨_, _, _, _, hresult⟩ | ⟨_, _, hresult⟩ | ⟨_, _, hlast, _⟩
        · cases hresult.symm.trans hsleep
        · cases hresult.symm.trans hsleep
        · exact hlast
      | error err =>
        obtain ⟨hending, hsame⟩ := exec_fail breaker key
          (s := Page.sleeping { s with calls := s.calls + 1 } (sleepBegun policy (s.attempts + 1)
            (.transient r) (env s.attempts).pause) (env s.attempts).pause.elapsed)
          (p := { p with world := world }) hcircuits err (env s.attempts).endsAt
        exact ⟨_, rfl, .inl ⟨congrArg some hending.symm, hsame⟩⟩
    | _ =>
      obtain ⟨hending, hsame⟩ := exec_fail breaker key
          (s := { s with calls := s.calls + 1 })
          (p := { p with world := world }) hcircuits _ (env s.attempts).endsAt
      exact ⟨_, rfl, .inl ⟨congrArg some hending.symm, hsame⟩⟩

theorem retryLoop_pages (left : ℕ) (p : Process) (hgoes : s.ending = none)
    (hcircuits : s.circuits = p.circuits) (henough : policy.maxAttempts ≤ s.attempts + left + 1) :
    let loop := retryLoop policy breaker key (fun a => onWorld (x a)) env left s.attempts
    ∃ trials page, runs (Page.step policy (some (breaker, key))) s trials = some page ∧
      page.ending = some (endingOf (loop.exec p).1) ∧ page.circuits = (loop.exec p).2.circuits := by
  induction left generalizing s p with
  | zero =>
    obtain ⟨t, s', hstep, ⟨hending, hsame⟩ | ⟨_, _, _, _, hlast, _⟩⟩ :=
      retryRound_step policy breaker key x env (throw .defect) p hgoes hcircuits
    · exact ⟨[t], s', bind_eq_some_iff.mpr ⟨s', hstep, rfl⟩, hending, hsame⟩
    · omega
  | succ left ih =>
    obtain ⟨t, s', hstep, ⟨hending, hsame⟩ | ⟨p', hgoes', hnext, hcircuits', -, hround⟩⟩ :=
      retryRound_step policy breaker key x env
        (retryLoop policy breaker key (fun a => onWorld (x a)) env left (s.attempts + 1)) p hgoes hcircuits
    · exact ⟨[t], s', bind_eq_some_iff.mpr ⟨s', hstep, rfl⟩, hending, hsame⟩
    · obtain ⟨trials, page, hrun, hending, hsame⟩ := ih p' hgoes' hcircuits' (by omega)
      refine ⟨t :: trials, page, bind_eq_some_iff.mpr ⟨s', hstep, hrun⟩, ?_⟩
      rw [hnext] at hending hsame
      rw [retryLoop, hround]
      exact ⟨hending, hsame⟩

theorem retryPage_pages (startsAt : ℚ) (p : Process) :
    let whole := retryPage policy breaker key (fun a => onWorld (x a)) startsAt env
    ∃ trials page, runs (Page.step policy (some (breaker, key)))
        (.enter (some (breaker, key)) p.circuits startsAt) trials = some page ∧
      page.ending = some (endingOf (whole.exec p).1) ∧
      page.circuits = (whole.exec p).2.circuits := by
  intro whole
  unfold Page.enter
  have hwhole : whole.exec p = match CircuitBreaker.check p.circuits key startsAt with
      | .error err => (.error err, p)
      | .ok circuits => (retryLoop policy breaker key (fun a => onWorld (x a)) env
          (policy.maxAttempts - 1) 0).exec { p with circuits := circuits } := by
    change (retryPage policy breaker key (fun a => onWorld (x a)) startsAt env).exec p = _
    unfold retryPage
    rw [Effect.exec_bind, Effect.exec_get]
    dsimp only
    cases CircuitBreaker.check p.circuits key startsAt <;> rfl
  rw [hwhole]
  dsimp only
  cases CircuitBreaker.check p.circuits key startsAt with
  | error err => exact ⟨[], _, rfl, rfl, rfl⟩
  | ok circuits =>
    exact retryLoop_pages (s := Page.start circuits) (policy.maxAttempts - 1)
      { p with circuits := circuits } rfl rfl (by change _ ≤ 0 + _ + 1; omega)

end

def account : Option (CircuitBreaker × String) := some (defaultBreaker, "reddit:account")

def throttled : List Trial :=
  [⟨some (.transient (some 30)), ⟨0, 0, 1, none⟩, 1⟩, ⟨none, ⟨0, 31, 31, none⟩, 31⟩]

theorem page_accounts_throttled : ∃ page,
    runs (Page.step defaultPolicy account) (.enter account (fun _ => none) 0) throttled =
        some page ∧
      page.sleeps = [⟨30, some 30, 299⟩] ∧ page.records = [.success] ∧
      page.calls = throttled.length ∧ page.calls ≤ defaultPolicy.maxAttempts ∧
      (page.sleeps.map Sleep.delay).sum ≤ defaultPolicy.totalBudgetSeconds := by
  have hrun : (runs (Page.step defaultPolicy account) (.enter account (fun _ => none) 0)
      throttled).map (fun page => (page.sleeps, page.ending)) =
        some ([⟨30, some 30, 299⟩], some none) := by
    decide +kernel
  obtain ⟨page, hpage, hfields⟩ := map_eq_some_iff.mp hrun
  obtain ⟨hsleeps, hending⟩ := Prod.mk.inj hfields
  obtain ⟨hcalls, hmost, -, -, htotal, -, hrecords⟩ := page_accounts defaultPolicy account
    (by decide) (fun _ => none) 0 throttled page (by decide +kernel) hpage
  exact ⟨page, hpage, hsleeps, (hrecords rfl rfl).1 hending, hcalls, hmost,
    htotal (by rw [hsleeps]; exact cons_ne_nil _ _)⟩

def openCircuits : Circuits := fun _ => some ⟨5, some 600, false⟩

/-- A page that the breaker refuses ends in a `ConnectorError` and is not recorded. -/
theorem refused_unrecorded : ∃ page err,
    runs (Page.step defaultPolicy account) (.enter account openCircuits 0) [] = some page ∧
      page.ending = some (some err) ∧ err.errorClass.isSome ∧
      page.records ≠ [.success] ∧ page.records ≠ [.failure] :=
  ⟨_, .circuitOpen (some 600) (some 600), rfl, by decide +kernel, rfl, by decide,
    by decide⟩

end OmniSense.Connectors
