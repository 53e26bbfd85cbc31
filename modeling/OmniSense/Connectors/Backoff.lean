import OmniSense.Connectors.Base

/-! `retry_page`: which failures are retried, how long the waits are, and the circuit breaker. -/

namespace OmniSense.Connectors

open Library

structure BackoffPolicy where
  baseSeconds : ℚ
  capSeconds : ℚ
  maxAttempts : ℕ
  totalBudgetSeconds : ℚ
  quotaThresholdSeconds : ℚ

def defaultPolicy : BackoffPolicy := ⟨1, 60, 5, 300, 900⟩

variable (policy : BackoffPolicy)

def BackoffPolicy.ceilingFor (attempt : ℕ) : ℚ :=
  if 32 < attempt then policy.capSeconds
  else min policy.capSeconds (policy.baseSeconds * 2 ^ attempt)

/-- `uniform(0, ceiling)`, for a draw from the unit interval. -/
def fullJitter (attempt : ℕ) (draw : ℚ) : ℚ :=
  draw * policy.ceilingFor attempt

def Failure.retryAfterOf : Failure → Option ℚ
  | .transient r | .quota _ r | .circuitOpen _ r => r.map (max 0)
  | _ => none

/-- What the clocks and the generator say while one failed attempt is accounted for, and what
interrupts the sleep after it. -/
structure Pause where
  draw : ℚ
  wallClock : ℚ
  elapsed : ℚ
  interrupted : Option Failure

def nextDelay (attempt : ℕ) (retryAfter : Option ℚ) (pause : Pause) :
    Except Failure ℚ :=
  match retryAfter with
  | none => .ok (fullJitter policy attempt pause.draw)
  | some r =>
    if policy.quotaThresholdSeconds < r then .error (.quota (some (pause.wallClock + r)) (some r))
    else .ok (max 0 r)

/-- `sleep_before_retry`, with `attempts` made so far. -/
def sleepBeforeRetry (attempts : ℕ) (err : Failure) (pause : Pause) :
    Except Failure ℚ :=
  match nextDelay policy (attempts - 1) err.retryAfterOf pause with
  | .error quota => .error quota
  | .ok delay =>
    if policy.maxAttempts ≤ attempts then .error err
    else if policy.totalBudgetSeconds - pause.elapsed < delay then .error err
    else
      match pause.interrupted with
      | some stop => .error stop
      | none => .ok delay

/-! ## `CircuitBreaker` -/

structure Circuit where
  consecutiveFailures : ℕ
  opensUntil : Option ℚ
  probing : Bool

structure CircuitBreaker where
  failureThreshold : ℕ
  openSeconds : ℚ

def defaultBreaker : CircuitBreaker := ⟨5, 600⟩

abbrev Circuits := String → Option Circuit

namespace CircuitBreaker

def check (circuits : Circuits) (key : String) (now : ℚ) : Except Failure Circuits :=
  match circuits key with
  | none => .ok circuits
  | some circuit =>
    match circuit.opensUntil with
    | none => .ok circuits
    | some opensUntil =>
      if now < opensUntil then .error (.circuitOpen (some opensUntil) (some (opensUntil - now)))
      else
        .ok (Function.update circuits key
          (some { circuit with probing := true, consecutiveFailures := 0 }))

def recordSuccess (circuits : Circuits) (key : String) : Circuits :=
  Function.update circuits key none

def recordFailure (breaker : CircuitBreaker) (circuits : Circuits) (key : String) (now : ℚ) :
    Circuits :=
  let circuit := (circuits key).getD ⟨0, none, false⟩
  let circuit := { circuit with consecutiveFailures := circuit.consecutiveFailures + 1 }
  let opened := { circuit with opensUntil := some (now + breaker.openSeconds) }
  Function.update circuits key <| some <|
    if circuit.probing then { opened with probing := false }
    else if breaker.failureThreshold ≤ circuit.consecutiveFailures then opened
    else circuit

end CircuitBreaker

/-! ## The retry loop -/

structure Process where
  world : World
  circuits : Circuits

abbrev Service := Effect Process Failure

def onWorld {α : Type} (x : Runtime α) : Service α :=
  ExceptT.mk fun p => ((x.exec p.world).1, { p with world := (x.exec p.world).2 })

def outcome (x : Service PUnit) : Service (Option Failure) :=
  tryCatch (do x; pure none) fun err => pure (some err)

structure Attempt where
  fetch : Cursor → List Pull
  pause : Pause
  endsAt : ℚ

section

variable (policy : BackoffPolicy) (breaker : CircuitBreaker) (key : String)
  (operation : Attempt → Service PUnit)

def recordFailure (now : ℚ) : Service PUnit :=
  modify fun p => { p with circuits := breaker.recordFailure p.circuits key now }

/-- One round of the loop of `retry_page`, with `attempts` made before it. -/
def retryRound (env : ℕ → Attempt) (attempts : ℕ) (again : Service PUnit) : Service PUnit := do
  let attempt := env attempts
  match ← outcome (operation attempt) with
  | none => modify fun p => { p with circuits := CircuitBreaker.recordSuccess p.circuits key }
  | some (.transient r) =>
    match sleepBeforeRetry policy (attempts + 1) (.transient r) attempt.pause with
    | .ok _ => again
    | .error err =>
      if err.errorClass.isSome then recordFailure breaker key attempt.endsAt
      throw err
  | some err =>
    if err.errorClass.isSome then recordFailure breaker key attempt.endsAt
    throw err

/-- The loop, with `left` rounds to go at most; the last round never asks for another. -/
def retryLoop (env : ℕ → Attempt) : ℕ → ℕ → Service PUnit
  | 0, attempts => retryRound policy breaker key operation env attempts (throw .defect)
  | left + 1, attempts =>
    retryRound policy breaker key operation env attempts (retryLoop env left (attempts + 1))

def retryPage (startsAt : ℚ) (env : ℕ → Attempt) : Service PUnit := do
  match CircuitBreaker.check (← get).circuits key startsAt with
  | .error err => throw err
  | .ok circuits =>
    modify fun p => { p with circuits := circuits }
    retryLoop policy breaker key operation env (policy.maxAttempts - 1) 0

end

end OmniSense.Connectors
