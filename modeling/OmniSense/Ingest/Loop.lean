import OmniSense.Ingest.Store

/-! The calls on one `WriteBatcher` at once, each at the await that suspends it: what a call does
between two awaits is one step, and any suspended call may be the next. -/

namespace OmniSense.Ingest.Loop

/-- How an awaited call ends; a cancellation is no `Exception`. -/
inductive Outcome
  | returned | raised | cancelled
  deriving DecidableEq

/-- Who called `flush`. -/
inductive Caller
  | user | run | aclose
  deriving DecidableEq

/-- A `submit` without capacity: it enters the condition, waits there, or was notified. -/
inductive Wait
  | entering | waiting | notified

inductive Flush
  | locking
  | applying (flight : Flight)
  | sleeping (flight : Flight)
  | deadLettering (take : List GraphWrite)
  -- The rows are gone and the lock is released.
  | notifying

inductive Call
  | submitting (item : GraphWrite) (wait : Wait)
  | flushing (caller : Caller) (flush : Flush)
  -- `_run`: not begun, waiting for rows, waiting for the deadline, after a failed flush.
  | starting
  | idling
  | timing (due : ℚ)
  | resting
  -- `aclose`: it awaits the flusher task, or is past its `finally`.
  | joining (task : ℕ)
  | leaving (drained : Bool)
  -- A `submit`, `flush` or `_run` is over: it returned, or it raised.
  | ended (ok : Bool)
  -- An `aclose` is over.
  | closed (ok : Bool)

structure State where
  buffer : List GraphWrite
  deadline : Option ℚ
  closing : Bool
  closed : Bool
  pressured : Bool
  wake : Bool
  -- The call that holds `_flush_lock`.
  lock : Option ℕ
  -- The flusher task.
  task : Option ℕ
  calls : List Call
  -- Ghosts: the rows of the submits that returned, and those that flushes removed.
  accepted : List GraphWrite
  removed : List GraphWrite

inductive Action
  | submit (item : GraphWrite) (now : ℚ)
  | flush
  | start
  | aclose
  -- What the call awaits ends, and the call goes on to its next await.
  | resume (i : ℕ) (outcome : Outcome) (now : ℚ)

def Call.notify : Call → Call
  | .submitting item .waiting => .submitting item .notified
  | call => call

namespace State

def new : State := ⟨[], none, false, false, false, false, none, none, [], [], []⟩

variable (cfg : BatcherConfig) (now : ℚ) (s : State)

def add (call : Call) : State := { s with calls := s.calls ++ [call] }

def notifyAll : State := { s with calls := s.calls.map Call.notify }

/-! ## `submit` -/

/-- The row is appended; `submit` returns without another await. -/
def accept (item : GraphWrite) : State :=
  { s with
    buffer := s.buffer ++ [item]
    deadline := if s.buffer.isEmpty then some (now + cfg.maxAge) else s.deadline
    wake := s.wake || s.buffer.isEmpty || decide (cfg.maxBatchRows ≤ s.buffer.length + 1)
    accepted := s.accepted ++ [item] }

def submit (item : GraphWrite) : State × Call :=
  if s.closing || s.closed then (s, .ended false)
  else if cfg.capacity ≤ s.buffer.length then
    ({ s with pressured := true }, .submitting item .entering)
  else (s.accept cfg now item, .ended true)

def resubmit (item : GraphWrite) : State × Call :=
  if cfg.capacity ≤ s.buffer.length ∧ ¬s.closing then (s, .submitting item .waiting)
  else if s.closing || s.closed then (s, .ended false)
  else (s.accept cfg now item, .ended true)

/-! ## `flush` -/

/-- The loop of `aclose`, and its `finally`. -/
def drain : State × Call :=
  if s.buffer.isEmpty then ({ s with closed := true }, .leaving true)
  else (s, .flushing .aclose .locking)

/-- The loop of `_run`, up to its next await. -/
def run : State × Call :=
  if s.closing then (s, .ended true)
  else if s.buffer.isEmpty then (s, .idling)
  else if s.deadline.getD now ≤ now ∨ cfg.maxBatchRows ≤ s.buffer.length then
    (s, .flushing .run .locking)
  else ({ s with wake := false }, .timing (s.deadline.getD now))

/-- `flush` is over, and its caller goes on; `_run` catches an `Exception`. -/
def flushed (caller : Caller) (outcome : Outcome) : State × Call :=
  match caller, outcome with
  | .user, outcome => (s, .ended (outcome = .returned))
  | .run, .returned => s.run cfg now
  | .run, .raised => (s, .resting)
  | .run, .cancelled => (s, .ended false)
  | .aclose, .returned => s.drain
  | .aclose, _ => ({ s with closed := true }, .leaving false)

def remove (take : List GraphWrite) : State :=
  let rest := s.buffer.drop take.length
  { s with
    buffer := rest
    deadline := if rest.isEmpty then none else some (now + cfg.maxAge)
    lock := none
    removed := s.removed ++ take }

def release : State :=
  { s.notifyAll with
    pressured := if s.buffer.length ≤ cfg.capacity / 2 then false else s.pressured }

def unlocked : State := { s with lock := none }

def resumeFlush (i : ℕ) (caller : Caller) (outcome : Outcome) : Flush → Option (State × Call)
  | .locking =>
    if outcome ≠ .returned then some (s.flushed cfg now caller outcome)
    else if s.lock.isSome then none
    else if s.buffer.isEmpty then some (s.flushed cfg now caller .returned)
    else
      some ({ s with lock := some i },
        .flushing caller (.applying ⟨s.buffer.take cfg.maxBatchRows, 1⟩))
  | .applying f =>
    match outcome with
    | .returned => some (s.remove cfg now f.take, .flushing caller .notifying)
    | .raised =>
      if f.attempt < cfg.maxAttempts then some (s, .flushing caller (.sleeping f))
      else if cfg.deadLetter then some (s, .flushing caller (.deadLettering f.take))
      else some (s.unlocked.flushed cfg now caller .raised)
    | .cancelled => some (s.unlocked.flushed cfg now caller .cancelled)
  | .sleeping f =>
    if outcome = .returned then
      some (s, .flushing caller (.applying { f with attempt := f.attempt + 1 }))
    else some (s.unlocked.flushed cfg now caller outcome)
  | .deadLettering take =>
    if outcome = .returned then some (s.remove cfg now take, .flushing caller .notifying)
    else some (s.unlocked.flushed cfg now caller outcome)
  | .notifying =>
    -- Cancelled before it has the condition; it raises when `on_pressure` does.
    if outcome = .cancelled then some (s.flushed cfg now caller .cancelled)
    else some ((s.release cfg).flushed cfg now caller outcome)

/-! ## Steps -/

def resume (i : ℕ) (outcome : Outcome) : Call → Option (State × Call)
  | .submitting item wait =>
    match outcome, wait with
    | .returned, .waiting => none
    | .returned, _ => some (s.resubmit cfg now item)
    | _, _ => some (s, .ended false)
  | .flushing caller flush => s.resumeFlush cfg now i caller outcome flush
  | .starting =>
    if outcome = .returned then some (s.run cfg now) else some (s, .ended false)
  | .idling =>
    if outcome ≠ .returned then some (s, .ended false)
    else if s.wake then some ({ s with wake := false }.run cfg now)
    else none
  | .timing due =>
    if outcome ≠ .returned then some (s, .ended false)
    else if s.wake || decide (due ≤ now) then some (s.run cfg now)
    else none
  | .resting =>
    if outcome = .returned then some (s.run cfg now) else some (s, .ended false)
  | .joining task =>
    if outcome ≠ .returned then some (s, .closed false)
    else
      match s.calls[task]? with
      | some (.ended true) => some s.drain
      | some (.ended false) => some (s, .closed false)
      | _ => none
  | .leaving drained =>
    match outcome with
    | .returned => some ({ s.notifyAll with pressured := false }, .closed drained)
    | .raised => some ({ s.notifyAll with pressured := false }, .closed false)
    | .cancelled => some (s, .closed false)
  | .ended _ | .closed _ => none

def aclose : State × Call :=
  if s.closed then (s, .closed true)
  else
    let closing := { s with closing := true, wake := true, task := none }
    match s.task with
    | some task => (closing, .joining task)
    | none => closing.drain

def step (s : State) : Action → Option State
  | .submit item now =>
    let r := s.submit cfg now item
    some (r.1.add r.2)
  | .flush => some (s.add (.flushing .user .locking))
  | .start =>
    if s.task.isSome || s.closed then some s
    else some { s.add .starting with task := some s.calls.length }
  | .aclose =>
    let r := s.aclose
    some (r.1.add r.2)
  | .resume i outcome now =>
    s.calls[i]?.bind fun call =>
      (s.resume cfg now i outcome call).map fun r => { r.1 with calls := r.1.calls.set i r.2 }

end State

end OmniSense.Ingest.Loop
