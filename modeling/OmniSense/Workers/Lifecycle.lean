import Mathlib.Algebra.Order.Ring.Rat
import OmniSense.Library.Runs

/-! The life of a `ConsumerWorker` or a `PeriodicWorker`: `BaseWorker.run`, the task of its loop,
and `request_shutdown` at any point of either. -/

namespace OmniSense.Workers.Lifecycle

/-! ## The two shapes -/

inductive Kind
  | consumer
  | periodic (initialDelay : ℚ)
  deriving DecidableEq

/-- Where `run` is suspended. -/
inductive RunPhase
  | notStarted
  | settingUp
  | servingHealth
  -- The two waits of `_run_until_drained`, and that for the cancelled loop.
  | waiting
  | draining
  | cancelled
  | closing
  | finished
  deriving DecidableEq

inductive WorkPhase
  | created
  | connecting
  -- Inside `run_once`, or `tick`.
  | iterating
  | sleeping
  -- Inside `consumer.stop`.
  | stopping
  | done
  deriving DecidableEq

/-- How `run_once` or `tick` comes back. -/
inductive Result
  | returned
  -- A `KafkaError` or an `OSError`, another `Exception`, and what is none.
  | brokerError
  | failed
  | aborted
  deriving DecidableEq

inductive Mark
  | requested
  | advertised
  | began
  | ended
  -- The iteration ended by a cancellation.
  | abandoned
  | deadline
  | consumerStopped
  | runOver
  deriving DecidableEq

structure Worker where
  kind : Kind
  shutdownReason : Option String := none
  ready : Bool
  started : Bool := false
  draining : Bool := false
  shutdown : Bool := false
  run : RunPhase := .notStarted
  work : Option WorkPhase := none
  -- `work.cancel()` was called and has not been delivered.
  cancelling : Bool := false
  -- Ghost: the newest mark first.
  log : List Mark := []
  deriving DecidableEq

/-! ## Steps -/

inductive RunAct
  | start
  -- `setup`, and then the health server.
  | proceed (succeeds : Bool)
  | wake
  | drained
  | timeout
  | joined
  | close

inductive WorkAct
  | turn
  | connected (succeeds : Bool)
  | iterated (result : Result)
  | woke
  | stopped
  | cancelled

inductive Event
  | requestShutdown (reason : String)
  | run (act : RunAct)
  | work (act : WorkAct)

namespace Worker

variable (w : Worker)

/-- Built with a `HealthState` that may say anything. -/
def new (kind : Kind) (ready : Bool) : Worker := { kind := kind, ready := ready }

def mark (m : Mark) : Worker := { w with log := m :: w.log }

def goTo (phase : WorkPhase) : Worker := { w with work := some phase }

def requestShutdown (reason : String) : Worker :=
  if w.shutdown then w
  else
    { w.mark .requested with
      shutdownReason := some reason
      ready := false
      draining := true
      shutdown := true }

/-- `self.health.ready = True`. -/
def advertise : Worker := { w.mark .advertised with ready := true }

def leave : Worker :=
  match w.kind with
  | .consumer => (w.mark .consumerStopped).goTo .stopping
  | .periodic _ => w.goTo .done

/-- `while not self.shutting_down`. -/
def check : Worker := if w.shutdown then w.leave else (w.mark .began).goTo .iterating

def resume : Result → Worker
  | .returned =>
    match w.kind with
    | .consumer => w.check
    | .periodic _ => w.goTo .sleeping
  | .brokerError => w.goTo .sleeping
  | .failed =>
    match w.kind with
    | .consumer => w.leave
    | .periodic _ => w.goTo .sleeping
  | .aborted => w.leave

def workStep : WorkPhase → WorkAct → Option Worker
  | .created, .turn =>
    match w.kind with
    | .consumer => some (w.goTo .connecting)
    | .periodic initialDelay =>
      if 0 < initialDelay then some (w.advertise.goTo .sleeping) else some w.advertise.check
  | .connecting, .connected succeeds =>
    if succeeds then some w.advertise.check else some (w.goTo .done)
  | .iterating, .iterated result => some ((w.mark .ended).resume result)
  | .sleeping, .woke => some w.check
  | .stopping, .stopped => some (w.goTo .done)
  | phase, .cancelled =>
    if w.cancelling then
      let w := { w with cancelling := false }
      match phase with
      | .created | .connecting | .stopping => some (w.goTo .done)
      | .iterating => some (w.mark .abandoned).leave
      | .sleeping => some w.leave
      | .done => none
    else none
  | _, _ => none

/-- `work.done()`. -/
def isDone : Bool := w.work = some .done

def runStep : RunPhase → RunAct → Option Worker
  | .notStarted, .start => some { w with run := .settingUp }
  | .settingUp, .proceed succeeds =>
    some { w with run := if succeeds then .servingHealth else .closing }
  | .servingHealth, .proceed succeeds =>
    if succeeds then some { w with run := .waiting, started := true, work := some .created }
    else some { w with run := .closing }
  | .waiting, .wake =>
    if w.isDone then some { w with run := .closing }
    else if w.shutdown then some { w with run := .draining }
    else none
  | .draining, .drained => if w.isDone then some { w with run := .closing } else none
  | .draining, .timeout =>
    if w.isDone then some { w.mark .deadline with run := .closing }
    else some { w.mark .deadline with run := .cancelled, cancelling := true }
  | .cancelled, .joined => if w.isDone then some { w with run := .closing } else none
  | .closing, .close =>
    some { w.mark .runOver with run := .finished, ready := false, started := false }
  | _, _ => none

def step (w : Worker) : Event → Option Worker
  | .requestShutdown reason => some (w.requestShutdown reason)
  | .run act => w.runStep w.run act
  | .work act => w.work.bind fun phase => w.workStep phase act

end Worker

/-! ## What is asked of a shutdown -/

def inFlight : List Mark → Bool
  | [] => false
  | .began :: _ => true
  | .ended :: _ | .abandoned :: _ => false
  | _ :: older => inFlight older

def Mark.Follows (older : List Mark) : Mark → Prop
  | .advertised => .requested ∉ older
  | .began => .requested ∉ older ∧ inFlight older = false
  | .abandoned => .deadline ∈ older
  | .deadline => .requested ∈ older
  | .consumerStopped | .runOver => inFlight older = false
  | .requested | .ended => True

def Ordered : List Mark → Prop
  | [] => True
  | m :: older => m.Follows older ∧ Ordered older

/-- The loop does not start up once a shutdown is requested: `consumer.start` returns before that,
and a periodic loop has its first turn before that. -/
def Worker.Prompt (w : Worker) : Event → Prop
  | .work .turn => w.work = some .created → w.kind ≠ .consumer → w.shutdown = false
  | .work (.connected true) => w.work = some .connecting → w.shutdown = false
  | _ => True

instance (w : Worker) : (e : Event) → Decidable (w.Prompt e)
  | .work .turn =>
    inferInstanceAs (Decidable (w.work = some .created → w.kind ≠ .consumer → w.shutdown = false))
  | .work (.connected true) =>
    inferInstanceAs (Decidable (w.work = some .connecting → w.shutdown = false))
  | .work (.connected false) | .work (.iterated _) | .work .woke | .work .stopped
  | .work .cancelled | .run _ | .requestShutdown _ => .isTrue trivial

end OmniSense.Workers.Lifecycle
