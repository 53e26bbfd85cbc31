import Mathlib.Data.List.Dedup
import Mathlib.Data.List.Perm.Subperm
import OmniSense.Investigations.Service

/-! Any number of `InvestigationWorker` replicas on one queue. The status is the queue and the lock
in one: what a replica has claimed is only ever driven by the task that it makes. -/

namespace OmniSense.Investigations.Replicas

open Agents Library

/-! ## One replica -/

inductive Phase
  | loading
  | running
  -- The `_finish` after the graph, and that of the failure path.
  | finishing
  | failing
  deriving DecidableEq

/-- Where `tick` is suspended. -/
inductive Tick
  | idle
  -- It has read the capacity; `_claim` has not selected yet.
  | sized (capacity : ℕ)
  -- The transaction holds these rows.
  | selected (ids : List String)
  -- The claim is committed; `_claim` has not returned yet.
  | claimed (ids : List String)
  deriving DecidableEq

structure Replica where
  -- `Semaphore._value`.
  value : ℕ
  tick : Tick := .idle
  -- Tasks that have not had a turn yet.
  created : List String := []
  driving : List (String × Phase) := []
  stopped : Bool := false
  -- Ghost: everything the replica ever claimed.
  claims : List String := []
  deriving DecidableEq

namespace Replica

variable (r : Replica)

def selectedIds : List String :=
  match r.tick with
  | .selected ids => ids
  | .idle | .sized _ | .claimed _ => []

def claimedIds : List String :=
  match r.tick with
  | .claimed ids => ids
  | .idle | .sized _ | .selected _ => []

def tasks : List String := r.claimedIds ++ r.created ++ r.driving.map Prod.fst

def leave (id : String) (phase : Phase) : Replica :=
  { r with value := r.value + 1, driving := r.driving.erase (id, phase) }

def move (id : String) (phase phase' : Phase) : Replica :=
  { r with driving := (id, phase') :: r.driving.erase (id, phase) }

end Replica

/-! ## The system -/

/-- How a `_finish` ends: the commit may go through and raise all the same. -/
inductive Outcome
  | written
  | refused
  | unheard
  deriving DecidableEq

inductive Act
  | tick
  | select
  | commit
  -- `_claim` raises or is cancelled, before its commit or after it.
  | giveUp
  | spawn
  | enter
  | load (id : String) (succeeds : Bool)
  | ended (id : String) (raised : Bool)
  | finish (id : String) (withFindings : Bool) (outcome : Outcome)
  | fail (id : String) (outcome : Outcome)
  -- A crash, or a shutdown that cancels what is left.
  | stop

inductive Event
  | create (id : String)
  -- A transition of the service into a terminal status.
  | settle (id : String) (target : InvestigationStatus)
  | start
  | worker (i : ℕ) (act : Act)

structure World where
  rows : List (String × InvestigationStatus)
  replicas : List Replica
  deriving DecidableEq

namespace World

variable (w : World)

def empty : World := ⟨[], []⟩

def write (ids : List String) (status : InvestigationStatus) : World :=
  { w with rows := w.rows.map fun row => if row.1 ∈ ids then (row.1, status) else row }

def put (i : ℕ) (r : Replica) : World := { w with replicas := w.replicas.set i r }

def isHeld (id : String) : Bool := w.replicas.any fun r => id ∈ r.selectedIds

/-- `SELECT ... FOR UPDATE SKIP LOCKED`, the oldest rows first. -/
def queued (limit : ℕ) : List String :=
  ((w.rows.filter fun row => row.2 = .queued ∧ w.isHeld row.1 = false).map Prod.fst).take limit

def workerStep (maxConcurrent : ℕ) (i : ℕ) (r : Replica) : Act → Option World
  | .tick =>
    -- The tasks that the last tick made have had their first turn.
    if r.tick = .idle ∧ r.created = [] ∧ r.stopped = false ∧ 0 < r.value then
      some (w.put i { r with tick := .sized r.value })
    else none
  | .select =>
    match r.tick with
    | .sized capacity => some (w.put i { r with tick := .selected (w.queued capacity) })
    | _ => none
  | .commit =>
    match r.tick with
    | .selected ids =>
      some ((w.write ids .planning).put i
        { r with tick := .claimed ids, claims := r.claims ++ ids })
    | _ => none
  | .giveUp => if r.tick = .idle then none else some (w.put i { r with tick := .idle })
  | .spawn =>
    match r.tick with
    | .claimed ids => some (w.put i { r with tick := .idle, created := ids })
    | _ => none
  | .enter =>
    match r.created with
    | [] => none
    | id :: rest =>
      if 0 < r.value then
        some (w.put i
          { r with
            value := r.value - 1
            created := rest
            driving := (id, .loading) :: r.driving })
      else none
  | .load id succeeds =>
    if (id, .loading) ∈ r.driving then
      some (w.put i (if succeeds then r.move id .loading .running else r.leave id .loading))
    else none
  | .ended id raised =>
    if (id, .running) ∈ r.driving then
      some (w.put i (r.move id .running (if raised then .failing else .finishing)))
    else none
  | .finish id withFindings outcome =>
    if (id, .finishing) ∈ r.driving then
      let status := if withFindings then .completedWithFindings else .completed
      some (match outcome with
        | .written => (w.write [id] status).put i (r.leave id .finishing)
        | .refused => w.put i (r.move id .finishing .failing)
        | .unheard => (w.write [id] status).put i (r.move id .finishing .failing))
    else none
  | .fail id outcome =>
    if (id, .failing) ∈ r.driving then
      some (match outcome with
        | .refused => w.put i (r.leave id .failing)
        | .written | .unheard => (w.write [id] .failed).put i (r.leave id .failing))
    else none
  | .stop =>
    if r.stopped then none
    else some (w.put i { value := maxConcurrent, stopped := true, claims := r.claims })

def step (maxConcurrent : ℕ) (w : World) : Event → Option World
  | .create id =>
    if id ∈ w.rows.map Prod.fst then none else some { w with rows := w.rows ++ [(id, .queued)] }
  | .settle id target =>
    match w.rows.find? fun row => row.1 = id with
    | some (_, current) =>
      if target ∈ ALLOWED_TRANSITIONS current ∧ target.isTerminal ∧ w.isHeld id = false then
        some (w.write [id] target)
      else none
    | none => none
  | .start => some { w with replicas := w.replicas ++ [{ value := maxConcurrent }] }
  | .worker i act => (w.replicas[i]?).bind fun r => w.workerStep maxConcurrent i r act

/-! ## What is asked of every state -/

def IsSettled (id : String) : Prop := ∀ row ∈ w.rows, row.1 = id → row.2.isTerminal = true

instance (id : String) : Decidable (w.IsSettled id) :=
  inferInstanceAs (Decidable (∀ row ∈ w.rows, _))

/-- Queued, or driven by a task of some replica, or about to be: `_claim` selects nothing else. -/
def NoneStranded : Prop :=
  ∀ row ∈ w.rows, row.2.isTerminal = false →
    row.2 = .queued ∨ ∃ r ∈ w.replicas, row.1 ∈ r.tasks

def unfinished (r : Replica) : List String :=
  r.claims.filter fun id => id ∈ r.tasks ∨ ¬w.IsSettled id

def Bounded (maxConcurrent : ℕ) : Prop :=
  ∀ r ∈ w.replicas, (w.unfinished r).length ≤ maxConcurrent

def abandons (r : Replica) : Act → List String
  | .giveUp => r.claimedIds
  | .stop => r.tasks
  | .load id false | .fail id .refused => [id]
  | _ => []

def Keeps (w : World) : Event → Prop
  | .worker i act => ∀ r ∈ w.replicas[i]?, ∀ id ∈ abandons r act, w.IsSettled id
  | _ => True

instance (w : World) : (e : Event) → Decidable (w.Keeps e)
  | .worker i act =>
    inferInstanceAs (Decidable (∀ r ∈ w.replicas[i]?, ∀ id ∈ abandons r act, w.IsSettled id))
  | .create _ | .settle _ _ | .start => .isTrue trivial

end World

end OmniSense.Investigations.Replicas
