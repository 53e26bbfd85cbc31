import OmniSense.Agents.State
import OmniSense.Library.Effect
import OmniSense.Library.Runs
import OmniSense.Models.Common

/-! `InvestigationService` on one investigation, statement by statement: any number of calls are
open at once, each in a transaction of its own under read-committed isolation. -/

namespace OmniSense.Investigations

open Agents

def ALLOWED_TRANSITIONS : InvestigationStatus → List InvestigationStatus
  | .queued => [.planning, .running, .cancelled, .failed]
  | .planning => [.running, .cancelled, .failed]
  | .running => [.reflecting, .completed, .completedWithFindings, .cancelled, .failed]
  | .reflecting => [.running, .completed, .completedWithFindings, .cancelled, .failed]
  | .completed | .completedWithFindings | .failed | .cancelled | .unknown => []

variable {Json : Type}

structure InvestigationRow (Json : Type) where
  tenantId : String
  status : InvestigationStatus := .queued
  plan : Option Json := none
  startedAt : Option ℤ := none
  completedAt : Option ℤ := none
  error : Option String := none
  stepCount : ℤ := 0
  deriving DecidableEq

def InvestigationRow.completedAfterStarted (row : InvestigationRow Json) : Bool :=
  match row.completedAt, row.startedAt with
  | none, _ => true
  | some _, none => false
  | some completed, some started => started ≤ completed

structure InvestigationStepRow (Json : Type) where
  id : String
  tenantId : String
  sequence : ℤ
  agent : AgentName
  input : Option Json
  deriving DecidableEq

inductive Failure
  | validation
  | notFound
  | unexpected (status expected : InvestigationStatus)
  | terminal (status attempted : InvestigationStatus)
  | notAllowed (status attempted : InvestigationStatus) (allowed : List InvestigationStatus)
  | moved (source : InvestigationStatus)
  | planClosed (status : InvestigationStatus)
  | stepsClosed (status : InvestigationStatus)
  | overBudget (stepCount maxSteps : ℤ)
  -- The database refused a statement or went away, or the task was cancelled.
  | database
  deriving DecidableEq

/-! ## Between the statements -/

def requireTransition (current target : InvestigationStatus) : Except Failure Unit :=
  if current.isTerminal then .error (.terminal current target)
  else if target = current then .ok ⟨⟩
  else if target ∈ ALLOWED_TRANSITIONS current then .ok ⟨⟩
  else .error (.notAllowed current target (ALLOWED_TRANSITIONS current))

structure Values where
  status : InvestigationStatus
  startedAt : Option ℤ := none
  completedAt : Option ℤ := none
  error : Option (Option String) := none
  deriving DecidableEq

def transitionValues (row : InvestigationRow Json) (target : InvestigationStatus)
    (error : Option String) (now : ℤ) : Values where
  status := target
  startedAt :=
    if (target = .planning ∨ target = .running) ∧ row.startedAt.isNone then some now else none
  completedAt := if target.isTerminal ∧ row.startedAt.isSome then some now else none
  error := if target.isTerminal ∨ error.isSome then some error else none

def Values.apply (values : Values) (row : InvestigationRow Json) : InvestigationRow Json :=
  { row with
    status := values.status
    startedAt := values.startedAt.or row.startedAt
    completedAt := values.completedAt.or row.completedAt
    error := values.error.getD row.error }

inductive Call (Json : Type)
  | transition (target : InvestigationStatus) (error : Option String)
      (expected : Option InvestigationStatus)
  | recordPlan (plan : Json)
  | appendStep (agent : AgentName) (stepInput : Option Json) (stepId : String) (budget : ℤ)

/-- `start`, `resume` and `reflect`. -/
def Call.start : Call Json := .transition .planning none none

def Call.resume : Call Json := .transition .running none none

def Call.reflect : Call Json := .transition .reflecting none none

/-- `cancel`; an empty reason counts as none. -/
def Call.cancel (reason : Option String) : Call Json :=
  .transition .cancelled (some ((reason.filter (· ≠ "")).getD "cancelled by request")) none

def Call.complete (withFindings : Bool) : Call Json :=
  .transition (if withFindings then .completedWithFindings else .completed) none none

/-- `fail`, which refuses a blank explanation before it opens a session. -/
def Call.fail (error : String) : Except Failure (Call Json) :=
  if strip error = "" then .error .validation else .ok (.transition .failed (some error) none)

/-- `append_step`, with `max_steps` or the settings' limit. -/
def Call.append (agent : AgentName) (stepInput : Option Json) (stepId : String)
    (maxSteps : Option ℤ) (limit : ℤ) : Except Failure (Call Json) :=
  let budget := maxSteps.getD limit
  if budget < 1 then .error .validation else .ok (.appendStep agent stepInput stepId budget)

inductive Write (Json : Type)
  -- The compare-and-swap on the status.
  | set (current : InvestigationStatus) (values : Values)
  | plan (newPlan : Json)
  | step (newStep : InvestigationStepRow Json)

/-- A call from its first statement, `_load`, to its first write. -/
def Call.check (tenantId : String) (row : InvestigationRow Json) (now : ℤ) :
    Call Json → Except Failure (Write Json)
  | .transition target error expected =>
    if row.tenantId ≠ tenantId then .error .notFound
    else
      match expected.filter (· ≠ row.status) with
      | some expected => .error (.unexpected row.status expected)
      | none =>
        (requireTransition row.status target).map fun _ =>
          .set row.status (transitionValues row target error now)
  | .recordPlan plan =>
    if row.tenantId ≠ tenantId then .error .notFound
    else if row.status.isTerminal then .error (.planClosed row.status)
    else .ok (.plan plan)
  | .appendStep agent stepInput stepId budget =>
    if row.tenantId ≠ tenantId then .error .notFound
    else if row.status.isTerminal then .error (.stepsClosed row.status)
    else if budget ≤ row.stepCount then .error (.overBudget row.stepCount budget)
    else .ok (.step ⟨stepId, tenantId, row.stepCount, agent, stepInput⟩)

/-! ## The database -/

/-- The row that an `UPDATE` leaves, when its condition matches. -/
def Write.update (tenantId : String) (row : InvestigationRow Json) :
    Write Json → Option (InvestigationRow Json)
  | .set current values =>
    if row.tenantId = tenantId ∧ row.status = current then some (values.apply row) else none
  | .plan newPlan => some { row with plan := some newPlan }
  | .step _ =>
    if row.tenantId = tenantId then some { row with stepCount := row.stepCount + 1 } else some row

inductive Task (Json : Type)
  | opened (tenantId : String) (call : Call Json)
  -- It has loaded the row and checked it. The new step may be inserted, and `UPDATE` may have
  -- left a row that no one else sees yet, or may touch.
  | writing (tenantId : String) (write : Write Json) (inserted : Bool)
      (updated : Option (InvestigationRow Json))
  | ended (outcome : Except Failure Unit)

def Task.inserted? : Task Json → Option (InvestigationStepRow Json)
  | .writing _ (.step step) true _ => some step
  | _ => none

def Task.updated? : Task Json → Option (InvestigationRow Json)
  | .writing _ _ _ updated => updated
  | _ => none

/-- A committed state of the investigation and its steps, and whether a transition made it. -/
structure Version (Json : Type) where
  row : InvestigationRow Json
  steps : List (InvestigationStepRow Json)
  byTransition : Bool

structure State (Json : Type) where
  row : InvestigationRow Json
  steps : List (InvestigationStepRow Json)
  tasks : List (Task Json)
  -- Ghost: the committed states, the present one last.
  versions : List (Version Json)

/-- `create` has just committed. -/
def State.created (tenantId : String) : State Json :=
  ⟨{ tenantId := tenantId }, [], [], [⟨{ tenantId := tenantId }, [], true⟩]⟩

inductive Action (Json : Type)
  | open (tenantId : String) (call : Call Json)
  -- `_load`, and what follows it, at the given time.
  | load (now : ℤ)
  | insert
  | update
  -- The caller may not hear of a commit.
  | commit (heard : Bool)
  | abort

namespace State

variable (s : State Json)

def put (i : ℕ) (task : Task Json) : State Json := { s with tasks := s.tasks.set i task }

def fail (i : ℕ) (err : Failure) : State Json := s.put i (.ended (.error err))

def isFree : Bool := s.tasks.all fun t => t.updated?.isNone

def clashes (step : InvestigationStepRow Json) (other : InvestigationStepRow Json) : Bool :=
  other.id = step.id || other.sequence = step.sequence

/-- `INSERT` waits for a transaction that has inserted a clashing row. -/
def insert (i : ℕ) (tenantId : String) (step : InvestigationStepRow Json)
    (updated : Option (InvestigationRow Json)) : Option (State Json) :=
  if s.steps.any (clashes step) then some (s.fail i .database)
  else if s.tasks.any fun t => t.inserted?.any (clashes step) then none
  else some (s.put i (.writing tenantId (.step step) true updated))

/-- `UPDATE` waits for the row, and then looks at what was committed meanwhile. -/
def update (i : ℕ) (tenantId : String) (write : Write Json) (inserted : Bool) :
    Option (State Json) :=
  if s.isFree then
    match write.update tenantId s.row, write with
    | some row, _ =>
      if row.completedAfterStarted then some (s.put i (.writing tenantId write inserted (some row)))
      else some (s.fail i .database)
    | none, .set current _ => some (s.fail i (.moved current))
    | none, _ => some (s.fail i .database)
  else none

def commit (i : ℕ) (write : Write Json) (row : InvestigationRow Json) (heard : Bool) :
    State Json :=
  let steps :=
    match write with
    | .step step => s.steps ++ [step]
    | _ => s.steps
  let byTransition :=
    match write with
    | .set _ _ => true
    | _ => false
  { row := row
    steps := steps
    tasks := s.tasks.set i (.ended (if heard then .ok ⟨⟩ else .error .database))
    versions := s.versions ++ [⟨row, steps, byTransition⟩] }

/-- The step of a flush: with `autoflush` the new step is inserted before the row is updated,
without it after that. -/
def step (autoflush : Bool) (s : State Json) : ℕ × Action Json → Option (State Json)
  | (i, action) =>
    match action, s.tasks[i]? with
    | .open tenantId call, none =>
      if i = s.tasks.length then some { s with tasks := s.tasks ++ [.opened tenantId call] } else none
    | .load now, some (.opened tenantId call) =>
      match call.check tenantId s.row now with
      | .ok write => some (s.put i (.writing tenantId write false none))
      | .error err => some (s.fail i err)
    | .insert, some (.writing tenantId (.step step) false updated) =>
      if updated.isNone = autoflush then s.insert i tenantId step updated else none
    | .update, some (.writing tenantId write inserted none) =>
      match write with
      | .step _ => if inserted = autoflush then s.update i tenantId write inserted else none
      | _ => s.update i tenantId write inserted
    | .commit heard, some (.writing _ write inserted (some row)) =>
      match write with
      | .step _ => if inserted then some (s.commit i write row heard) else none
      | _ => some (s.commit i write row heard)
    | .abort, some (.ended _) => none
    | .abort, some _ => some (s.fail i .database)
    | _, _ => none

end State

end OmniSense.Investigations
