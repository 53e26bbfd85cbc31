import Mathlib.Data.Rat.Init
import OmniSense.Agents.State
import OmniSense.Library.Runs
import OmniSense.Models.Common

/-! The step calls of `InvestigationService` on one investigation, statement by statement: any
number of them are open at once, each in a transaction of its own under read-committed isolation. -/

namespace OmniSense.Investigations.Steps

open Agents

inductive StepStatus
  | pending | running | completed | failed | skipped | cancelled | unknown
  deriving DecidableEq

def ALLOWED_STEP_TRANSITIONS : StepStatus → List StepStatus
  | .pending => [.running, .skipped, .cancelled, .failed]
  | .running => [.completed, .failed, .cancelled]
  | .completed | .failed | .skipped | .cancelled | .unknown => []

/-- `status in TERMINAL_STEP_STATUSES`. -/
def StepStatus.isTerminal (status : StepStatus) : Bool := (ALLOWED_STEP_TRANSITIONS status).isEmpty

structure InvestigationRow where
  tenantId : String
  status : InvestigationStatus := .queued
  stepCount : ℤ := 0
  tokenInput : ℤ := 0
  tokenOutput : ℤ := 0
  deriving DecidableEq

structure InvestigationStepRow where
  id : String
  tenantId : String
  sequence : ℤ
  status : StepStatus := .pending
  durationMs : Option ℤ := none
  tokenInput : ℤ := 0
  tokenOutput : ℤ := 0
  deriving DecidableEq

/-- The `CHECK` constraints on these columns. -/
def InvestigationRow.Valid (row : InvestigationRow) : Prop :=
  0 ≤ row.stepCount ∧ 0 ≤ row.tokenInput ∧ 0 ≤ row.tokenOutput

def InvestigationStepRow.Valid (step : InvestigationStepRow) : Prop :=
  0 ≤ step.sequence ∧ (∀ duration ∈ step.durationMs, 0 ≤ duration) ∧ 0 ≤ step.tokenInput ∧
    0 ≤ step.tokenOutput

instance (row : InvestigationRow) : Decidable row.Valid := inferInstanceAs (Decidable (_ ∧ _))
instance (step : InvestigationStepRow) : Decidable step.Valid :=
  inferInstanceAs (Decidable (_ ∧ (∀ duration ∈ step.durationMs, 0 ≤ duration) ∧ _))

inductive Failure
  | validation
  | notFound
  | stepsClosed (status : InvestigationStatus)
  | overBudget (stepCount maxSteps : ℤ)
  | terminal (status attempted : StepStatus)
  | notAllowed (status attempted : StepStatus)
  -- The database refused a statement or went away, or the task was cancelled.
  | database
  deriving DecidableEq

/-! ## The calls -/

inductive Call
  | appendStep (stepId : String) (maxSteps : Option ℤ)
  | startStep (stepId : String)
  | completeStep (stepId : String) (durationMs : Option ℤ) (tokenInput tokenOutput : ℤ)
      (costUsd : ℚ)
  | failStep (stepId error : String) (durationMs : Option ℤ) (tokenInput tokenOutput : ℤ)
  | skipStep (stepId : String)

/-- `INVESTIGATION_MAX_STEPS`, and how the session factory was made. -/
structure Settings where
  maxSteps : ℤ
  autoflush : Bool := false

variable (settings : Settings)

def budgetOf (maxSteps : Option ℤ) : ℤ := maxSteps.getD settings.maxSteps

def Call.validate : Call → Except Failure Unit
  | .appendStep _ maxSteps => if budgetOf settings maxSteps < 1 then .error .validation else .ok ⟨⟩
  | .completeStep _ durationMs tokenInput tokenOutput costUsd =>
    if tokenInput < 0 ∨ tokenOutput < 0 ∨ costUsd < 0 then .error .validation
    else if ∃ duration ∈ durationMs, duration < 0 then .error .validation
    else .ok ⟨⟩
  | .failStep _ error _ _ _ => if strip error = "" then .error .validation else .ok ⟨⟩
  | .startStep _ | .skipStep _ => .ok ⟨⟩

structure Values where
  durationMs : Option ℤ := none
  tokenInput : Option ℤ := none
  tokenOutput : Option ℤ := none

/-- The columns that differ from what was loaded, which are the ones in the `UPDATE`. -/
structure Columns where
  status : Option StepStatus
  durationMs : Option ℤ
  tokenInput : Option ℤ
  tokenOutput : Option ℤ
  deriving DecidableEq

def Values.changed (values : Values) (target : StepStatus) (step : InvestigationStepRow) :
    Columns where
  status := if target = step.status then none else some target
  durationMs := if values.durationMs = step.durationMs then none else values.durationMs
  tokenInput := values.tokenInput.filter (· ≠ step.tokenInput)
  tokenOutput := values.tokenOutput.filter (· ≠ step.tokenOutput)

def Columns.apply (columns : Columns) (step : InvestigationStepRow) : InvestigationStepRow :=
  { step with
    status := columns.status.getD step.status
    durationMs := columns.durationMs.or step.durationMs
    tokenInput := columns.tokenInput.getD step.tokenInput
    tokenOutput := columns.tokenOutput.getD step.tokenOutput }

inductive Write
  | insert (step : InvestigationStepRow)
  -- With the input and the output tokens that the investigation's counters grow by.
  | update (stepId : String) (columns : Columns) (usage : Option (ℤ × ℤ))
  deriving DecidableEq

variable (tenantId : String)

/-- `append_step` on the row it loaded. -/
def appendStep (row : InvestigationRow) (stepId : String) (budget : ℤ) :
    Except Failure Write :=
  if row.tenantId ≠ tenantId then .error .notFound
  else if row.status.isTerminal then .error (.stepsClosed row.status)
  else if budget ≤ row.stepCount then .error (.overBudget row.stepCount budget)
  else .ok (.insert { id := stepId, tenantId := tenantId, sequence := row.stepCount })

variable (steps : List InvestigationStepRow)

/-- `_transition_step` on the row it loaded. -/
def transitionStep (stepId : String)
    (target : StepStatus) (values : Values) (usage : Option (ℤ × ℤ)) : Except Failure Write :=
  match steps.find? fun step => step.id = stepId ∧ step.tenantId = tenantId with
  | none => .error .notFound
  | some step =>
    if step.status.isTerminal then .error (.terminal step.status target)
    else if target ∉ ALLOWED_STEP_TRANSITIONS step.status ∧ target ≠ step.status then
      .error (.notAllowed step.status target)
    else .ok (.update stepId (values.changed target step) usage)

def Call.check (row : InvestigationRow) (steps : List InvestigationStepRow) :
    Call → Except Failure Write
  | .appendStep stepId maxSteps => Steps.appendStep tenantId row stepId (budgetOf settings maxSteps)
  | .startStep stepId => transitionStep tenantId steps stepId .running {} none
  | .completeStep stepId durationMs tokenInput tokenOutput _ =>
    transitionStep tenantId steps stepId .completed ⟨durationMs, tokenInput, tokenOutput⟩
      (some (tokenInput, tokenOutput))
  | .failStep stepId _ durationMs tokenInput tokenOutput =>
    transitionStep tenantId steps stepId .failed ⟨durationMs, tokenInput, tokenOutput⟩
      (some (tokenInput, tokenOutput))
  | .skipStep stepId => transitionStep tenantId steps stepId .skipped {} none

/-! ## The database -/

/-- Whether there is an `UPDATE investigations`. -/
def Write.countsUp : Write → Bool
  | .insert _ => true
  | .update _ _ usage => usage.isSome

def Write.count (row : InvestigationRow) : Write → InvestigationRow
  | .insert _ =>
    if row.tenantId = tenantId then { row with stepCount := row.stepCount + 1 } else row
  | .update _ _ usage =>
    if row.tenantId = tenantId then
      { row with
        tokenInput := row.tokenInput + (usage.getD (0, 0)).1
        tokenOutput := row.tokenOutput + (usage.getD (0, 0)).2 }
    else row

inductive Task
  | opened (tenantId : String) (call : Call)
  -- It has loaded and checked what it writes. A flush may have left a step row, and the other
  -- `UPDATE` an investigation row, that no one else sees yet, or may touch.
  | writing (tenantId : String) (write : Write) (flushed : Option InvestigationStepRow)
      (updated : Option InvestigationRow)
  | ended (outcome : Except Failure Unit)

def Task.flushed? : Task → Option InvestigationStepRow
  | .writing _ _ flushed _ => flushed
  | _ => none

def Task.updated? : Task → Option InvestigationRow
  | .writing _ _ _ updated => updated
  | _ => none

structure State where
  row : InvestigationRow
  steps : List InvestigationStepRow
  tasks : List Task
  -- Ghost: the step budgets passed so far.
  budgets : List ℤ

/-- `create` has just committed. -/
def State.created : State := ⟨{ tenantId := tenantId }, [], [], []⟩

inductive Action
  | open (tenantId : String) (call : Call)
  -- The first statement, and what follows it.
  | load
  -- The `INSERT` or `UPDATE` of the step.
  | flush
  -- `UPDATE investigations`.
  | update
  -- The caller may not hear of a commit.
  | commit (heard : Bool)
  | abort

namespace State

variable (s : State)

def put (i : ℕ) (task : Task) : State := { s with tasks := s.tasks.set i task }

def fail (i : ℕ) (err : Failure) : State := s.put i (.ended (.error err))

def isFree : Bool := s.tasks.all fun t => t.updated?.isNone

def clashes (step other : InvestigationStepRow) : Bool :=
  other.id = step.id || other.sequence = step.sequence

/-- `INSERT` waits for a transaction that has inserted a clashing row. -/
def insertStep (i : ℕ) (tenantId : String) (step : InvestigationStepRow)
    (updated : Option InvestigationRow) : Option State :=
  if ¬step.Valid ∨ s.steps.any (clashes step) then some (s.fail i .database)
  else if s.tasks.any fun t => t.flushed?.any (clashes step) then none
  else some (s.put i (.writing tenantId (.insert step) (some step) updated))

/-- `UPDATE investigation_steps ... WHERE id = ...`, which waits for the row and looks at nothing
else. -/
def updateStep (i : ℕ) (tenantId stepId : String) (columns : Columns) (usage : Option (ℤ × ℤ))
    (updated : Option InvestigationRow) : Option State :=
  if s.tasks.any fun t => t.flushed?.any fun step => step.id = stepId then none
  else
    match s.steps.find? fun step => step.id = stepId with
    | none => some (s.fail i .database)
    | some step =>
      if (columns.apply step).Valid then
        some (s.put i
          (.writing tenantId (.update stepId columns usage) (some (columns.apply step)) updated))
      else some (s.fail i .database)

def flush (i : ℕ) (tenantId : String) (write : Write) (updated : Option InvestigationRow) :
    Option State :=
  match write with
  | .insert step => s.insertStep i tenantId step updated
  | .update stepId columns usage => s.updateStep i tenantId stepId columns usage updated

/-- `UPDATE investigations` waits for the row, and then adds to what was committed meanwhile. -/
def update (i : ℕ) (tenantId : String) (write : Write) (flushed : Option InvestigationStepRow) :
    Option State :=
  if s.isFree then
    if (write.count tenantId s.row).Valid then
      some (s.put i (.writing tenantId write flushed (some (write.count tenantId s.row))))
    else some (s.fail i .database)
  else none

def save (step : InvestigationStepRow) :
    Write → List InvestigationStepRow
  | .insert _ => steps ++ [step]
  | .update _ _ _ => steps.map fun other => if other.id = step.id then step else other

def commit (i : ℕ) (write : Write) (flushed : InvestigationStepRow)
    (updated : Option InvestigationRow) (heard : Bool) : State :=
  { s with
    row := updated.getD s.row
    steps := save s.steps flushed write
    tasks := s.tasks.set i (.ended (if heard then .ok ⟨⟩ else .error .database)) }

/-- The step of a call: with `autoflush` the step row is flushed before the investigation is
updated, without it after that. -/
def step (s : State) : ℕ × Action → Option State
  | (i, action) =>
    match action, s.tasks[i]? with
    | .open tenantId call, none =>
      if i = s.tasks.length then
        match call.validate settings, call with
        | .error err, _ => some { s with tasks := s.tasks ++ [.ended (.error err)] }
        | .ok _, .appendStep stepId maxSteps =>
          some { s with
            tasks := s.tasks ++ [.opened tenantId (.appendStep stepId maxSteps)]
            budgets := budgetOf settings maxSteps :: s.budgets }
        | .ok _, call => some { s with tasks := s.tasks ++ [.opened tenantId call] }
      else none
    | .load, some (.opened tenantId call) =>
      match call.check settings tenantId s.row s.steps with
      | .ok write => some (s.put i (.writing tenantId write none none))
      | .error err => some (s.fail i err)
    | .flush, some (.writing tenantId write none updated) =>
      if write.countsUp = true → updated.isNone = settings.autoflush then
        s.flush i tenantId write updated
      else none
    | .update, some (.writing tenantId write flushed none) =>
      if write.countsUp = true ∧ flushed.isSome = settings.autoflush then
        s.update i tenantId write flushed
      else none
    | .commit heard, some (.writing _ write (some flushed) updated) =>
      if write.countsUp = updated.isSome then some (s.commit i write flushed updated heard) else none
    | .abort, some (.ended _) => none
    | .abort, some _ => some (s.fail i .database)
    | _, _ => none

/-- `usage`: the tokens summed from the steps. -/
def usage (tenantId : String) : ℤ × ℤ :=
  let steps := s.steps.filter fun step => step.tenantId = tenantId
  ((steps.map InvestigationStepRow.tokenInput).sum, (steps.map InvestigationStepRow.tokenOutput).sum)

end State

end OmniSense.Investigations.Steps
