import OmniSense.Investigations.Freeze

/-! `InvestigationWorker` on one investigation, statement by statement beside the service's calls.
The service moves the status by compare-and-swap; a worker writes it without looking. -/

namespace OmniSense.Investigations

open Agents Library

variable {Json : Type}

/-! ## A run of the graph -/

/-- Where `astream` took the graph up, and the deltas it yielded to the end. -/
structure GraphRun where
  start : InvestigationState
  deltas : List Delta

def GraphRun.final (g : GraphRun) : InvestigationState :=
  g.deltas.foldl InvestigationState.merged g.start

def GraphRun.report (g : GraphRun) : Option Object :=
  g.deltas.foldl (fun report delta => delta.report.getD report) none

/-- The status `_execute` ends with. -/
def GraphRun.status (g : GraphRun) : InvestigationStatus :=
  if ((g.report.bind fun report => report.get "gaps").map Payload.truthy).getD false then
    .completedWithFindings
  else .completed

/-! ## The worker -/

/-- What `_claim` sets. -/
def claimValues (now : ℤ) : Values := { status := .planning, startedAt := some now }

/-- What `_finish` sets. -/
def finishValues (status : InvestigationStatus) (error : Option String) (now : ℤ) : Values where
  status := status
  completedAt := some now
  error := error.map fun text => some (String.ofList (text.toList.take 2000))

inductive Driver (Json : Type)
  | claiming
  -- `SELECT ... FOR UPDATE` has found the row queued, and holds it.
  | selected
  | marked (row : InvestigationRow Json)
  | driving
  -- `_finish` is under way, after a run of the graph or after a failure.
  | finishing (status : InvestigationStatus) (error : Option String) (ending : Option GraphRun)
  | finished (status : InvestigationStatus) (error : Option String) (ending : Option GraphRun)
      (row : InvestigationRow Json)
  | ended

def Driver.locks : Driver Json → Bool
  | selected | marked _ | finished .. => true
  | claiming | driving | finishing .. | ended => false

/-- Where an exception takes `_drive`: a first failure is written down, a second one escapes. -/
def Driver.raised (ending : Option GraphRun) (message : String) : Driver Json :=
  if ending.isSome then .finishing .failed (some message) none else .ended

inductive DriverAction
  | tick
  | select
  | mark (now : ℤ)
  | graphEnded (g : GraphRun)
  -- The graph, or `_finish`, raises.
  | raise (message : String)
  | finish (now : ℤ)
  -- The commit goes through, and may raise all the same.
  | commit (error : Option String)
  -- The worker is cancelled or crashes; an open transaction is rolled back.
  | abort

structure World (Json : Type) where
  db : State Json
  drivers : List (Driver Json)
  -- Ghost: what was committed at the end of each run of the graph.
  endings : List (GraphRun × InvestigationStatus)

inductive Event (Json : Type)
  | service (e : ℕ × Action Json)
  | worker (i : ℕ) (action : DriverAction)

namespace World

variable (w : World Json)

def put (i : ℕ) (d : Driver Json) : World Json := { w with drivers := w.drivers.set i d }

def isFree : Bool := w.db.isFree && w.drivers.all fun d => !d.locks

def commitRow (row : InvestigationRow Json) : World Json :=
  { w with
    db := { w.db with row := row, versions := w.db.versions ++ [⟨row, w.db.steps, false⟩] } }

def serviceStep (autoflush : Bool) (e : ℕ × Action Json) : Option (World Json) :=
  (w.db.step autoflush e).bind fun db =>
    if db.isFree || w.drivers.all fun d => !d.locks then some { w with db := db } else none

def workerStep (i : ℕ) : DriverAction → Option (World Json)
  | .tick =>
    if i = w.drivers.length then some { w with drivers := w.drivers ++ [.claiming] } else none
  | .select =>
    match w.drivers[i]? with
    -- A row that someone holds is skipped.
    | some .claiming =>
      some (w.put i (if w.isFree ∧ w.db.row.status = .queued then .selected else .ended))
    | _ => none
  | .mark now =>
    match w.drivers[i]? with
    | some .selected =>
      let row := (claimValues now).apply w.db.row
      some (w.put i (if row.completedAfterStarted then .marked row else .ended))
    | _ => none
  | .graphEnded g =>
    match w.drivers[i]? with
    | some .driving => some (w.put i (.finishing g.status none (some g)))
    | _ => none
  | .raise message =>
    match w.drivers[i]? with
    | some .driving => some (w.put i (.finishing .failed (some message) none))
    | some (.finishing _ _ ending) | some (.finished _ _ ending _) =>
      some (w.put i (.raised ending message))
    | _ => none
  | .finish now =>
    match w.drivers[i]? with
    | some (.finishing status error ending) =>
      let row := (finishValues status error now).apply w.db.row
      if w.isFree then
        some (w.put i (if row.completedAfterStarted then .finished status error ending row
          else .raised ending "IntegrityError"))
      else none
    | _ => none
  | .commit error =>
    match w.drivers[i]? with
    | some (.marked row) =>
      some ((w.commitRow row).put i (if error.isNone then .driving else .ended))
    | some (.finished status _ ending row) =>
      let w := { w.commitRow row with
        endings := w.endings ++ (ending.map fun g => (g, status)).toList }
      some (w.put i ((error.map (Driver.raised ending)).getD .ended))
    | _ => none
  | .abort =>
    match w.drivers[i]? with
    | some .ended | none => none
    | some _ => some (w.put i .ended)

def step (autoflush : Bool) (w : World Json) : Event Json → Option (World Json)
  | .service e => w.serviceStep autoflush e
  | .worker i action => w.workerStep i action

def created (tenantId : String) : World Json := ⟨.created tenantId, [], []⟩

end World

end OmniSense.Investigations
