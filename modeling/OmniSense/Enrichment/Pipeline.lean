import Mathlib.Data.List.Sort
import OmniSense.Indexing.Worker
import OmniSense.Library.Dict

/-! `SignalPipeline`: an ordered list of stages over one record, the stage records that a pass
leaves in the lineage, and the status that `StoreStage` commits. -/

namespace OmniSense.Enrichment.Pipeline

open Indexing (SignalStatus)
open Library

inductive StageName
  | clean | normalize | language | entities | sentiment | embedding | scoring | store
  deriving DecidableEq

inductive StageStatus
  | ok | failed | skipped
  deriving DecidableEq

def FATAL_STAGES : List StageName := [.clean, .normalize, .store]

/-! ## Lineage -/

structure StageRecord where
  name : StageName
  version : String
  model : Option String
  startedAt : ℤ
  durationMs : ℕ
  status : StageStatus
  error : Option String
  deriving DecidableEq

/-- The processing, identity and dedup fields of `Lineage`. -/
structure Lineage where
  pipelineVersion : String
  stages : List StageRecord
  status : SignalStatus
  dedupClusterId : Option String
  duplicateOf : Option String
  -- `_duplicate_consistency`, checked at construction and at every assignment.
  pointed : status = .duplicate → duplicateOf.isSome
  clustered : duplicateOf.isSome → dedupClusterId.isSome
  deriving DecidableEq

namespace Lineage

def latestStages (l : Lineage) : Dict StageName StageRecord :=
  .ofList (l.stages.map fun record => (record.name, record))

def appendStage (l : Lineage) (record : StageRecord) : Lineage :=
  { l with stages := l.stages ++ [record] }

def failedStages (l : Lineage) : List StageName :=
  (l.latestStages.items.filter fun item => item.2.status = .failed).map Prod.fst

variable {duplicateOf : Option String}

theorem raw_pointed (h : SignalStatus.raw = .duplicate) : duplicateOf.isSome := nomatch h

theorem partial_pointed
    (h : SignalStatus.partiallyEnriched = .duplicate) : duplicateOf.isSome := nomatch h

theorem enriched_pointed (h : SignalStatus.enriched = .duplicate) : duplicateOf.isSome := nomatch h

theorem none_clustered {clusterId : Option String} (h : (none : Option String).isSome) :
    clusterId.isSome := nomatch h

/-- What `build_lineage` gives a Signal that Normalize has just built. -/
def fresh (pipelineVersion : String) : Lineage where
  pipelineVersion := pipelineVersion
  stages := []
  status := .raw
  dedupClusterId := none
  duplicateOf := none
  pointed := raw_pointed
  clustered := none_clustered

theorem mem_failedStages {l : Lineage} {name : StageName} :
    name ∈ l.failedStages ↔ ∃ record, l.latestStages.get? name = some record ∧
      record.status = .failed := by
  unfold failedStages
  rw [List.mem_map]
  constructor
  · rintro ⟨⟨n, record⟩, hmem, rfl⟩
    obtain ⟨hitem, hfailed⟩ := List.mem_filter.mp hmem
    exact ⟨record, Dict.mem_items_iff.mp hitem, by simpa using hfailed⟩
  · intro ⟨record, hget, hfailed⟩
    refine ⟨(name, record), List.mem_filter.mpr ⟨Dict.mem_items_iff.mpr hget, ?_⟩, rfl⟩
    simpa using hfailed

theorem not_mem_failedStages_fresh (version : String) (name : StageName) :
    name ∉ (fresh version).failedStages := by
  simp [failedStages, latestStages, fresh, Dict.ofList, Dict.empty]

theorem mem_failedStages_append {l : Lineage} {record : StageRecord} {name : StageName} :
    name ∈ (l.appendStage record).failedStages ↔
      if name = record.name then record.status = .failed else name ∈ l.failedStages := by
  have hget : (l.appendStage record).latestStages.get? name =
      if name = record.name then some record else l.latestStages.get? name := by
    unfold latestStages appendStage
    rw [List.map_append, List.map_singleton, Dict.ofList_snoc, Dict.get?_set]
  rw [mem_failedStages, hget]
  by_cases hname : name = record.name
  · simp [hname]
  · simp only [hname, if_false]
    exact mem_failedStages.symm

end Lineage

/-- A Signal: `β` is everything that is not in these fields of its lineage. -/
structure Signal (β : Type) where
  id : String
  body : β
  lineage : Lineage

/-! ## The context, the stages and the database -/

/-- `ρ` is the raw half: the bytes, the content type, the payload, the cleaned text, the event. -/
structure EnrichmentContext (ρ β : Type) where
  raw : ρ
  signal : Option (Signal β)
  pipelineVersion : String
  skip : List StageName

structure StageOutcome where
  name : StageName
  status : StageStatus
  durationMs : ℕ
  model : Option String
  error : Option String
  deriving DecidableEq

/-- The columns of `signals` that the status goes through. -/
structure SignalRow where
  status : SignalStatus
  lineage : Lineage
  pipelineVersionOrd : ℕ
  enrichmentAttempts : ℕ

structure SignalEnrichedEvent where
  signalId : String
  status : SignalStatus
  pipelineVersion : String
  failedStages : List StageName
  deriving DecidableEq

/-- The stages a pipeline is built from, and the clock. An `Option String` is the class of the
exception that was raised, if one was. -/
structure Stages (ρ β : Type) where
  version : StageName → String
  modelId : StageName → Option String
  utcnow : StageName → ℤ
  elapsedMs : StageName → ℕ
  clean : ρ → ρ × Option String
  -- The id and the body of the Signal that the payload maps to.
  normalize : ρ → String → Except String (String × β)
  -- Stages 3 to 6b. None of them writes these fields of the lineage.
  enrich : StageName → ρ → Signal β → β × Option String
  -- What the session raises, before the commit or by it.
  session : Option String
  publish : Option String
  -- `pipeline_version_ordinal`.
  ordinal : String → ℕ

structure Pass (ρ β : Type) where
  ctx : EnrichmentContext ρ β
  outcomes : List StageOutcome
  -- The row that the upsert wrote; none where the version guard refused it.
  committed : Option SignalRow
  events : List SignalEnrichedEvent

/-! ## Store -/

/-- `_resolve_status`, written back onto the lineage. -/
def resolveStatus (l : Lineage) : Lineage :=
  if l.status ≠ .raw then l
  else if h : l.duplicateOf.isSome then
    { l with status := .duplicate, pointed := fun _ => h }
  else if l.failedStages ≠ [] then
    { l with status := .partiallyEnriched, pointed := Lineage.partial_pointed }
  else { l with status := .enriched, pointed := Lineage.enriched_pointed }

section

variable {ρ β : Type} (S : Stages ρ β) (table : String → Option SignalRow)

/-- `_upsert`: the row it writes over the one the table holds. -/
def upsert (signal : Signal β) : Option SignalRow :=
  let ordinal := S.ordinal signal.lineage.pipelineVersion
  match table signal.id with
  | none => some ⟨signal.lineage.status, signal.lineage, ordinal, 1⟩
  | some row =>
    if row.pipelineVersionOrd ≤ ordinal then
      some ⟨signal.lineage.status, signal.lineage, ordinal, row.enrichmentAttempts + 1⟩
    else none

def StoreStage.apply (pass : Pass ρ β) : Pass ρ β × Option String :=
  match pass.ctx.signal with
  | none => (pass, some "RuntimeError")
  | some old =>
    let signal := { old with lineage := resolveStatus old.lineage }
    let pass := { pass with ctx := { pass.ctx with signal := some signal } }
    match S.session with
    | some error => (pass, some error)
    | none =>
      let pass := { pass with committed := upsert S table signal }
      match S.publish with
      | some error => (pass, some error)
      | none =>
        let event := ⟨signal.id, signal.lineage.status, signal.lineage.pipelineVersion,
          signal.lineage.failedStages⟩
        ({ pass with events := pass.events ++ [event] }, none)

/-! ## The pipeline -/

/-- `stage.apply(ctx)`. -/
def applyStage (name : StageName) (pass : Pass ρ β) : Pass ρ β × Option String :=
  match name with
  | .clean =>
    let (raw, error) := S.clean pass.ctx.raw
    ({ pass with ctx := { pass.ctx with raw := raw } }, error)
  | .normalize =>
    match S.normalize pass.ctx.raw pass.ctx.pipelineVersion with
    | .error error => (pass, some error)
    | .ok (id, body) =>
      let signal := ⟨id, body, .fresh pass.ctx.pipelineVersion⟩
      ({ pass with ctx := { pass.ctx with signal := some signal } }, none)
  | .store => StoreStage.apply S table pass
  | .language | .entities | .sentiment | .embedding | .scoring =>
    match pass.ctx.signal with
    | none => (pass, some "RuntimeError")
    | some signal =>
      let (body, error) := S.enrich name pass.ctx.raw signal
      ({ pass with ctx := { pass.ctx with signal := some { signal with body := body } } }, error)

/-- The record `_record` appends for an outcome. -/
def StageOutcome.record (outcome : StageOutcome) : StageRecord :=
  ⟨outcome.name, S.version outcome.name, outcome.model, S.utcnow outcome.name, outcome.durationMs,
    outcome.status, outcome.error⟩

/-- `outcomes.append`, and `_record`. -/
def Pass.note (outcome : StageOutcome) (pass : Pass ρ β) : Pass ρ β :=
  { pass with
    outcomes := pass.outcomes ++ [outcome]
    ctx := { pass.ctx with
      signal := pass.ctx.signal.map fun signal =>
        { signal with lineage := signal.lineage.appendStage (outcome.record S) } } }

def runStage (name : StageName) (pass : Pass ρ β) : Pass ρ β × Option String :=
  if name ∈ pass.ctx.skip then (pass.note S ⟨name, .skipped, 0, S.modelId name, none⟩, none)
  else
    let (applied, raised) := applyStage S table name pass
    match raised with
    | some error =>
      (applied.note S ⟨name, .failed, S.elapsedMs name, S.modelId name, some error⟩,
        if name ∈ FATAL_STAGES then some error else none)
    | none => (applied.note S ⟨name, .ok, S.elapsedMs name, S.modelId name, none⟩, none)

def runStages : List StageName → Pass ρ β → Pass ρ β × Option (StageName × String)
  | [], pass => (pass, none)
  | name :: rest, pass =>
    match runStage S table name pass with
    | (pass, some error) => (pass, some (name, error))
    | (pass, none) => runStages rest pass

end

def canonical : List StageName :=
  [.clean, .normalize, .language, .entities, .sentiment, .embedding, .scoring, .store]

def rank (name : StageName) : ℕ := canonical.idxOf name

inductive OrderFault
  | duplicates (seen : List StageName)
  | outOfOrder (seen : List StageName)
  | noNormalize (dependent : List StageName)
  deriving DecidableEq

def requireNormalize (seen : List StageName) : Option OrderFault :=
  if .normalize ∈ seen ∨ .clean ∉ seen then none
  else
    let dependent := seen.filter fun name => rank .normalize < rank name
    if dependent = [] then none else some (.noNormalize dependent)

/-- `_validate_order`; every `StageName` has a rank. -/
def validateOrder (seen : List StageName) : Option OrderFault :=
  if ¬seen.Nodup then some (.duplicates seen)
  else if seen.map rank ≠ (seen.map rank).insertionSort (· ≤ ·) then some (.outOfOrder seen)
  else requireNormalize seen

structure SignalPipeline where
  stages : List StageName
  pipelineVersion : String
  valid : validateOrder stages = none

structure PipelineResult (β : Type) where
  signal : Option (Signal β)
  status : SignalStatus
  outcomes : List StageOutcome
  fatalStage : Option StageName
  error : Option String

def finalStatus (outcomes : List StageOutcome) : SignalStatus :=
  if outcomes.any fun o => o.status = .failed then .partiallyEnriched else .enriched

namespace SignalPipeline

variable {ρ β : Type} (p : SignalPipeline) (S : Stages ρ β) (table : String → Option SignalRow)
  (ctx : EnrichmentContext ρ β)

def start : Pass ρ β :=
  { ctx := { ctx with pipelineVersion := p.pipelineVersion }
    outcomes := []
    committed := none
    events := [] }

/-- What `run` does: the context it leaves, the row it commits and the events it publishes. -/
def pass : Pass ρ β := (runStages S table p.stages (p.start ctx)).1

/-- What `run` returns. -/
def run : PipelineResult β :=
  match runStages S table p.stages (p.start ctx) with
  | (pass, some (name, error)) =>
    ⟨pass.ctx.signal, .quarantined, pass.outcomes, some name, some error⟩
  | (pass, none) => ⟨pass.ctx.signal, finalStatus pass.outcomes, pass.outcomes, none, none⟩

end SignalPipeline

/-! ## What one stage does to a pass -/

section

variable {ρ β : Type} {S : Stages ρ β} {table : String → Option SignalRow} {name : StageName}
  {pass : Pass ρ β}

theorem runStage_eq (S : Stages ρ β) (table : String → Option SignalRow) (name : StageName)
    (pass : Pass ρ β) :
    ∃ outcome, outcome.name = name ∧
      (name ∈ pass.ctx.skip ∧ outcome.status = .skipped ∧
          runStage S table name pass = (pass.note S outcome, none) ∨
        name ∉ pass.ctx.skip ∧ outcome.status = .ok ∧ (applyStage S table name pass).2 = none ∧
          runStage S table name pass = ((applyStage S table name pass).1.note S outcome, none) ∨
        name ∉ pass.ctx.skip ∧ outcome.status = .failed ∧
          (runStage S table name pass).1 = (applyStage S table name pass).1.note S outcome ∧
          ((runStage S table name pass).2 = none → name ∉ FATAL_STAGES)) := by
  by_cases hskip : name ∈ pass.ctx.skip
  · refine ⟨⟨name, .skipped, 0, S.modelId name, none⟩, rfl, Or.inl ⟨hskip, rfl, ?_⟩⟩
    rw [runStage, if_pos hskip]
  · cases hraised : (applyStage S table name pass).2 with
    | none =>
      refine ⟨⟨name, .ok, S.elapsedMs name, S.modelId name, none⟩, rfl,
        Or.inr (Or.inl ⟨hskip, rfl, rfl, ?_⟩)⟩
      rw [runStage, if_neg hskip]
      simp only [hraised]
    | some error =>
      refine ⟨⟨name, .failed, S.elapsedMs name, S.modelId name, some error⟩, rfl,
        Or.inr (Or.inr ⟨hskip, rfl, ?_, ?_⟩)⟩
      · rw [runStage, if_neg hskip]
        simp only [hraised]
      · rw [runStage, if_neg hskip]
        simp only [hraised]
        intro hnone hfatal
        rw [if_pos hfatal] at hnone
        cases hnone

variable (S table pass) in
theorem applyStage_frame (hname : name ≠ .store) :
    (applyStage S table name pass).1.outcomes = pass.outcomes ∧
      (applyStage S table name pass).1.committed = pass.committed ∧
      (applyStage S table name pass).1.ctx.skip = pass.ctx.skip ∧
      (applyStage S table name pass).1.ctx.pipelineVersion = pass.ctx.pipelineVersion := by
  cases name with
  | store => exact absurd rfl hname
  | clean => exact ⟨rfl, rfl, rfl, rfl⟩
  | normalize =>
    unfold applyStage
    cases S.normalize pass.ctx.raw pass.ctx.pipelineVersion <;> exact ⟨rfl, rfl, rfl, rfl⟩
  | language | entities | sentiment | embedding | scoring =>
    unfold applyStage
    cases pass.ctx.signal <;> exact ⟨rfl, rfl, rfl, rfl⟩

theorem applyStage_lineage (hname : name ≠ .store) (hnormalize : name ≠ .normalize) :
    (applyStage S table name pass).1.ctx.signal.map Signal.lineage =
      pass.ctx.signal.map Signal.lineage := by
  cases name with
  | store => exact absurd rfl hname
  | normalize => exact absurd rfl hnormalize
  | clean => rfl
  | language | entities | sentiment | embedding | scoring =>
    unfold applyStage
    cases hsignal : pass.ctx.signal <;> simp [hsignal]

theorem normalize_lineage (hraised : (applyStage S table .normalize pass).2 = none) :
    (applyStage S table .normalize pass).1.ctx.signal.map Signal.lineage =
      some (.fresh pass.ctx.pipelineVersion) := by
  unfold applyStage at hraised ⊢
  cases hbuilt : S.normalize pass.ctx.raw pass.ctx.pipelineVersion with
  | error error =>
    rw [hbuilt] at hraised
    cases hraised
  | ok built => rfl

theorem note_lineage (outcome : StageOutcome) :
    (pass.note S outcome).ctx.signal.map Signal.lineage =
      (pass.ctx.signal.map Signal.lineage).map (·.appendStage (outcome.record S)) := by
  unfold Pass.note
  cases pass.ctx.signal <;> rfl

theorem runStage_outcomes (hname : name ≠ .store) (hnone : (runStage S table name pass).2 = none) :
    ∃ outcome, outcome.name = name ∧ (name ∈ FATAL_STAGES → outcome.status ≠ .failed) ∧
      (runStage S table name pass).1.outcomes = pass.outcomes ++ [outcome] ∧
      (runStage S table name pass).1.committed = pass.committed ∧
      (runStage S table name pass).1.ctx.skip = pass.ctx.skip ∧
      (runStage S table name pass).1.ctx.pipelineVersion = pass.ctx.pipelineVersion := by
  obtain ⟨houtcomes, hcommitted, hskipped, hversion⟩ :=
    applyStage_frame S table pass hname
  obtain ⟨outcome, houtcome, hcase⟩ := runStage_eq S table name pass
  rcases hcase with ⟨-, hstatus, hrun⟩ | ⟨-, hstatus, -, hrun⟩ | ⟨-, -, hrun, hfatal⟩
  · refine ⟨outcome, houtcome, ?_, ?_⟩
    · simp [hstatus]
    · rw [hrun]
      exact ⟨rfl, rfl, rfl, rfl⟩
  · refine ⟨outcome, houtcome, ?_, ?_⟩
    · simp [hstatus]
    · rw [hrun]
      exact ⟨congrArg (· ++ [outcome]) houtcomes, hcommitted, hskipped, hversion⟩
  · refine ⟨outcome, houtcome, fun h => absurd h (hfatal hnone), ?_⟩
    rw [hrun]
    exact ⟨congrArg (· ++ [outcome]) houtcomes, hcommitted, hskipped, hversion⟩

end

/-! ## The stage records of a pass over those of earlier passes -/

/-- `l` is the lineage `base`, with a record of each of these outcomes after its own. -/
structure Tracks (base : Lineage) (outcomes : List StageOutcome) (l : Lineage) : Prop where
  status : l.status = base.status
  duplicateOf : l.duplicateOf = base.duplicateOf
  failed : ∀ name, name ∈ l.failedStages ↔
    (∃ o ∈ outcomes, o.name = name ∧ o.status = .failed) ∨
      name ∉ outcomes.map StageOutcome.name ∧ name ∈ base.failedStages

theorem Tracks.refl (l : Lineage) : Tracks l [] l :=
  ⟨rfl, rfl, fun name => by simp⟩

variable {outcomes : List StageOutcome}

theorem Tracks.fresh (version : String) (hok : ∀ o ∈ outcomes, o.status ≠ .failed) :
    Tracks (.fresh version) outcomes (.fresh version) := by
  refine ⟨rfl, rfl, fun name => ?_⟩
  constructor
  · intro h
    exact absurd h (Lineage.not_mem_failedStages_fresh version name)
  · rintro (⟨o, ho, -, hfailed⟩ | ⟨-, h⟩)
    · exact absurd hfailed (hok o ho)
    · exact h

theorem Tracks.append {base l : Lineage} {o : StageOutcome}
    {record : StageRecord} (h : Tracks base outcomes l)
    (hnew : o.name ∉ outcomes.map StageOutcome.name) (hname : record.name = o.name)
    (hstatus : record.status = o.status) :
    Tracks base (outcomes ++ [o]) (l.appendStage record) := by
  refine ⟨h.status, h.duplicateOf, fun name => ?_⟩
  rw [Lineage.mem_failedStages_append, hname, hstatus, List.map_append, List.map_singleton]
  by_cases hn : name = o.name
  · subst hn
    rw [if_pos rfl]
    constructor
    · intro hfailed
      exact Or.inl ⟨o, by simp, rfl, hfailed⟩
    · rintro (⟨o', hmem, ho', hfailed⟩ | ⟨hnot, -⟩)
      · rcases List.mem_append.mp hmem with hold | hlast
        · exact absurd (List.mem_map.mpr ⟨o', hold, ho'⟩) hnew
        · rw [List.mem_singleton] at hlast
          exact hlast ▸ hfailed
      · exact absurd (by simp) hnot
  · rw [if_neg hn, h.failed name]
    have hexists : (∃ o' ∈ outcomes ++ [o], o'.name = name ∧ o'.status = .failed) ↔
        ∃ o' ∈ outcomes, o'.name = name ∧ o'.status = .failed := by
      constructor
      · intro ⟨o', hmem, ho', hfailed⟩
        rcases List.mem_append.mp hmem with hold | hlast
        · exact ⟨o', hold, ho', hfailed⟩
        · rw [List.mem_singleton] at hlast
          exact absurd (hlast ▸ ho').symm hn
      · intro ⟨o', hold, ho', hfailed⟩
        exact ⟨o', List.mem_append_left _ hold, ho', hfailed⟩
    have hnames : name ∉ outcomes.map StageOutcome.name ++ [o.name] ↔
        name ∉ outcomes.map StageOutcome.name := by
      simp [hn]
    rw [hexists, hnames]

/-- The Signal of a pass, if it has one, has grown out of `base`. -/
def Follows {ρ β : Type} (base : Option Lineage) (pass : Pass ρ β) : Prop :=
  ∀ l ∈ pass.ctx.signal.map Signal.lineage, ∃ b ∈ base, Tracks b pass.outcomes l

section

variable {ρ β : Type} {S : Stages ρ β} {table : String → Option SignalRow} {name : StageName}
  {pass applied : Pass ρ β} {base : Option Lineage}

theorem Follows.note {outcome : StageOutcome} (h : Follows base applied)
    (hnew : outcome.name ∉ applied.outcomes.map StageOutcome.name) :
    Follows base (applied.note S outcome) := by
  intro l hl
  rw [note_lineage, Option.mem_map] at hl
  obtain ⟨old, hold, rfl⟩ := hl
  obtain ⟨b, hb, htracks⟩ := h old hold
  exact ⟨b, hb, htracks.append hnew rfl rfl⟩

theorem Follows.runStage (h : Follows base pass) (hname : name ≠ .store)
    (hnormalize : name = .normalize → name ∈ pass.ctx.skip)
    (hnew : name ∉ pass.outcomes.map StageOutcome.name) :
    Follows base (runStage S table name pass).1 := by
  obtain ⟨outcome, houtcome, hcase⟩ := runStage_eq S table name pass
  have hkept : name ∉ pass.ctx.skip → Follows base (applyStage S table name pass).1 := by
    intro hskip l hl
    rw [applyStage_lineage hname (mt hnormalize hskip)] at hl
    rw [(applyStage_frame S table pass hname).1]
    exact h l hl
  have hnew' : outcome.name ∉
      (applyStage S table name pass).1.outcomes.map StageOutcome.name := by
    rw [(applyStage_frame S table pass hname).1, houtcome]
    exact hnew
  rcases hcase with ⟨-, -, hrun⟩ | ⟨hskip, -, -, hrun⟩ | ⟨hskip, -, hrun, -⟩
  · rw [hrun]
    exact h.note (houtcome ▸ hnew)
  · rw [hrun]
    exact (hkept hskip).note hnew'
  · rw [hrun]
    exact (hkept hskip).note hnew'

theorem Follows.normalize (hskip : .normalize ∉ pass.ctx.skip)
    (hok : ∀ o ∈ pass.outcomes, o.status ≠ .failed)
    (hnew : .normalize ∉ pass.outcomes.map StageOutcome.name)
    (hnone : (Pipeline.runStage S table .normalize pass).2 = none) :
    Follows (some (.fresh pass.ctx.pipelineVersion))
      (Pipeline.runStage S table .normalize pass).1 := by
  obtain ⟨outcome, houtcome, hcase⟩ := runStage_eq S table .normalize pass
  have hframe := applyStage_frame S table pass (by decide : StageName.normalize ≠ .store)
  rcases hcase with ⟨hin, -⟩ | ⟨-, -, hraised, hrun⟩ | ⟨-, -, -, hfatal⟩
  · exact absurd hin hskip
  · rw [hrun]
    apply Follows.note
    · intro l hl
      rw [normalize_lineage hraised] at hl
      rw [Option.mem_some_iff] at hl
      subst hl
      rw [hframe.1]
      exact ⟨_, rfl, Tracks.fresh _ hok⟩
    · rw [hframe.1, houtcome]
      exact hnew
  · exact absurd (by decide) (hfatal hnone)

/-! ## The loop -/

variable {out : Pass ρ β}

theorem runStages_cons {rest : List StageName} :
    runStages S table (name :: rest) pass = (out, none) ↔
      (Pipeline.runStage S table name pass).2 = none ∧
        runStages S table rest (Pipeline.runStage S table name pass).1 = (out, none) := by
  rw [runStages]
  rcases Pipeline.runStage S table name pass with ⟨next, _ | error⟩ <;> simp

theorem runStages_append {xs ys : List StageName} :
    runStages S table (xs ++ ys) pass = (out, none) ↔
      ∃ mid, runStages S table xs pass = (mid, none) ∧ runStages S table ys mid = (out, none) := by
  induction xs generalizing pass with
  | nil => simp [runStages]
  | cons x xs ih =>
    rw [List.cons_append, runStages_cons]
    simp only [runStages_cons, ih]
    constructor
    · intro ⟨hnone, mid, hmid, hout⟩
      exact ⟨mid, ⟨hnone, hmid⟩, hout⟩
    · intro ⟨mid, ⟨hnone, hmid⟩, hout⟩
      exact ⟨hnone, mid, hmid, hout⟩

theorem runStages_outcomes {names : List StageName}
    (hrun : runStages S table names pass = (out, none)) (hstore : .store ∉ names) :
    out.outcomes.map StageOutcome.name = pass.outcomes.map StageOutcome.name ++ names ∧
      (∀ o ∈ out.outcomes, o ∈ pass.outcomes ∨ (o.name ∈ FATAL_STAGES → o.status ≠ .failed)) ∧
      out.committed = pass.committed ∧ out.ctx.skip = pass.ctx.skip ∧
      out.ctx.pipelineVersion = pass.ctx.pipelineVersion := by
  induction names generalizing pass with
  | nil =>
    have hout : pass = out := congrArg Prod.fst hrun
    subst hout
    exact ⟨by simp, fun o ho => Or.inl ho, rfl, rfl, rfl⟩
  | cons name rest ih =>
    obtain ⟨hnone, hrest⟩ := runStages_cons.mp hrun
    obtain ⟨hname, hstore⟩ := not_or.mp (mt List.mem_cons.mpr hstore)
    obtain ⟨outcome, houtcome, hfatal, houtcomes, hcommitted, hskip, hversion⟩ :=
      runStage_outcomes (Ne.symm hname) hnone
    obtain ⟨hnames, hstatuses, hcommitted', hskip', hversion'⟩ := ih hrest hstore
    refine ⟨?_, ?_, hcommitted'.trans hcommitted, hskip'.trans hskip, hversion'.trans hversion⟩
    · rw [hnames, houtcomes]
      simp [houtcome]
    · intro o ho
      rcases hstatuses o ho with hold | hnew
      · rw [houtcomes] at hold
        rcases List.mem_append.mp hold with hold | hlast
        · exact Or.inl hold
        · rw [List.mem_singleton] at hlast
          rw [hlast, houtcome]
          exact Or.inr hfatal
      · exact Or.inr hnew

theorem Follows.runStages {names : List StageName}
    (hrun : runStages S table names pass = (out, none)) (h : Follows base pass)
    (hstore : .store ∉ names) (hnormalize : .normalize ∈ names → .normalize ∈ pass.ctx.skip)
    (hnodup : (pass.outcomes.map StageOutcome.name ++ names).Nodup) : Follows base out := by
  induction names generalizing pass with
  | nil =>
    have hout : pass = out := congrArg Prod.fst hrun
    exact hout ▸ h
  | cons name rest ih =>
    obtain ⟨hnone, hrest⟩ := runStages_cons.mp hrun
    obtain ⟨hname, hstore⟩ := not_or.mp (mt List.mem_cons.mpr hstore)
    obtain ⟨outcome, houtcome, -, houtcomes, -, hskip, -⟩ :=
      runStage_outcomes (Ne.symm hname) hnone
    have hnew : name ∉ pass.outcomes.map StageOutcome.name := by
      intro hin
      exact (List.nodup_append.mp hnodup).2.2 name hin name (List.mem_cons_self ..) rfl
    apply ih hrest
    · apply h.runStage (Ne.symm hname) _ hnew
      intro heq
      exact heq ▸ hnormalize (heq ▸ List.mem_cons_self ..)
    · exact hstore
    · intro hin
      rw [hskip]
      exact hnormalize (List.mem_cons_of_mem _ hin)
    · rw [houtcomes, List.map_append, List.map_singleton, houtcome, List.append_assoc]
      exact hnodup

end

/-! ## The status -/

/-- The status Store settles on for a lineage whatever this pass did, given the stages that run
before it. -/
def Lineage.settled (l : Lineage) (ran : List StageName) : Option SignalStatus :=
  if l.status ≠ .raw then some l.status
  else if l.duplicateOf.isSome then some .duplicate
  else if ∃ name ∈ l.failedStages, name ∉ ran then some .partiallyEnriched
  else none

theorem Lineage.settled_fresh (version : String) (ran : List StageName) :
    (Lineage.fresh version).settled ran = none := by
  have hnone : ¬∃ name ∈ (Lineage.fresh version).failedStages, name ∉ ran :=
    fun ⟨name, hname, _⟩ => not_mem_failedStages_fresh version name hname
  unfold settled
  rw [if_neg hnone]
  rfl

theorem finalStatus_eq : finalStatus outcomes =
      if ∃ o ∈ outcomes, o.status = .failed then .partiallyEnriched else .enriched := by
  simp [finalStatus]

theorem finalStatus_ok {o : StageOutcome} (h : o.status = .ok) :
    finalStatus (outcomes ++ [o]) = finalStatus outcomes := by
  simp [finalStatus, h]

theorem resolveStatus_status (l : Lineage) :
    (resolveStatus l).status =
      if l.status ≠ .raw then l.status
      else if l.duplicateOf.isSome then .duplicate
      else if l.failedStages ≠ [] then .partiallyEnriched
      else .enriched := by
  unfold resolveStatus
  split_ifs <;> rfl

theorem Tracks.resolved {base l : Lineage} (h : Tracks base outcomes l) : (resolveStatus l).status =
      (base.settled (outcomes.map StageOutcome.name)).getD (finalStatus outcomes) := by
  have hfailures : l.failedStages ≠ [] ↔
      (∃ o ∈ outcomes, o.status = .failed) ∨
        ∃ name ∈ base.failedStages, name ∉ outcomes.map StageOutcome.name := by
    rw [Ne, List.eq_nil_iff_forall_not_mem, not_forall]
    constructor
    · intro ⟨name, hname⟩
      rcases (h.failed name).mp (not_not.mp hname) with ⟨o, ho, -, hfailed⟩ | ⟨hnot, hstale⟩
      · exact Or.inl ⟨o, ho, hfailed⟩
      · exact Or.inr ⟨name, hstale, hnot⟩
    · rintro (⟨o, ho, hfailed⟩ | ⟨name, hstale, hnot⟩)
      · exact ⟨o.name, not_not.mpr ((h.failed o.name).mpr (Or.inl ⟨o, ho, rfl, hfailed⟩))⟩
      · exact ⟨name, not_not.mpr ((h.failed name).mpr (Or.inr ⟨hnot, hstale⟩))⟩
  rw [resolveStatus_status, h.status, h.duplicateOf, finalStatus_eq]
  unfold Lineage.settled
  by_cases hraw : base.status ≠ .raw
  · rw [if_pos hraw, if_pos hraw]
    rfl
  rw [if_neg hraw, if_neg hraw]
  by_cases hduplicate : base.duplicateOf.isSome
  · rw [if_pos hduplicate, if_pos hduplicate]
    rfl
  rw [if_neg hduplicate, if_neg hduplicate]
  by_cases hstale : ∃ name ∈ base.failedStages, name ∉ outcomes.map StageOutcome.name
  · rw [if_pos hstale, if_pos (hfailures.mpr (Or.inr hstale))]
    rfl
  · rw [if_neg hstale]
    by_cases hfailed : ∃ o ∈ outcomes, o.status = .failed
    · rw [if_pos (hfailures.mpr (Or.inl hfailed)), if_pos hfailed]
      rfl
    · rw [if_neg (mt hfailures.mp (not_or.mpr ⟨hfailed, hstale⟩)), if_neg hfailed]
      rfl

theorem before_normalize {seen before after : List StageName} (hvalid : validateOrder seen = none)
    (hsplit : seen = before ++ .normalize :: after) : ∀ name ∈ before, name = .clean := by
  unfold validateOrder at hvalid
  split_ifs at hvalid with hnodup hsorted
  rw [not_not] at hsorted
  have hpairwise : (seen.map rank).Pairwise (· ≤ ·) := by
    rw [hsorted]
    exact List.pairwise_insertionSort _ _
  intro name hname
  have hle : rank name ≤ rank .normalize := by
    rw [hsplit, List.map_append, List.map_cons, List.pairwise_append] at hpairwise
    exact hpairwise.2.2 _ (List.mem_map_of_mem hname) _ (List.mem_cons_self ..)
  have hne : name ≠ .normalize := by
    rw [hsplit, List.nodup_append] at hnodup
    exact hnodup.2.2 name hname _ (List.mem_cons_self ..)
  cases name with
  | clean => rfl
  | normalize => exact absurd rfl hne
  | language | entities | sentiment | embedding | scoring | store => exact absurd hle (by decide)

theorem validateOrder_nodup {seen : List StageName} (hvalid : validateOrder seen = none) :
    seen.Nodup := by
  unfold validateOrder at hvalid
  split_ifs at hvalid with hnodup
  exact hnodup

section

variable {ρ β : Type} {S : Stages ρ β} {table : String → Option SignalRow}
  {ctx : EnrichmentContext ρ β}

theorem StoreStage.apply_committed {pass : Pass ρ β} {row : SignalRow}
    (hraised : (StoreStage.apply S table pass).2 = none)
    (hrow : (StoreStage.apply S table pass).1.committed = some row) :
    (StoreStage.apply S table pass).1.outcomes = pass.outcomes ∧
      ∃ l ∈ pass.ctx.signal.map Signal.lineage, row.status = (resolveStatus l).status := by
  unfold StoreStage.apply at hraised hrow ⊢
  cases hsignal : pass.ctx.signal with
  | none => simp [hsignal] at hraised
  | some old =>
    cases hsession : S.session with
    | some error => simp [hsignal, hsession] at hraised
    | none =>
      cases hpublish : S.publish with
      | some error => simp [hsignal, hsession, hpublish] at hraised
      | none =>
        refine ⟨rfl, old.lineage, rfl, ?_⟩
        simp only [hsignal, hsession, hpublish] at hrow
        unfold upsert at hrow
        cases htable : table old.id with
        | none =>
          simp only [htable, Option.some.injEq] at hrow
          rw [← hrow]
        | some held =>
          simp only [htable] at hrow
          split_ifs at hrow
          rw [Option.some.injEq] at hrow
          rw [← hrow]

namespace SignalPipeline

variable {p : SignalPipeline}

/-- The status that is settled whatever this pass does: none for a record that Normalize turns
into a new Signal. -/
def settled (p : SignalPipeline) (ctx : EnrichmentContext ρ β) : Option SignalStatus :=
  if .normalize ∈ p.stages ∧ .normalize ∉ ctx.skip then none
  else ctx.signal.bind fun signal => signal.lineage.settled p.stages.dropLast

theorem follows_base {mid : Pass ρ β} (hend : p.stages = p.stages.dropLast ++ [.store])
    (hrun : runStages S table p.stages.dropLast (p.start ctx) = (mid, none)) :
    ∃ base, Follows base mid ∧
      (base.bind fun l => l.settled p.stages.dropLast) = p.settled ctx := by
  have hnodup := validateOrder_nodup p.valid
  rw [hend] at hnodup
  obtain ⟨hinit, -, hdisjoint⟩ := List.nodup_append.mp hnodup
  have hstore : .store ∉ p.stages.dropLast := by
    intro hin
    exact hdisjoint _ hin _ (List.mem_singleton_self _) rfl
  have hmem : .normalize ∈ p.stages ↔ .normalize ∈ p.stages.dropLast := by
    conv_lhs => rw [hend]
    simp
  unfold settled
  by_cases hruns : .normalize ∈ p.stages ∧ .normalize ∉ ctx.skip
  · rw [if_pos hruns]
    obtain ⟨before, after, hsplit⟩ := List.append_of_mem (hmem.mp hruns.1)
    have hclean : ∀ name ∈ before, name = .clean := by
      apply before_normalize p.valid
      rw [hend, hsplit, List.append_assoc, List.cons_append]
    rw [hsplit] at hrun hinit hstore
    obtain ⟨p₁, hbefore, hrest⟩ := runStages_append.mp hrun
    obtain ⟨hnone, hafter⟩ := runStages_cons.mp hrest
    have hstore₁ : .store ∉ before := fun h => hstore (List.mem_append_left _ h)
    obtain ⟨hnames, hstatuses, -, hskip, -⟩ := runStages_outcomes hbefore hstore₁
    have hnames₁ : p₁.outcomes.map StageOutcome.name = before := by simpa [start] using hnames
    have hnew : .normalize ∉ p₁.outcomes.map StageOutcome.name := by
      rw [hnames₁]
      intro hin
      cases hclean _ hin
    have hok : ∀ o ∈ p₁.outcomes, o.status ≠ .failed := by
      intro o ho
      have hname : o.name = .clean := by
        apply hclean
        rw [← hnames₁]
        exact List.mem_map_of_mem ho
      rcases hstatuses o ho with hold | hfatal
      · cases hold
      · exact hfatal (hname ▸ by decide)
    have hskip₁ : .normalize ∉ p₁.ctx.skip := by
      rw [hskip]
      exact hruns.2
    have hfollows := Follows.normalize hskip₁ hok hnew hnone
    obtain ⟨outcome, houtcome, -, houtcomes, -, -, -⟩ :=
      runStage_outcomes (by decide) hnone
    refine ⟨_, hfollows.runStages hafter ?_ ?_ ?_, ?_⟩
    · exact fun h => hstore (List.mem_append_right _ (List.mem_cons_of_mem _ h))
    · intro hin
      exact absurd hin (List.nodup_cons.mp (List.nodup_append.mp hinit).2.1).1
    · rw [houtcomes, List.map_append, List.map_singleton, houtcome, hnames₁, List.append_assoc]
      exact hinit
    · exact Lineage.settled_fresh _ _
  · rw [if_neg hruns]
    refine ⟨ctx.signal.map Signal.lineage, ?_, ?_⟩
    · apply Follows.runStages hrun _ hstore
      · intro hin
        exact not_not.mp fun h => hruns ⟨hmem.mpr hin, h⟩
      · exact hinit
      · intro l hl
        exact ⟨l, hl, Tracks.refl l⟩
    · cases ctx.signal <;> rfl

/-- The committed status is the reported one, unless it was settled before the pass. -/
theorem committed_status (hend : p.stages.getLast? = some .store)
    (hfatal : (p.run S table ctx).fatalStage = none) {row : SignalRow}
    (hrow : (p.pass S table ctx).committed = some row) :
    row.status = (p.settled ctx).getD (p.run S table ctx).status := by
  have hstages : p.stages = p.stages.dropLast ++ [.store] := by
    obtain ⟨init, hinit⟩ := List.getLast?_eq_some_iff.mp hend
    rw [hinit, List.dropLast_concat]
  obtain ⟨out, hout⟩ : ∃ out, runStages S table p.stages (p.start ctx) = (out, none) := by
    unfold run at hfatal
    rcases hruns : runStages S table p.stages (p.start ctx) with ⟨out, _ | fault⟩
    · exact ⟨out, rfl⟩
    · rw [hruns] at hfatal
      cases hfatal
  have hreported : (p.run S table ctx).status = finalStatus out.outcomes := by
    unfold run
    rw [hout]
  have hcommitted : out.committed = some row := by
    unfold pass at hrow
    rwa [hout] at hrow
  rw [hstages] at hout
  obtain ⟨mid, hmid, hlast⟩ := runStages_append.mp hout
  obtain ⟨hnone, hnil⟩ := runStages_cons.mp hlast
  have hstored : (runStage S table .store mid).1 = out := congrArg Prod.fst hnil
  have hstore : .store ∉ p.stages.dropLast := by
    have hnodup := validateOrder_nodup p.valid
    rw [hstages] at hnodup
    intro hin
    exact (List.nodup_append.mp hnodup).2.2 _ hin _ (List.mem_singleton_self _) rfl
  obtain ⟨hnames, -, hbefore, -, -⟩ := runStages_outcomes hmid hstore
  have hnames' : mid.outcomes.map StageOutcome.name = p.stages.dropLast := by
    simpa [start] using hnames
  obtain ⟨base, hfollows, hbase⟩ := follows_base hstages hmid
  obtain ⟨outcome, -, hcase⟩ := runStage_eq S table .store mid
  rcases hcase with ⟨-, -, hrun⟩ | ⟨-, hstatus, hraised, hrun⟩ | ⟨-, -, -, hnonfatal⟩
  · -- A Store that is skipped commits nothing.
    rw [← hstored, hrun] at hcommitted
    exact absurd (hbefore.symm.trans hcommitted) (by simp [start])
  · rw [← hstored, hrun] at hcommitted
    obtain ⟨houtcomes, l, hl, hrowStatus⟩ := StoreStage.apply_committed hraised hcommitted
    obtain ⟨b, hb, htracks⟩ := hfollows l hl
    have hfinal : finalStatus out.outcomes = finalStatus mid.outcomes := by
      rw [← hstored, hrun]
      change finalStatus ((StoreStage.apply S table mid).1.outcomes ++ [outcome]) = _
      rw [houtcomes, finalStatus_ok hstatus]
    rw [hrowStatus, htracks.resolved, hnames', hreported, hfinal, ← hbase, Option.mem_def.mp hb]
    rfl
  · exact absurd (by decide) (hnonfatal hnone)

end SignalPipeline

end

/-! ## Runs -/

theorem canonical_valid : validateOrder canonical = none := by decide

theorem sweep_valid : validateOrder [.sentiment, .scoring, .store] = none := by decide

/-- The eight stages of `build_pipeline`. -/
def assembly : SignalPipeline := ⟨canonical, "1.0.0", canonical_valid⟩

def sweep : SignalPipeline := ⟨[.sentiment, .scoring, .store], "1.0.0", sweep_valid⟩

/-- Every stage succeeds, except those that are `down`. -/
def scripted (down : List StageName) : Stages Unit Unit where
  version := fun _ => "1.0.0"
  modelId := fun _ => none
  utcnow := fun _ => 0
  elapsedMs := fun _ => 1
  clean := fun _ => ((), none)
  normalize := fun _ _ => .ok ("sig_1", ())
  enrich := fun name _ _ => ((), if name ∈ down then some "TimeoutError" else none)
  session := none
  publish := none
  ordinal := fun _ => 1000000

/-- The Signal of a `partial` row: its sentiment stage had failed. -/
def partialSignal : Signal Unit where
  id := "sig_1"
  body := ()
  lineage :=
    { Lineage.fresh "1.0.0" with
      stages := [⟨.sentiment, "1.0.0", none, 0, 1, .failed, some "TimeoutError"⟩]
      status := .partiallyEnriched
      pointed := Lineage.partial_pointed }

/-- A fresh record whose sentiment stage fails. -/
theorem committed_status_fresh :
    ∃ row, (assembly.pass (scripted [.sentiment]) (fun _ => none)
        ⟨(), none, "1.0.0", []⟩).committed = some row ∧ row.status = .partiallyEnriched := by
  obtain ⟨row, hrow⟩ : ∃ row, (assembly.pass (scripted [.sentiment]) (fun _ => none)
      ⟨(), none, "1.0.0", []⟩).committed = some row := Option.isSome_iff_exists.mp (by decide)
  refine ⟨row, hrow, ?_⟩
  rw [SignalPipeline.committed_status (by decide) (by decide) hrow]
  decide

/-- The sentiment stage of a `partial` Signal now succeeds: the pass reports `enriched`, and the
row stays `partial`. -/
theorem redriven_partial :
    ¬∀ (p : SignalPipeline) (S : Stages Unit Unit) (table : String → Option SignalRow)
      (ctx : EnrichmentContext Unit Unit) (row : SignalRow),
      p.stages.getLast? = some .store → (p.run S table ctx).fatalStage = none →
        (p.pass S table ctx).committed = some row → (p.run S table ctx).status = row.status := by
  intro h
  obtain ⟨row, hrow, hstatus⟩ : ∃ row, (sweep.pass (scripted []) (fun _ => none)
      ⟨(), some partialSignal, "1.0.0", []⟩).committed = some row ∧
        row.status = .partiallyEnriched := ⟨_, rfl, rfl⟩
  have hsame := h sweep (scripted []) (fun _ => none) ⟨(), some partialSignal, "1.0.0", []⟩ row
    (by decide) (by decide) hrow
  rw [hstatus] at hsame
  exact absurd hsame (by decide)

end OmniSense.Enrichment.Pipeline
