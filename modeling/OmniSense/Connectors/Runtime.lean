import OmniSense.Connectors.Backoff

/-! `ConnectorRuntime`: archive, publish, and only then commit the cursor. -/

namespace OmniSense.Connectors

open Library

structure StoredObject where
  key : String
  sha256 : String
  sizeBytes : ℕ

structure Outgoing where
  event : RawRecordEvent
  record : RawRecord
  signal : Signal

/-- What a `ConnectorRuntime` is constructed with. -/
structure ConnectorRuntime where
  -- Where the archive puts a payload.
  archive : String → ℤ → String → StoredObject
  topicRawRecords : String
  -- Whether an `AccountWriter` is bound.
  accounts : Bool
  backoff : BackoffPolicy
  breaker : CircuitBreaker

def CursorKey.forContext (c : Connector) : CursorKey := ⟨c.slug, c.ctx.accountId, c.ctx.paramsHash⟩

/-- `absorb`: the counters are cumulative within an attempt, `emitted` is not among them. -/
def RunState.absorb (stats : Stats) (state : RunState) : RunState :=
  let old := state.attemptStats
  let totals := state.totals
  { state with
    totals :=
      { totals with
        fetched := totals.fetched + (stats.fetched - old.fetched)
        dropped := totals.dropped + (stats.dropped - old.dropped)
        duplicates := totals.duplicates + (stats.duplicates - old.duplicates)
        dlq := totals.dlq + (stats.dlq - old.dlq)
        pages := totals.pages + (stats.pages - old.pages) }
    attemptStats := stats }

def RunState.beginAttempt (state : RunState) : RunState := { state with attemptStats := {} }

def advances (candidate committed : Cursor) : Bool :=
  match committed.watermark, candidate.watermark with
  | none, _ => true
  | some _, none => false
  | some old, some new => old ≤ new

namespace World

def withState (f : RunState → RunState) (w : World) : World := { w with state := f w.state }

def acknowledge (ack : Ack) (w : World) : World := { w with acked := w.acked ++ [ack] }

def paid (w : World) (key : String) : Prop := ∃ a ∈ w.acked, key ∈ a.keys

instance (w : World) (key : String) : Decidable (w.paid key) :=
  inferInstanceAs (Decidable (∃ a ∈ w.acked, key ∈ a.keys))

def abort (w : World) : World :=
  { w with journal := w.journal ++ [.abort (w.seenKeys.filter fun key => ¬w.paid key)] }

/-! What the log of the cursors says. -/

def startAttempt (w : World) : World :=
  { w with log := { w.log with start := w.state.cursor, earlier := [] } }

variable (key : CursorKey)

def offerPage (page : Cursor) (w : World) : World :=
  let offer : Offer := ⟨key, page, w.log.start, w.log.earlier, w.state.cursor, w.cursors key⟩
  { w with log := { w.log with
    earlier := w.log.earlier ++ [page], offers := w.log.offers ++ [offer] } }

def offerCheckpoint (w : World) : World :=
  let own := w.state.cursor
  { w with log := { w.log with
    offers := w.log.offers ++ [⟨key, own, own, [], own, w.cursors key⟩] } }

def refuse (cursor : Cursor) (w : World) : World :=
  { w with log := { w.log with refusals := w.log.refusals ++ [(key, cursor)] } }

end World

/-- What a page owes: every record that `normalize` did not drop. -/
def Fetched.owed (c : Connector) (f : Fetched) : Option Owed :=
  match f.normalized with
  | .ok none => none
  | .ok (some signal) => some ⟨f.record, some (c.dedupKeys signal).layers⟩
  | .error _ => some ⟨f.record, none⟩

namespace ConnectorRuntime

variable (rt : ConnectorRuntime) (c : Connector)

variable (record : RawRecord)

variable (signal : Signal)

def toDlq (raw : String) (err : Failure) :
    Runtime PUnit := do
  modify (World.withState fun s => { s with totals := { s.totals with dlq := s.totals.dlq + 1 } })
  let event : DlqEvent :=
    { originalTopic := rt.topicRawRecords
      originalKey := signal.id
      consumerGroup := "connector:" ++ c.slug
      attempts := 1
      error := err
      body := raw }
  await
  modify (World.acknowledge ⟨record, (c.dedupKeys signal).layers, .inr event⟩)

/-- `first or second`: an empty string counts as missing. -/
def orElse (first second : Option String) : Option String := (first.filter (· ≠ "")).or second

def rawEvent (raw : String) (stored : Option StoredObject) :
    RawRecordEvent where
  platform := signal.platform
  nativeId := signal.lineage.nativeId
  connectorSlug := signal.lineage.connectorSlug
  connectorVersion := signal.lineage.connectorVersion
  syncRunId := signal.lineage.syncRunId
  fetchedAt := record.fetchedAt
  rawObjectKey := stored.map StoredObject.key
  rawSha256 := stored.map StoredObject.sha256
  rawBytes := stored.elim raw.utf8ByteSize StoredObject.sizeBytes
  rawContentType := record.contentType
  sourceUrl := orElse record.sourceUrl signal.url
  requestFingerprint := orElse record.requestFingerprint signal.lineage.requestFingerprint

/-- `_archive_record`: an outage defers the archive, an unarchivable payload is parked. -/
def archiveRecord : Runtime (Option Outgoing) := do
  let raw := record.rawBytes.getD record.payload
  match (← next).raised with
  | none =>
    let stored := rt.archive signal.platform record.fetchedAt raw
    pure (some ⟨rawEvent record signal raw (some stored), record, signal⟩)
  | some .unavailable => pure (some ⟨rawEvent record signal raw none, record, signal⟩)
  | some err =>
    if err.errorClass = some .permanent ∨ err = .value then
      toDlq rt c record signal raw err
      pure none
    else throw err

def archiveAll : List (RawRecord × Signal) → Runtime (List Outgoing)
  | [] => pure []
  | (record, signal) :: rest => do
    let event ← archiveRecord rt c record signal
    let events ← archiveAll rest
    pure (event.toList ++ events)

def publishAll : List Outgoing → Runtime PUnit
  | [] => pure ⟨⟩
  | event :: rest => do
    await
    modify (World.acknowledge
      ⟨event.record, (c.dedupKeys event.signal).layers, .inl event.event⟩)
    modify (World.withState fun s => { s with emitted := s.emitted + 1 })
    publishAll rest

variable (key : CursorKey)

/-- `CursorStore.commit`, with what is journalled when it takes effect. -/
def commitTo (cursor : Cursor) (entries : World → List Entry) :
    Runtime PUnit := do
  let a ← next
  modify fun w =>
    if a.applied then
      { w with
        cursors := Function.update w.cursors key (some cursor)
        journal := w.journal ++ entries w
        log := { w.log with commits := w.log.commits ++ [(key, cursor)] } }
    else w
  match a.raised with
  | none => pure ⟨⟩
  | some err => throw err

def commitCursor (batch : EmittedBatch) : Runtime PUnit := do
  modify (World.offerPage key batch.fetched)
  if advances batch.cursor (← get).state.cursor then
    commitTo key batch.cursor fun w => [.commit (batch.page.filterMap (Fetched.owed c)) w.acked]
    modify (World.withState fun s => { s with cursor := batch.cursor })
  else
    modify (World.refuse key batch.cursor)

def persistBatch (batch : EmittedBatch) : Runtime PUnit := do
  let events ← archiveAll rt c batch.records
  publishAll c events
  commitCursor c key batch

def drain (fetch : Cursor → List Pull) : Runtime PUnit := do
  modify (World.withState RunState.beginAttempt)
  modify World.startAttempt
  c.run fetch (← get).state.cursor fun batch => do
    modify (World.withState (RunState.absorb batch.stats))
    persistBatch rt c key batch

/-- An attempt of `retry_page`: when the drain raises, the journal says what it left unpaid. -/
def attempt (fetch : Cursor → List Pull) : Runtime PUnit :=
  tryCatch (drain rt c key fetch) fun err => do
    modify World.abort
    throw err

/-! ## The error taxonomy -/

structure SyncResult where
  runId : String
  connectorSlug : String
  accountId : String
  emitted : ℕ
  totals : Stats
  cursor : Cursor
  errorClass : Option ErrorClass

def result (err : Option Failure) : Runtime SyncResult := do
  let state := (← get).state
  pure ⟨c.ctx.runId, c.slug, c.ctx.accountId, state.emitted, state.totals, state.cursor,
    err.bind Failure.errorClass⟩

def checkpoint : Runtime PUnit := do
  let cursor := (← get).state.cursor
  if cursor.isEmpty then
    pure ⟨⟩
  else
    modify (World.offerCheckpoint key)
    commitTo key cursor fun _ => []

def resumeAt (now : ℚ) : Failure → Option ℚ
  | .quota resetAt retryAfter | .circuitOpen resetAt retryAfter =>
    (resetAt.filter (0 < ·)).or ((retryAfter.filter (0 < ·)).map (now + ·))
  | .transient retryAfter => (retryAfter.filter (0 < ·)).map (now + ·)
  | _ => none

def handleFailure (err : Failure) (now : ℚ) : Runtime SyncResult := do
  match err.errorClass with
  | some .auth => if rt.accounts then await
  | some .quota =>
    checkpoint key
    if rt.accounts && (resumeAt now err).isSome then await
  | _ => pure ⟨⟩
  result c (some err)

end ConnectorRuntime

/-- What one `ConnectorRuntime.run` meets: the answers to its calls, the pages of its attempts,
and the readings of the clocks. -/
structure RunInput where
  runtime : ConnectorRuntime
  connector : Connector
  answers : List Answer
  attempts : ℕ → Attempt
  startsAt : ℚ
  endsAt : ℚ
  -- The worker was restarted before this run.
  restarted : Bool

namespace ConnectorRuntime

/-- `load`, and the state of the run. -/
def begin (key : CursorKey) : Runtime PUnit := do
  await
  modify fun w => { w with state := { cursor := (w.cursors key).getD .fresh } }

def run (input : RunInput) : Service SyncResult := do
  let c := input.connector
  let key := CursorKey.forContext c
  onWorld (begin key)
  match ← outcome (retryPage input.runtime.backoff input.runtime.breaker
      (c.slug ++ ":" ++ c.ctx.accountId)
      (fun a => onWorld (attempt input.runtime c key a.fetch)) input.startsAt input.attempts) with
  | none => onWorld (result c none)
  | some err =>
    if err.errorClass.isSome then onWorld (handleFailure input.runtime c key err input.endsAt)
    else throw err

end ConnectorRuntime

variable (cursors : CursorKey → Option Cursor)

def Process.holding : Process :=
  ⟨⟨[], [], cursors, { cursor := .fresh }, [], [], {}⟩, fun _ => none⟩

def Process.start : Process := .holding fun _ => none

def Process.enter (input : RunInput) (p : Process) : Process :=
  { world := { p.world with answers := input.answers }
    circuits := if input.restarted then fun _ => none else p.circuits }

def Process.step (p : Process) (input : RunInput) : Process :=
  ((ConnectorRuntime.run input).exec (p.enter input)).2

def Process.after (inputs : List RunInput) : Process := inputs.foldl Process.step .start

def Process.afterFrom (inputs : List RunInput) : Process :=
  inputs.foldl Process.step (.holding cursors)

end OmniSense.Connectors
