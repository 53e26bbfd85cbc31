import Mathlib.Algebra.Order.Ring.Rat
import Mathlib.Logic.Function.Basic
import OmniSense.Library.Effect
import OmniSense.Models.Common

/-! `BaseConnector.run` and the dedup store behind it. Every await takes its answer from a script,
so a run can fail between any two of its steps. -/

namespace OmniSense.Connectors

open Library

inductive Failure
  | auth
  | quota (resetAt retryAfter : Option ℚ)
  | circuitOpen (opensUntil retryAfter : Option ℚ)
  | transient (retryAfter : Option ℚ)
  | permanent | normalization | configuration
  -- `ExternalServiceError` or `DependencyUnavailableError`.
  | unavailable
  | value
  -- Any other `Exception`.
  | defect
  -- A `BaseException`: a cancellation, or the end of the process.
  | cancelled
  deriving DecidableEq

inductive ErrorClass
  | auth | quota | transient | permanent
  deriving DecidableEq

namespace Failure

/-- `error_class`, for a `ConnectorError`. -/
def errorClass : Failure → Option ErrorClass
  | auth => some .auth
  | quota _ _ | circuitOpen _ _ => some .quota
  | transient _ => some .transient
  | permanent | normalization | configuration => some .permanent
  | unavailable | value | defect | cancelled => none

end Failure

/-! ## Values -/

def cursorVersion : ℕ := 1

structure Cursor where
  version : ℕ
  watermark : Option ℤ
  pageToken : Option String
  checkpoint : List (String × String)
  deriving DecidableEq

namespace Cursor

/-- `Cursor()`. -/
def fresh : Cursor := ⟨cursorVersion, none, none, []⟩

def isEmpty (c : Cursor) : Bool :=
  c.watermark.isNone && c.pageToken.isNone && c.checkpoint.isEmpty

def isReadable (c : Cursor) : Bool := c.version = cursorVersion

end Cursor

structure RawRecord where
  nativeId : String
  -- The payload, as `_canonical_payload` writes it.
  payload : String
  fetchedAt : ℤ
  rawBytes : Option String
  contentType : String
  sourceUrl : Option String
  requestFingerprint : Option String
  deriving DecidableEq

structure Lineage where
  nativeId : String
  connectorSlug : String
  connectorVersion : String
  syncRunId : String
  requestFingerprint : Option String
  deriving DecidableEq

structure Signal where
  id : String
  platform : String
  text : String
  url : Option String
  lineage : Lineage
  deriving DecidableEq

structure DedupKeys where
  identity : String
  content : Option String
  deriving DecidableEq

def DedupKeys.layers (keys : DedupKeys) : List String := keys.identity :: keys.content.toList

structure SyncContext where
  accountId : String
  runId : String
  -- `sync_params_hash` of the params and the mode.
  paramsHash : String
  -- Whether the limiter and the dedup store are bound.
  limiter : Bool
  dedup : Bool
  maxPages : Option ℕ
  maxRecords : Option ℕ
  dedupTtlSeconds : ℤ

structure Connector where
  slug : String
  overlapSeconds : ℕ
  dedupKeys : Signal → DedupKeys
  ctx : SyncContext

/-- `BaseConnector.dedup_keys`, over the SHA-256 of the standard library. -/
def baseDedupKeys (sha256 : String → String) (slug : String) (signal : Signal) : DedupKeys :=
  let content := strip signal.text
  { identity := "os:dedup:id:" ++ slug ++ ":" ++ signal.id
    content := if content = "" then none
      else some ("os:dedup:sha:" ++ slug ++ ":" ++ sha256 content) }

/-- A record of a page and what `normalize` makes of it: a signal, nothing, or an exception. -/
structure Fetched where
  record : RawRecord
  normalized : Except Failure (Option Signal)

structure FetchPage where
  records : List Fetched
  cursor : Cursor
  -- Whether the headers parse to a rate-limit hint.
  hint : Bool

/-- One step of the generator that `fetch` returns. -/
inductive Pull
  | page (p : FetchPage)
  | raised (err : Failure)

structure Stats where
  fetched : ℤ := 0
  emitted : ℤ := 0
  dropped : ℤ := 0
  duplicates : ℤ := 0
  dlq : ℤ := 0
  pages : ℤ := 0

structure EmittedBatch where
  records : List (RawRecord × Signal)
  cursor : Cursor
  stats : Stats
  -- Ghosts: the page the batch was made from, and the cursor it came with.
  page : List Fetched
  fetched : Cursor

/-! ## The world a run acts on -/

structure CursorKey where
  connectorSlug : String
  accountId : String
  paramsHash : String
  deriving DecidableEq

structure RunState where
  cursor : Cursor
  emitted : ℕ := 0
  totals : Stats := {}
  attemptStats : Stats := {}

structure Answer where
  applied : Bool
  raised : Option Failure

def Answer.ok : Answer := ⟨true, none⟩

structure RawRecordEvent where
  platform : String
  nativeId : String
  connectorSlug : String
  connectorVersion : String
  syncRunId : String
  fetchedAt : ℤ
  rawObjectKey : Option String
  rawSha256 : Option String
  rawBytes : ℕ
  rawContentType : String
  sourceUrl : Option String
  requestFingerprint : Option String
  deriving DecidableEq

structure DlqEvent where
  originalTopic : String
  originalKey : String
  consumerGroup : String
  attempts : ℕ
  error : Failure
  body : String
  deriving DecidableEq

/-- What the publisher or the dead-letter publisher acknowledged for a record, which has these
dedup keys. -/
structure Ack where
  record : RawRecord
  keys : List String
  event : RawRecordEvent ⊕ DlqEvent
  deriving DecidableEq

/-- A record of a page that `normalize` did not drop; it has no keys when it could not be mapped. -/
structure Owed where
  record : RawRecord
  keys : Option (List String)
  deriving DecidableEq

inductive Entry
  -- A page's cursor was committed after these acknowledgements.
  | commit (page : List Owed) (acked : List Ack)
  -- An attempt raised and left these keys marked, without an acknowledged record that has them.
  | abort (unpaid : List String)
  deriving DecidableEq

/-- A cursor that comes up for a commit, and what was known before: the one its attempt started
from, those of the attempt's earlier pages, the run's own and the store's. -/
structure Offer where
  key : CursorKey
  page : Cursor
  start : Cursor
  earlier : List Cursor
  known : Cursor
  stored : Option Cursor

structure CursorLog where
  -- Of the attempt under way: its starting cursor, and those of the pages it came to commit.
  start : Cursor := .fresh
  earlier : List Cursor := []
  offers : List Offer := []
  commits : List (CursorKey × Cursor) := []
  refusals : List (CursorKey × Cursor) := []

structure World where
  answers : List Answer
  seenKeys : List String
  cursors : CursorKey → Option Cursor
  state : RunState
  -- Ghosts: the acknowledgements, the commits and aborted attempts, in order, and what became of
  -- every cursor.
  acked : List Ack
  journal : List Entry
  log : CursorLog

abbrev Runtime := Effect World Failure

/-- The answer of the next call; a script that has run out answers `ok`. -/
def next : Runtime Answer := do
  match (← get).answers with
  | [] => pure .ok
  | a :: rest =>
    modify fun w => { w with answers := rest }
    pure a

def await : Runtime PUnit := do
  match (← next).raised with
  | none => pure ⟨⟩
  | some err => throw err

/-! ## `RedisDedupStore` -/

def seen (key : String) : Runtime Bool := do
  match (← next).raised with
  | none => return key ∈ (← get).seenKeys
  | some .cancelled => throw .cancelled
  | some _ => pure false

def World.see (key : String) (w : World) : World :=
  if key ∈ w.seenKeys then w else { w with seenKeys := key :: w.seenKeys }

def mark (key : String) (ttlSeconds : ℤ) : Runtime PUnit := do
  if ttlSeconds ≤ 0 then
    pure ⟨⟩
  else
    let a ← next
    modify fun w => if a.applied then w.see key else w
    if a.raised = some .cancelled then throw .cancelled else pure ⟨⟩

/-! ## The template -/

/-- `seen` of the keys in turn, up to the first hit. -/
def anySeen : List String → Runtime Bool
  | [] => pure false
  | key :: rest => do
    if ← seen key then pure true else anySeen rest

def markAll (ttlSeconds : ℤ) : List String → Runtime PUnit
  | [] => pure ⟨⟩
  | key :: rest => do
    mark key ttlSeconds
    markAll ttlSeconds rest

/-- `finally: await self.aclose()`, on the way out of an exception. -/
def closing {α : Type} (x : Runtime α) : Runtime α :=
  tryCatch x fun err => do
    await
    throw err

namespace Connector

variable (c : Connector)

def isDuplicate (signal : Signal) : Runtime Bool := do
  if c.ctx.dedup then
    let keys := c.dedupKeys signal
    if ← anySeen keys.layers then
      pure true
    else
      markAll c.ctx.dedupTtlSeconds keys.layers
      pure false
  else
    pure false

def normalizeAndDedup : List Fetched → Stats → Runtime (List (RawRecord × Signal) × Stats)
  | [], stats => pure ([], stats)
  | ⟨record, normalized⟩ :: rest, stats =>
    match normalized with
    | .error .normalization => normalizeAndDedup rest { stats with dlq := stats.dlq + 1 }
    | .error err => throw err
    | .ok none => normalizeAndDedup rest { stats with dropped := stats.dropped + 1 }
    | .ok (some signal) => do
      if ← c.isDuplicate signal then
        normalizeAndDedup rest { stats with duplicates := stats.duplicates + 1 }
      else
        let (emitted, stats) ←
          normalizeAndDedup rest { stats with emitted := stats.emitted + 1 }
        pure ((record, signal) :: emitted, stats)

def watermarkFloor (cursor : Cursor) : Option ℤ :=
  if cursor.isReadable then cursor.watermark else none

def guardWatermark (cursor : Cursor) (floor : Option ℤ) : Cursor :=
  match floor with
  | none => cursor
  | some floor =>
    match cursor.watermark with
    | some mark => if floor ≤ mark then cursor else { cursor with watermark := some floor }
    | none => { cursor with watermark := some floor }

def effectiveStart (cursor : Cursor) : Cursor :=
  if cursor.isEmpty then .fresh
  else if !cursor.isReadable then .fresh
  else { cursor with watermark := cursor.watermark.map (· - c.overlapSeconds) }

def budgetExhausted (stats : Stats) : Bool :=
  c.ctx.maxPages.any (fun n => n ≤ stats.pages) || c.ctx.maxRecords.any fun n => n ≤ stats.emitted

/-- The inside of the loop of `run`, up to its `yield`. -/
def emit (page : FetchPage) (floor : Option ℤ) (stats : Stats) : Runtime EmittedBatch := do
  if page.hint && c.ctx.limiter then await
  let (emitted, stats) ← c.normalizeAndDedup page.records stats
  pure ⟨emitted, guardWatermark page.cursor floor, stats, page.records, page.cursor⟩

/-- The loop of `run`. Each batch it yields is consumed before the next page is pulled. -/
def pages (consume : EmittedBatch → Runtime PUnit) (floor : Option ℤ) :
    List Pull → Stats → Runtime PUnit
  | [], _ => await
  | .raised err :: _, _ => closing (throw err)
  | .page page :: rest, stats => do
    let stats := { stats with
      pages := stats.pages + 1, fetched := stats.fetched + page.records.length }
    let batch ← closing (c.emit page floor stats)
    consume batch
    if c.budgetExhausted batch.stats then await else pages consume floor rest batch.stats

/-- `run`: `authenticate`, then the pages that `fetch` yields from the effective start. -/
def run (fetch : Cursor → List Pull) (cursor : Cursor) (consume : EmittedBatch → Runtime PUnit) :
    Runtime PUnit := do
  let floor := watermarkFloor cursor
  await
  c.pages consume floor (fetch (c.effectiveStart cursor)) {}

end Connector

end OmniSense.Connectors
