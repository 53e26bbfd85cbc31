import OmniSense.Indexing.Worker
import OmniSense.Library.Base64
import OmniSense.Library.Blocks
import OmniSense.Models.Json
import OmniSense.Retrieval.Filters

/-! `SignalService.list_signals`: the filters and the order of a query, its keyset predicate, and
the cursor that carries a position from one page to the next. -/

namespace OmniSense

def Indexing.SignalStatus.value : Indexing.SignalStatus → String
  | .raw => "raw"
  | .enriched => "enriched"
  | .partiallyEnriched => "partial"
  | .duplicate => "duplicate"
  | .quarantined => "quarantined"

def Retrieval.Datetime.asUtc (t : Retrieval.Datetime) : Retrieval.Datetime :=
  if t.isAware then t else { t with utcoffset := some 0 }

namespace Signals

open Indexing (SignalStatus)
open Library
open Retrieval (Platform SourceCategory Datetime)

def DEFAULT_PAGE_SIZE : ℤ := 50

def MAX_PAGE_SIZE : ℤ := 200

def CURSOR_VERSION : ℚ := 1

inductive SignalError
  | validation (message : String)
  | malformedCursor (message : String)
  | notImplemented (message : String)
  -- The database refuses to compare a parameter with a column of another type.
  | database
  deriving DecidableEq

inductive SentimentLabel
  | positive | neutral | negative | mixed | unknown
  deriving DecidableEq

def SentimentLabel.value : SentimentLabel → String
  | .positive => "positive"
  | .neutral => "neutral"
  | .negative => "negative"
  | .mixed => "mixed"
  | .unknown => "unknown"

inductive SignalSort
  | timestamp | engagement | confidence | relevance
  deriving DecidableEq

def SignalSort.value : SignalSort → String
  | .timestamp => "timestamp"
  | .engagement => "engagement"
  | .confidence => "confidence"
  | .relevance => "relevance"

/-- `SignalSort(value)`. -/
def SignalSort.ofValue (value : Json) : Option SignalSort :=
  value.asString.bind fun s => [timestamp, engagement, confidence, relevance].find? (·.value = s)

inductive SortOrder
  | asc | desc
  deriving DecidableEq

def SortOrder.value : SortOrder → String
  | .asc => "asc"
  | .desc => "desc"

/-- `SortOrder(value)`. -/
def SortOrder.ofValue (value : Json) : Option SortOrder :=
  value.asString.bind fun s => [asc, desc].find? (·.value = s)

@[simp] theorem SignalSort.ofValue_value (sort : SignalSort) :
    ofValue (.str sort.value) = some sort := by
  cases sort <;> decide

@[simp] theorem SortOrder.ofValue_value (order : SortOrder) :
    ofValue (.str order.value) = some order := by
  cases order <;> decide

/-! ## Queries -/

/-- What `__post_init__` refuses cannot be built. -/
structure SignalQuery where
  platforms : Finset Platform
  sources : Finset SourceCategory
  entityIds : Finset String
  topics : Finset String
  languages : Finset String
  sentiment : Option SentimentLabel
  minConfidence : Option ℚ
  publishedAfter : Option Datetime
  publishedBefore : Option Datetime
  hasMedia : Option Bool
  statuses : Finset SignalStatus
  sort : SignalSort
  order : SortOrder
  tenantId : String
  window : ∀ after ∈ publishedAfter, ∀ before ∈ publishedBefore, after.instant ≤ before.instant
  minConfidence_mem : ∀ share ∈ minConfidence, 0 ≤ share ∧ share ≤ 1
  after_aware : ∀ after ∈ publishedAfter, after.isAware
  before_aware : ∀ before ∈ publishedBefore, before.isAware
  statuses_ne : statuses ≠ ∅

/-- JSON in UTF-8 with compact separators, instants in ISO form, digests, and what `str` and `float`
make of other values. -/
structure Codec where
  dumps : Json → List UInt8
  loads : List UInt8 → Option Json
  isoformat : Datetime → String
  fromisoformat : String → Option Datetime
  hexdigest : List UInt8 → String
  text : Json → String
  floatOf : String → Option ℚ

def optional {α : Type} (f : α → Json) (value : Option α) : Json := value.elim .null f

def strings (values : Finset String) : Json :=
  .array ((Retrieval.sortedValues id values).map .str)

namespace SignalQuery

variable (codec : Codec) (q : SignalQuery)

/-- The payload of `fingerprint`, its keys in order. -/
def canonical : Json :=
  .object (sortedBy Prod.fst
    [("platforms", strings (q.platforms.image Platform.value)),
      ("sources", strings (q.sources.image SourceCategory.value)),
      ("entity_ids", strings q.entityIds),
      ("topics", strings q.topics),
      ("languages", strings q.languages),
      ("sentiment", optional (fun label => .str label.value) q.sentiment),
      ("min_confidence", optional .number q.minConfidence),
      ("published_after", optional (fun t => .str (codec.isoformat t)) q.publishedAfter),
      ("published_before", optional (fun t => .str (codec.isoformat t)) q.publishedBefore),
      ("has_media", optional .bool q.hasMedia),
      ("statuses", strings (q.statuses.image SignalStatus.value)),
      ("sort", .str q.sort.value),
      ("order", .str q.order.value),
      ("tenant_id", .str q.tenantId)])

def fingerprint : String :=
  String.ofList ((codec.hexdigest (codec.dumps (q.canonical codec))).toList.take 16)

end SignalQuery

/-! ## Cursors -/

inductive CursorKey
  | datetime (t : Datetime)
  | number (value : ℚ)
  deriving DecidableEq

structure PageCursor where
  sort : SignalSort
  order : SortOrder
  key : CursorKey
  signalId : String
  fingerprint : String
  deriving DecidableEq

namespace Codec

variable (codec : Codec)

/-- `str(value)`. -/
def str : Json → String
  | .str s => s
  | value => codec.text value

/-- `float(value)`. -/
def float : Json → Option ℚ
  | .number q => some q
  | .bool b => some (if b then 1 else 0)
  | .str s => codec.floatOf s
  | _ => none

/-- `datetime.fromisoformat(str(value))` for timestamps, else `float(value)`. -/
def key (sort : SignalSort) (value : Json) : Option CursorKey :=
  if sort = .timestamp then (codec.fromisoformat (codec.str value)).map .datetime
  else (codec.float value).map .number

end Codec

/-- `_iso(self.key) if isinstance(self.key, datetime) else self.key`. -/
def CursorKey.json (codec : Codec) : CursorKey → Json
  | .datetime t => .str (codec.isoformat t)
  | .number value => .number value

namespace PageCursor

variable (codec : Codec)

def payload (c : PageCursor) : Json :=
  .object
    [("v", .number CURSOR_VERSION), ("s", .str c.sort.value), ("o", .str c.order.value),
      ("k", c.key.json codec), ("i", .str c.signalId), ("f", .str c.fingerprint)]

def encode (c : PageCursor) : String :=
  String.ofList (Base64.strip (Base64.encode (codec.dumps (c.payload codec))))

/-- `payload.get("v") == _CURSOR_VERSION`; `True` is 1. -/
def isVersion : Json → Bool
  | .number q => q = CURSOR_VERSION
  | .bool b => b
  | _ => false

/-- The fields of a payload whose fingerprint is known; `none` where a key is missing or a value is
not usable. -/
def read (fields : List (String × Json)) : Option PageCursor := do
  let sort ← (Json.get fields "s").bind SignalSort.ofValue
  let order ← (Json.get fields "o").bind SortOrder.ofValue
  let signalId ← (Json.get fields "i").map codec.str
  let key ← (Json.get fields "k").bind (codec.key sort)
  let fingerprint ← (Json.get fields "f").map codec.str
  return { sort, order, key, signalId, fingerprint }

def decode (token : String) (query : SignalQuery) : Except SignalError PageCursor :=
  match (Base64.decode (Base64.pad token.toList)).bind codec.loads with
  | none => .error (.malformedCursor "the cursor is not a valid token")
  | some payload =>
    match payload.asMapping.filter fun fields => (Json.get fields "v").any isVersion with
    | none => .error (.malformedCursor "the cursor was issued by an older version")
    | some fields =>
      if (Json.get fields "f").bind Json.asString ≠ some (query.fingerprint codec) then
        .error (.malformedCursor ("the cursor was issued for a different filter or sort; repeat " ++
          "the original parameters or page from the start"))
      else
        match read codec fields with
        | none => .error (.malformedCursor "the cursor payload is not usable")
        | some c =>
          if c.signalId = "" then .error (.malformedCursor "the cursor carries no tiebreak id")
          else .ok c

end PageCursor

/-! ## Statements -/

/-- The columns of `signals` that a listing looks at; enumerations are stored by their values. -/
structure SignalRow where
  id : String
  tenantId : String
  status : String
  platform : String
  source : String
  languageCode : String
  confidence : ℚ
  engagementScore : Option ℚ
  timestamp : Datetime
  sentiment : Option (List (String × Json))
  entities : List (List (String × Json))
  topics : List (List (String × Json))

inductive Dialect
  | postgresql | sqlite | other (name : String)
  deriving DecidableEq

structure Database (ι : Type) where
  dialect : Dialect
  collate : String → ι
  collate_injective : Function.Injective collate

/-- `column @> '[{key: value}]'`, or the same over `json_each`. -/
def jsonObjectsContain (column : List (List (String × Json))) (key value : String) : Bool :=
  column.any fun fields => (Json.get fields key).bind Json.asString = some value

/-- The clauses, joined by `and`; a filter on a JSON array needs a dialect that has one. -/
def filters (q : SignalQuery) (dialect : Dialect) : Except SignalError (SignalRow → Bool) :=
  if q.hasMedia ≠ none then
    .error (.notImplemented ("has_media cannot be answered: MediaRef is not persisted. " ++
      "models/orm/signal.py has no media column and there is no `signal_media` table, so " ++
      "services/signal_engine/store.py logs `store.media_dropped` and drops the list at the " ++
      "commit point. Filtering on media needs that table and an Alembic migration first."))
  else
    match dialect, decide (q.entityIds = ∅ ∧ q.topics = ∅) with
    | .other name, false =>
      .error (.notImplemented ("no JSON array containment predicate for SQLAlchemy dialect '" ++
        name ++ "'; PostgreSQL uses JSONB `@>` and SQLite uses json_each(), and a LIKE over the " ++
        "serialized array would match ids that were never resolved"))
    | _, _ => .ok fun row =>
      row.tenantId = q.tenantId ∧
        (∃ status ∈ q.statuses, status.value = row.status) ∧
        (q.platforms = ∅ ∨ ∃ platform ∈ q.platforms, platform.value = row.platform) ∧
        (q.sources = ∅ ∨ ∃ source ∈ q.sources, source.value = row.source) ∧
        (q.languages = ∅ ∨ row.languageCode ∈ q.languages) ∧
        (∀ share ∈ q.minConfidence, share ≤ row.confidence) ∧
        (∀ after ∈ q.publishedAfter, after.instant ≤ row.timestamp.asUtc.instant) ∧
        (∀ before ∈ q.publishedBefore, row.timestamp.asUtc.instant < before.instant) ∧
        (∀ label ∈ q.sentiment, row.sentiment.any fun fields =>
          (Json.get fields "label").bind Json.asString = some label.value) ∧
        (∀ entityId ∈ q.entityIds, jsonObjectsContain row.entities "resolved_id" entityId) ∧
        (q.topics = ∅ ∨ ∃ topic ∈ q.topics, jsonObjectsContain row.topics "topic" topic)

def sortColumn : SignalSort → Except SignalError (SignalRow → ℚ)
  | .timestamp => .ok fun row => row.timestamp.asUtc.instant
  | .confidence => .ok fun row => row.confidence
  | .engagement => .ok fun row => row.engagementScore.getD (-1)
  | .relevance =>
    .error (.validation ("sort=relevance is only defined for a free-text query; it is produced " ++
      "by retrieval ranking, not by a SQL ordering. Use sort=timestamp, engagement or confidence " ++
      "for a filter-only query."))

def sortKeyOf (row : SignalRow) : SignalSort → Except SignalError CursorKey
  | .timestamp => .ok (.datetime row.timestamp.asUtc)
  | .confidence => .ok (.number row.confidence)
  | .engagement =>
    .ok (.number (match row.engagementScore with
      | some score => score
      | none => -1))
  | .relevance => .error (.validation "sort=relevance has no SQL sort key")

def bindKey : SignalSort → CursorKey → Except SignalError ℚ
  | .timestamp, .datetime t => .ok t.instant
  | .confidence, .number value => .ok value
  | .engagement, .number value => .ok value
  | _, _ => .error .database

section

variable {ι : Type} [LinearOrder ι] (db : Database ι)

def orderBy (q : SignalQuery) : Except SignalError (SignalRow → SignalRow → Bool) :=
  (sortColumn q.sort).map fun column a b =>
    match q.order with
    | .desc => column b < column a ∨ (column a = column b ∧ db.collate b.id ≤ db.collate a.id)
    | .asc => column a < column b ∨ (column a = column b ∧ db.collate a.id ≤ db.collate b.id)

def keysetPredicate (q : SignalQuery) (position : PageCursor) :
    Except SignalError (SignalRow → Bool) := do
  let column ← sortColumn q.sort
  let key ← bindKey q.sort position.key
  return fun row =>
    match q.order with
    | .desc =>
      column row < key ∨ (column row = key ∧ db.collate row.id < db.collate position.signalId)
    | .asc =>
      key < column row ∨ (column row = key ∧ db.collate position.signalId < db.collate row.id)

def resumeAt (q : SignalQuery) : Option PageCursor → Except SignalError (SignalRow → Bool)
  | none => .ok fun _ => true
  | some position => keysetPredicate db q position

def execute (rows : List SignalRow) (q : SignalQuery) (position : Option PageCursor) (limit : ℕ) :
    Except SignalError (List SignalRow) := do
  let matching ← filters q db.dialect
  let beyond ← resumeAt db q position
  let before ← orderBy db q
  return ((rows.filter fun row => matching row && beyond row).insertionSort
    fun a b => before a b = true).take limit

end

/-! ## Pages -/

structure SignalPage where
  items : List SignalRow
  limit : ℕ
  nextCursor : Option String
  hasMore : Bool

/-- The primary key, and ids that are never empty: `sig_` and the digits of a uuid. -/
structure Table where
  rows : List SignalRow
  primaryKey : (rows.map SignalRow.id).Nodup
  named : ∀ row ∈ rows, row.id ≠ ""

def validateLimit (limit : ℤ) : Except SignalError ℕ :=
  if limit < 1 then .error (.validation ("limit must be at least 1; got " ++ toString limit))
  else if MAX_PAGE_SIZE < limit then
    .error (.validation ("limit " ++ toString limit ++ " exceeds the maximum of " ++
      toString MAX_PAGE_SIZE ++ "; page with a cursor instead of a larger limit"))
  else .ok limit.toNat

namespace SignalService

variable {ι : Type} [LinearOrder ι] (codec : Codec) (db : Database ι) (q : SignalQuery)

def cursorOf (row : SignalRow) : Except SignalError PageCursor := do
  let key ← sortKeyOf row q.sort
  return { sort := q.sort, order := q.order, key, signalId := row.id,
           fingerprint := q.fingerprint codec }

def positionOf (cursor : Option String) : Except SignalError (Option PageCursor) :=
  match cursor.filter fun token => token ≠ "" with
  | none => .ok none
  | some token => (PageCursor.decode codec token q).map some

def nextCursorOf : Option SignalRow → Except SignalError (Option String)
  | none => .ok none
  | some last => (cursorOf codec q last).map fun c => some (c.encode codec)

def listSignals (table : Table) (limit : ℤ := DEFAULT_PAGE_SIZE) (cursor : Option String := none) :
    Except SignalError SignalPage := do
  let limit ← validateLimit limit
  let position ← positionOf codec q cursor
  let rows ← execute db table.rows q position (limit + 1)
  let hasMore := decide (limit < rows.length)
  let items := rows.take limit
  let nextCursor ← nextCursorOf codec q (if hasMore then items.getLast? else none)
  return { items, limit, nextCursor, hasMore }

/-- A client that follows `next_cursor`: one table and one limit for each page it gets to, the rows
returned, and whether the pages ended. -/
def follow : List (Table × ℤ) → Option String → Except SignalError (List SignalRow × Bool)
  | [], _ => .ok ([], false)
  | (table, limit) :: requests, cursor => do
    let page ← listSignals codec db q table limit cursor
    match page.nextCursor with
    | none => return (page.items, true)
    | some token =>
      let later ← follow requests (some token)
      return (page.items ++ later.1, later.2)

end SignalService

end Signals

end OmniSense
