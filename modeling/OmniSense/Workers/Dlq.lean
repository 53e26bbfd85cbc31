import OmniSense.Events.Consumer
import OmniSense.Models.Common
import Mathlib.Data.List.Infix

/-! `workers/dlq.py`: dead-lettered messages as an operator sees them, and their replay. -/

namespace OmniSense.Workers
open Events

def MAX_REPLAY_ATTEMPTS : ℕ := 3

def REPLAY_COUNT_HEADER : String := "x-omnisense-replay-count"

/-! ## Failure classes -/

inductive FailureClass
  | dependency | validation | poison | timeout | unknown
  deriving DecidableEq, Repr

def FailureClass.value : FailureClass → String
  | dependency => "dependency"
  | validation => "validation"
  | poison => "poison"
  | timeout => "timeout"
  | unknown => "unknown"

def FailureClass.isReplayable : FailureClass → Bool
  | dependency | timeout => true
  | validation | poison | unknown => false

def DEPENDENCY_MARKERS : List String :=
  ["connection", "unavailable", "refused", "unreachable", "no route", "temporarily",
    "serviceunavailable", "operationalerror"]

def VALIDATION_MARKERS : List String :=
  ["validationerror", "validation error", "field required", "extra inputs", "unable to parse",
    "invalid"]

def TIMEOUT_MARKERS : List String := ["timeout", "timed out", "deadline"]

def mentions (haystack : String) (markers : List String) : Bool :=
  markers.any fun marker => marker.toList <:+: haystack.toList

variable (casefold : String → String)

/-- `casefold` is `str.casefold`. -/
def classifyFailure (errorType errorMessage : Option String) :
    FailureClass :=
  let haystack := casefold (errorType.getD "" ++ " " ++ errorMessage.getD "")
  if strip haystack = "" then .unknown
  else if mentions haystack DEPENDENCY_MARKERS then .dependency
  else if mentions haystack VALIDATION_MARKERS then .validation
  else if mentions haystack TIMEOUT_MARKERS then .timeout
  else .poison

/-! ## Entries -/

inductive FieldValue
  | none
  | bool (b : Bool)
  | int (n : ℤ)
  | str (s : String)
  | datetime (t : ℤ)
  | list (items : List FieldValue)
  | mapping (fields : List (String × FieldValue))

abbrev Fields := List (String × FieldValue)

def Fields.get (fields : Fields) (name : String) : FieldValue := (fields.lookup name).getD .none

namespace FieldValue

def truthy : FieldValue → Bool
  | none => false
  | bool b => b
  | int n => n ≠ 0
  | str s => s ≠ ""
  | datetime _ => true
  | list items => !items.isEmpty
  | mapping fields => !fields.isEmpty

/-- `self or other`. -/
def orElse (value other : FieldValue) : FieldValue := if value.truthy then value else other

def str? : FieldValue → Option String
  | str s => some s
  | _ => Option.none

def strOrNone : FieldValue → Option String
  | str s => if s = "" then Option.none else some s
  | _ => Option.none

def intOr (default : ℤ) : FieldValue → ℤ
  | int n => n
  | _ => default

def datetimeOr (default : ℤ) : FieldValue → ℤ
  | datetime t => t
  | _ => default

def mappingOrEmpty : FieldValue → Fields
  | mapping fields => fields
  | _ => []

end FieldValue

structure DlqEntry where
  messageId : String
  originalTopic : String
  correlationId : Option String
  errorType : Option String
  errorMessage : Option String
  failedAt : ℤ
  attempts : ℤ := 0
  replayCount : ℤ := 0
  payload : Fields := []

variable (entry : DlqEntry)

def DlqEntry.failureClass : FailureClass :=
  classifyFailure casefold entry.errorType entry.errorMessage

def DlqEntry.refusalReason : Option String :=
  if MAX_REPLAY_ATTEMPTS ≤ entry.replayCount then
    some (s!"already replayed {entry.replayCount} times; this needs a code " ++
      "change, not another attempt")
  else if ¬ (entry.failureClass casefold).isReplayable then
    some (s!"{(entry.failureClass casefold).value} failures fail identically on replay; " ++
      "fix the cause first")
  else none

/-- `_entry_from`, on the fields of a stored record. -/
def entryFrom (now : ℤ) (payload : Fields) : Option DlqEntry :=
  match ((payload.get "message_id").orElse (payload.get "id")).str?,
      ((payload.get "original_topic").orElse (payload.get "topic")).str? with
  | some messageId, some topic => some {
      messageId := messageId
      originalTopic := topic
      correlationId := (payload.get "correlation_id").strOrNone
      errorType := (payload.get "error_type").strOrNone
      errorMessage := (payload.get "error_message").strOrNone
      failedAt := (payload.get "failed_at").datetimeOr now
      attempts := (payload.get "attempts").intOr 0
      replayCount := (payload.get "replay_count").intOr 0
      payload := (payload.get "payload").mappingOrEmpty }
  | _, _ => none

/-! ## Replay -/

/-- What `EventProducer.publish` is called with. -/
structure Publication where
  topic : String
  payload : Fields
  correlationId : Option String
  headers : List (String × String)

structure ReplayOutcome where
  considered : ℕ
  replayed : ℕ
  refused : ℕ
  failed : ℕ
  refusals : List String

def DlqEntry.publication : Publication where
  topic := entry.originalTopic
  payload := entry.payload
  correlationId := entry.correlationId
  headers := [(REPLAY_COUNT_HEADER, toString (entry.replayCount + 1))]

/-- One round of the loop of `replay`, on the outcome and the accepted publications so far. -/
def replayEntry (dryRun : Bool) (accepts : Publication → Bool)
    (done : ReplayOutcome × List Publication) (entry : DlqEntry) :
    ReplayOutcome × List Publication :=
  let (outcome, published) := done
  let considered := outcome.considered + 1
  match entry.refusalReason casefold with
  | some reason =>
    ({ outcome with
        considered := considered
        refused := outcome.refused + 1
        refusals := outcome.refusals ++ [s!"{entry.messageId}: {reason}"] }, published)
  | none =>
    if dryRun then
      ({ outcome with considered := considered, replayed := outcome.replayed + 1 }, published)
    else if accepts entry.publication then
      ({ outcome with considered := considered, replayed := outcome.replayed + 1 },
        published ++ [entry.publication])
    else ({ outcome with considered := considered, failed := outcome.failed + 1 }, published)

/-- `DlqReplayer.replay`; `accepts` says which publishes return rather than raise. -/
def replay (dryRun : Bool) (accepts : Publication → Bool)
    (entries : List DlqEntry) : ReplayOutcome × List Publication :=
  let (outcome, published) :=
    entries.foldl (replayEntry casefold dryRun accepts) (⟨0, 0, 0, 0, []⟩, [])
  ({ outcome with refusals := outcome.refusals.take 50 }, published)

/-! ## The stored record -/

def b64Digit (n : ℕ) : Char :=
  ("ABCDEFGHIJKLMNOPQRSTUVWXYZabcdefghijklmnopqrstuvwxyz0123456789+/".toList)[n]?.getD '='

def b64encode : List UInt8 → List Char
  | [] => []
  | [a] => [b64Digit (a.toNat / 4), b64Digit (a.toNat % 4 * 16), '=', '=']
  | [a, b] =>
    [b64Digit (a.toNat / 4), b64Digit (a.toNat % 4 * 16 + b.toNat / 16),
      b64Digit (b.toNat % 16 * 4), '=']
  | a :: b :: c :: rest =>
    [b64Digit (a.toNat / 4), b64Digit (a.toNat % 4 * 16 + b.toNat / 16),
      b64Digit (b.toNat % 16 * 4 + c.toNat / 64), b64Digit (c.toNat % 64)] ++ b64encode rest

def eventTypeValue : EventType → String
  | .recordRaw => "record.raw"
  | .signalEnriched => "signal.enriched"
  | .graphUpdate => "graph.update"
  | .dlqFailed => "dlq.failed"
  | .unknown => "unknown"

def optional {α : Type} (field : α → FieldValue) (value : Option α) : FieldValue :=
  (value.map field).getD .none

/-- The fields of a stored `DlqEvent`, under their own names. -/
def storedFields (event : DlqEvent) (failedAt : ℤ) : Fields :=
  [("original_topic", .str event.originalTopic),
    ("original_partition", optional (.int ∘ Int.ofNat) event.originalPartition),
    ("original_offset", optional (.int ∘ Int.ofNat) event.originalOffset),
    ("original_key", optional .str event.originalKey),
    ("original_event_id", optional .str event.originalEventId),
    ("original_event_type", .str (eventTypeValue event.originalEventType)),
    ("consumer_group", .str event.consumerGroup),
    ("attempts", .int event.attempts),
    ("error_chain", .list (event.errorChain.map .str)),
    ("failed_at", .datetime failedAt),
    ("body_b64", .str (String.ofList (b64encode event.body)))]

end OmniSense.Workers
