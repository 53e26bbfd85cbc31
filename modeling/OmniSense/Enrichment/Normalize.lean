import OmniSense.Enrichment.Mapper

/-! `services/signal_engine/normalize.py`, stage 2: the payload to a Signal, with the body of stage 1
where there is one. -/

namespace OmniSense.Enrichment

open Library Retrieval

variable {ω : Type}

/-- `(connector_slug, payload) -> FieldMap | None`. -/
abbrev FieldMapResolver (ω : Type) := String → Payload ω → Option (FieldMap ω)

structure NormalizeStage (ω : Type) where
  resolve : FieldMapResolver ω
  urlResolver : Option UrlResolver

namespace NormalizeStage

variable (ctx : EnrichmentContext ω)

def rawRecord (record : RawRecordEvent) : RawRecord ω where
  nativeId := record.nativeId
  payload := ctx.payload
  fetchedAt := record.fetchedAt
  rawBytes := ctx.rawBytes
  contentType := record.rawContentType
  sourceUrl := record.sourceUrl
  requestFingerprint := record.requestFingerprint

def mappingContext (record : RawRecordEvent) : MappingContext where
  connectorSlug := record.connectorSlug
  connectorVersion := record.connectorVersion
  syncRunId := record.syncRunId
  pipelineVersion := ctx.pipelineVersion

variable (coercions : Coercions ω)

variable (signal : Signal ω)

/-- `_check_identity`: a rebuild may not rename the record. -/
def checkIdentity (record : RawRecordEvent) :
    Except Failure Unit := do
  let expected ← coercions.signalId record.platform record.nativeId
  if signal.id ≠ expected then
    throw (.normalization (.otherIdentity signal.id expected) (some record.nativeId))

/-- `_content`: stage 1's body if it produced one, else the map's. -/
def content (record : RawRecordEvent) : Content :=
  let cleaned := ctx.cleanedText.getD ""
  Content.create signal.content.title
    (if strip cleaned ≠ "" then cleaned else signal.content.text) signal.content.truncated
    signal.content.contentType record.rawObjectKey
    (record.rawSha256.or signal.content.rawSha256)

def attachRawAddress (lineage : Lineage) (record : RawRecordEvent) : Lineage :=
  { lineage with
    rawObjectKey := record.rawObjectKey.map trim
    rawSha256 := record.rawSha256.or lineage.rawSha256
    rawBytes := record.rawBytes.or lineage.rawBytes
    rawContentType := some (trim record.rawContentType) }

def build (stage : NormalizeStage ω) (ctx : EnrichmentContext ω) :
    Except Failure (Signal ω) :=
  match ctx.record with
  | none => .error (.normalization .noRecord none)
  | some record =>
    if ctx.payload = [] then .error (.normalization .noPayload (some record.nativeId))
    else
      match stage.resolve record.connectorSlug ctx.payload with
      | none => .error (.normalization .unmapped (some record.nativeId))
      | some fieldMap => do
        let signal ← fieldMap.toSignal coercions (rawRecord ctx record) (mappingContext ctx record)
          stage.urlResolver
        checkIdentity coercions signal record
        return { signal with
          content := content ctx signal record
          lineage := attachRawAddress signal.lineage record }

def setSignal (ctx : EnrichmentContext ω) : EnrichmentContext ω :=
  { ctx with signal := some signal }

def apply (stage : NormalizeStage ω) : CleaningStage.Step ω Unit := do
  let ctx ← get
  match build coercions stage ctx with
  | .error failure => throw failure
  | .ok signal => modify (setSignal signal)

end NormalizeStage

end OmniSense.Enrichment
