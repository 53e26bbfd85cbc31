import OmniSense.Enrichment.Normalize
import Mathlib.Data.Bool.AllAny

/-! What becomes of a record's text between the redactor of stage 1 and the body of the Signal that
stage 2 builds. -/

namespace OmniSense.Enrichment

open Library Retrieval List Effect

variable {ω : Type} {coercions : Coercions ω}

/-! ## The body of a field map -/

namespace FieldMap

variable {fieldMap : FieldMap ω} {payload : Payload ω} {d d' : Dict String (Value ω)} {name : String}

def slotValue (coercions : Coercions ω) (payload : Payload ω) (name : String) :
    Option (FieldSpec ω) → Except Failure (Value ω)
  | none => .ok .none
  | some spec => spec.resolve coercions payload name none false

theorem resolveInto_cons {key : String} {spec : FieldSpec ω} {specs : List (String × FieldSpec ω)}
    (h : resolveInto coercions payload d ((key, spec) :: specs) = .ok d') :
    ∃ value, spec.resolve coercions payload key none false = .ok value ∧
      resolveInto coercions payload (d.set key value) specs = .ok d' :=
  ok_of_bind h

theorem resolveInto_append {specs specs' : List (String × FieldSpec ω)}
    (h : resolveInto coercions payload d (specs ++ specs') = .ok d') :
    ∃ between, resolveInto coercions payload d specs = .ok between ∧
      resolveInto coercions payload between specs' = .ok d' := by
  induction specs generalizing d with
  | nil => exact ⟨d, rfl, h⟩
  | cons entry specs ih =>
    obtain ⟨key, spec⟩ := entry
    obtain ⟨value, hvalue, hrest⟩ := resolveInto_cons h
    obtain ⟨between, hbetween, hafter⟩ := ih hrest
    refine ⟨between, ?_, hafter⟩
    rw [resolveInto, hvalue]
    exact hbetween

theorem get?_resolveInto {specs : List (String × FieldSpec ω)}
    (h : resolveInto coercions payload d specs = .ok d') (hname : name ∉ specs.map Prod.fst) :
    d'.get? name = d.get? name := by
  induction specs generalizing d with
  | nil =>
    cases h
    rfl
  | cons entry specs ih =>
    obtain ⟨key, spec⟩ := entry
    obtain ⟨value, _, hrest⟩ := resolveInto_cons h
    rw [map_cons, mem_cons, not_or] at hname
    rw [ih hrest hname.2, Dict.get?_set, if_neg hname.1]

variable {slots : List (String × Option (FieldSpec ω))}

theorem name_mem_slots
    (h : name ∈ (declared slots).map Prod.fst) : name ∈ slots.map Prod.fst := by
  obtain ⟨entry, hentry, rfl⟩ := mem_map.mp h
  obtain ⟨slot, hslot, hsome⟩ := mem_filterMap.mp hentry
  obtain ⟨spec, _, rfl⟩ := Option.map_eq_some_iff.mp hsome
  exact mem_map_of_mem hslot

theorem field_declared
    {slot : Option (FieldSpec ω)} (hnodup : (slots.map Prod.fst).Nodup) (hslot : (name, slot) ∈ slots)
    (hnew : d.get? name = none) (h : resolveInto coercions payload d (declared slots) = .ok d') :
    slotValue coercions payload name slot = .ok (field d' name) := by
  induction slots generalizing d with
  | nil => cases hslot
  | cons head slots ih =>
    obtain ⟨key, first⟩ := head
    rw [map_cons, nodup_cons] at hnodup
    rcases mem_cons.mp hslot with heq | hmem
    · cases heq
      have hlater : name ∉ (declared slots).map Prod.fst := fun hin => hnodup.1 (name_mem_slots hin)
      cases slot with
      | none =>
        rw [slotValue, field, get?_resolveInto h hlater, hnew]
        rfl
      | some spec =>
        obtain ⟨value, hvalue, hrest⟩ := resolveInto_cons h
        rw [slotValue, hvalue, field, get?_resolveInto hrest hlater, Dict.get?_set, if_pos rfl]
        rfl
    · have hne : name ≠ key := by
        rintro rfl
        exact hnodup.1 (mem_map.mpr ⟨_, hmem, rfl⟩)
      cases first with
      | none => exact ih hnodup.2 hmem hnew h
      | some spec =>
        obtain ⟨value, _, hrest⟩ := resolveInto_cons h
        exact ih hnodup.2 hmem (by rw [Dict.get?_set, if_neg hne, hnew]) hrest

theorem names_slots (fieldMap : FieldMap ω) : fieldMap.slots.map Prod.fst = specFields := rfl

theorem not_namespaced (platform : Platform) :
    ∀ key ∈ specFields, startsWith key (platform.value ++ ".") = false := by
  cases platform <;> decide

theorem field_slot {slot : Option (FieldSpec ω)} (hslot : (name, slot) ∈ fieldMap.slots)
    (h : resolveInto coercions payload .empty fieldMap.iterSpecs = .ok d') :
    slotValue coercions payload name slot = .ok (field d' name) := by
  have hname : name ∈ specFields := names_slots fieldMap ▸ mem_map_of_mem hslot
  obtain ⟨counted, hcounted, hmetadata⟩ := resolveInto_append h
  obtain ⟨between, hdeclared, hengagement⟩ := resolveInto_append hcounted
  have hkeys : name ∉ fieldMap.metadata.items.map Prod.fst := by
    intro hin
    have hstart := fieldMap.namespaced name hin
    rw [not_namespaced fieldMap.platform name hname] at hstart
    cases hstart
  have hcounters : name ∉ fieldMap.engagement.items.map Prod.fst :=
    fun hin => fieldMap.unshadowed name hin hname
  have hfield : field d' name = field between name := by
    rw [field, field, get?_resolveInto hmetadata hkeys, get?_resolveInto hengagement hcounters]
  have hnodup : (fieldMap.slots.map Prod.fst).Nodup := by
    rw [names_slots]
    decide
  rw [hfield]
  exact field_declared hnodup hslot rfl hdeclared

def mappedBody (coercions : Coercions ω) (fieldMap : FieldMap ω) (payload : Payload ω) :
    Except Failure String :=
  (slotValue coercions payload "text" fieldMap.text).map (fieldMap.body coercions)

theorem trim_body (raw : Value ω) :
    trim (fieldMap.body coercions raw) = fieldMap.body coercions raw := by
  rw [body]
  split_ifs
  · rfl
  · exact trim_extractReadable ..
  · exact trim_collapseWhitespace _

theorem create_content {nativeId : String} {timestamp : Datetime} {content : Content}
    {lineage : Lineage} {url : Option String} {author : Option Author} {media : List MediaRef}
    {engagement : Dict String Counter} {metadata : Dict String (Value ω)} {signal : Signal ω}
    (h : fieldMap.create coercions nativeId timestamp content lineage url author media engagement
      metadata = .ok signal) : signal.content = content := by
  unfold create at h
  split_ifs at h
  · cases h
  · obtain ⟨id, _, hid⟩ := ok_of_bind h
    dsimp only at hid
    split_ifs at hid
    · cases hid
    · cases hid
      rfl

theorem toSignal_text {record : RawRecord ω} {ctx : MappingContext}
    {urlResolver : Option UrlResolver} {signal : Signal ω}
    (h : fieldMap.toSignal coercions record ctx urlResolver = .ok signal) :
    fieldMap.mappedBody coercions record.payload = .ok signal.content.text := by
  obtain ⟨resolved, hresolved, h⟩ := ok_of_bind h
  obtain ⟨⟨moment, timestampError⟩, _, h⟩ := ok_of_bind h
  obtain ⟨nativeId, _, h⟩ := ok_of_bind h
  obtain ⟨_, _, h⟩ := ok_of_bind h
  have hslot : ("text", fieldMap.text) ∈ fieldMap.slots := by simp [slots, specFields]
  have htext := field_slot hslot hresolved
  cases moment with
  | none => cases h
  | some moment =>
    rw [create_content h, mappedBody, htext]
    change Except.ok _ = Except.ok (trim _)
    rw [trim_body]

end FieldMap

/-! ## The two stages -/

def enrich (coercions : Coercions ω) (redactor : Redactor) (stage : NormalizeStage ω) :
    CleaningStage.Step ω Unit := do
  CleaningStage.apply coercions.toPython ⟨some redactor⟩
  NormalizeStage.apply coercions stage

variable {ctx after : EnrichmentContext ω} {redactor : Redactor} {stage : NormalizeStage ω}

namespace EnrichmentContext

variable (coercions : Coercions ω)

variable (ctx : EnrichmentContext ω)

/-- `content_type` names a structured type. -/
def isStructured : Bool :=
  classifyContentType coercions.lower (some ctx.contentType) = .structured

/-- The readable text of the document before redaction, where there is a document and it is not
blank. -/
def documentText : Option String :=
  if ctx.isStructured coercions then none
  else
    (ctx.rawBytes.map fun raw => coercions.codecs.decodeBytes raw (some ctx.contentType)).bind
      fun text =>
        if strip text = "" then none
        else some (coercions.readable text
          (classifyContentType coercions.lower (some ctx.contentType)) none)

def payloadRead : Payload ω :=
  if ctx.isStructured coercions && ctx.payload.isEmpty then
    (CleaningStage.parsed coercions.toPython ctx).toOption.getD []
  else ctx.payload

def mappedText (stage : NormalizeStage ω) (ctx : EnrichmentContext ω) :
    Option String := do
  let record ← ctx.record
  let fieldMap ← stage.resolve record.connectorSlug (ctx.payloadRead coercions)
  (fieldMap.mappedBody coercions (ctx.payloadRead coercions)).toOption

def cleaned (redactor : Redactor) (ctx : EnrichmentContext ω) :
    EnrichmentContext ω :=
  { ctx with
    payload := ctx.payloadRead coercions
    cleanedText := some (((ctx.documentText coercions).map redactor.redact).getD "") }

end EnrichmentContext

theorem exec_applyStructured
    (h : exec (CleaningStage.applyStructured coercions.toPython) ctx = (.ok (), after)) :
    after = { ctx with
      payload := if ctx.payload = [] then
        (CleaningStage.parsed coercions.toPython ctx).toOption.getD [] else ctx.payload
      cleanedText := some "" } := by
  unfold CleaningStage.applyStructured at h
  rw [exec_bind, exec_modify] at h
  dsimp only at h
  rw [exec_bind, exec_get] at h
  dsimp only [CleaningStage.setCleaned] at h
  split_ifs at h with hpayload
  · rw [if_neg hpayload]
    cases h
    rfl
  · rw [ne_eq, not_not] at hpayload
    rw [if_pos hpayload]
    have hparsed : CleaningStage.parsed coercions.toPython { ctx with cleanedText := some "" } =
        CleaningStage.parsed coercions.toPython ctx := rfl
    rw [hparsed] at h
    cases hread : CleaningStage.parsed coercions.toPython ctx with
    | error failure =>
      rw [hread] at h
      cases h
    | ok payload =>
      rw [hread] at h
      cases h
      rfl

theorem cleanText_bytes {raw : Bytes} {text : String}
    (hfamily : ctx.isStructured coercions = false) (hraw : ctx.rawBytes = some raw)
    (h : coercions.toPython.cleanText (.bytes raw) (some ctx.contentType) none (some redactor) =
      .ok text) : text = ((ctx.documentText coercions).map redactor.redact).getD "" := by
  rw [EnrichmentContext.documentText, hfamily, if_neg Bool.false_ne_true, hraw]
  unfold Python.cleanText at h
  dsimp only at h
  split_ifs at h
  unfold Python.cleanDocument at h
  rw [Option.map_some, Option.bind_some]
  split_ifs at h with hblank hnul
  · rw [if_pos hblank]
    cases h
    rfl
  · rw [if_neg hblank]
    cases h
    rfl

theorem exec_cleaning
    (h : exec (CleaningStage.apply coercions.toPython ⟨some redactor⟩) ctx =
      (.ok (), after)) : after = ctx.cleaned coercions redactor := by
  unfold CleaningStage.apply at h
  rw [exec_bind, exec_get] at h
  dsimp only at h
  split_ifs at h with hfamily
  · have hstructured : ctx.isStructured coercions = true := decide_eq_true hfamily
    rw [exec_applyStructured h]
    unfold EnrichmentContext.cleaned EnrichmentContext.payloadRead EnrichmentContext.documentText
    simp [hstructured]
  · have hstructured : ctx.isStructured coercions = false := decide_eq_false hfamily
    cases hraw : ctx.rawBytes with
    | none =>
      rw [hraw] at h
      cases h
    | some raw =>
      rw [hraw] at h
      dsimp only at h
      cases htext : coercions.toPython.cleanText (.bytes raw) (some ctx.contentType) none
          (some redactor) with
      | error failure =>
        rw [htext] at h
        cases h
      | ok text =>
        rw [htext] at h
        cases h
        rw [CleaningStage.setCleaned, EnrichmentContext.cleaned, EnrichmentContext.payloadRead,
          hstructured, cleanText_bytes hstructured hraw htext]
        rfl

theorem content_text (signal : Signal ω) (record : RawRecordEvent) :
    (NormalizeStage.content ctx signal record).text =
      if strip (ctx.cleanedText.getD "") ≠ "" then trim (ctx.cleanedText.getD "")
      else signal.content.text := by
  unfold NormalizeStage.content Content.create
  dsimp only
  rw [apply_ite trim, signal.content.trimmed]

theorem exec_normalize
    (h : exec (NormalizeStage.apply coercions stage) ctx = (.ok (), after)) :
    ∃ record fieldMap mapped signal, ctx.record = some record ∧
      stage.resolve record.connectorSlug ctx.payload = some fieldMap ∧
      fieldMap.mappedBody coercions ctx.payload = .ok mapped ∧ after.signal = some signal ∧
      signal.content.text =
        if strip (ctx.cleanedText.getD "") ≠ "" then trim (ctx.cleanedText.getD "") else mapped := by
  unfold NormalizeStage.apply at h
  rw [exec_bind, exec_get] at h
  dsimp only at h
  cases hbuild : NormalizeStage.build coercions stage ctx with
  | error failure =>
    rw [hbuild] at h
    cases h
  | ok signal =>
    rw [hbuild] at h
    cases h
    unfold NormalizeStage.build at hbuild
    cases hrecord : ctx.record with
    | none =>
      rw [hrecord] at hbuild
      cases hbuild
    | some record =>
      rw [hrecord] at hbuild
      dsimp only at hbuild
      split_ifs at hbuild
      cases hmap : stage.resolve record.connectorSlug ctx.payload with
      | none =>
        rw [hmap] at hbuild
        cases hbuild
      | some fieldMap =>
        rw [hmap] at hbuild
        obtain ⟨mapped, hmapped, hbuild⟩ := ok_of_bind hbuild
        obtain ⟨_, _, hbuild⟩ := ok_of_bind hbuild
        cases hbuild
        have hbody := FieldMap.toSignal_text hmapped
        exact ⟨record, fieldMap, mapped.content.text, _, rfl, hmap, hbody, rfl,
          content_text mapped record⟩

/-! ## Which texts the redactor reaches -/

/-- A document's text that is not blank once redacted is reached, unless stripping it makes a text
that the redactor changes; any other body is the field map's, which is to have nothing that the
redactor changes. -/
def Reached (redactor : Redactor) (document : Option String) (mapped : String) : Prop :=
  (∃ text, document = some text ∧ strip (redactor.redact text) ≠ "" ∧
    (trim (redactor.redact text) = redactor.redact text ∨
      redactor.redact (trim (redactor.redact text)) = trim (redactor.redact text))) ∨
  ((∀ text, document = some text → strip (redactor.redact text) = "") ∧
    redactor.redact mapped = mapped)

theorem reached_iff (hidem : ∀ text, redactor.redact (redactor.redact text) = redactor.redact text)
    {document : Option String} {mapped body : String}
    (hbody : body = if strip ((document.map redactor.redact).getD "") ≠ "" then
      trim ((document.map redactor.redact).getD "") else mapped) :
    redactor.redact body = body ↔ Reached redactor document mapped := by
  cases document with
  | none =>
    have hmapped : body = mapped := hbody
    rw [hmapped]
    constructor
    · exact fun h => .inr ⟨(fun _ hnone => nomatch hnone), h⟩
    · rintro (⟨_, hnone, _⟩ | ⟨_, h⟩)
      · cases hnone
      · exact h
  | some text =>
    rw [Option.map_some, Option.getD_some] at hbody
    by_cases hblank : strip (redactor.redact text) = ""
    · rw [if_neg (not_not.mpr hblank)] at hbody
      rw [hbody]
      constructor
      · refine fun h => .inr ⟨fun other hother => ?_, h⟩
        cases hother
        exact hblank
      · rintro (⟨other, hother, hread, _⟩ | ⟨_, h⟩)
        · cases hother
          exact absurd hblank hread
        · exact h
    · rw [if_pos hblank] at hbody
      rw [hbody]
      constructor
      · exact fun h => .inl ⟨text, rfl, hblank, .inr h⟩
      · rintro (⟨other, hother, _, htight | hkept⟩ | ⟨hnone, _⟩)
        · cases hother
          rw [htight]
          exact hidem text
        · cases hother
          exact hkept
        · exact absurd (hnone text rfl) hblank

/-- After both stages, the body of the Signal is a text that the redactor keeps exactly when the
redactor reached it. -/
theorem body_redacted_iff
    (hidem : ∀ text, redactor.redact (redactor.redact text) = redactor.redact text)
    (h : exec (enrich coercions redactor stage) ctx = (.ok (), after)) :
    ∃ signal mapped, after.signal = some signal ∧ ctx.mappedText coercions stage = some mapped ∧
      (redactor.redact signal.content.text = signal.content.text ↔
        Reached redactor (ctx.documentText coercions) mapped) := by
  unfold enrich at h
  rw [exec_bind] at h
  rcases hclean : exec (CleaningStage.apply coercions.toPython ⟨some redactor⟩) ctx with
    ⟨failure | _, between⟩
  · rw [hclean] at h
    cases h
  · rw [hclean] at h
    obtain rfl := exec_cleaning hclean
    obtain ⟨record, fieldMap, mapped, signal, hrecord, hmap, hmapped, hsignal, htext⟩ :=
      exec_normalize h
    refine ⟨signal, mapped, hsignal, ?_, reached_iff hidem htext⟩
    change ctx.record = some record at hrecord
    change stage.resolve record.connectorSlug (ctx.payloadRead coercions) = some fieldMap at hmap
    change fieldMap.mappedBody coercions (ctx.payloadRead coercions) = .ok mapped at hmapped
    rw [EnrichmentContext.mappedText, hrecord]
    change (stage.resolve record.connectorSlug (ctx.payloadRead coercions)).bind _ = _
    rw [hmap]
    change (fieldMap.mappedBody coercions (ctx.payloadRead coercions)).toOption = _
    rw [hmapped]
    rfl

/-! ## A document and a structured record -/

theorem github_known : Platform.github ≠ .unknown := by decide

theorem no_keys {P : String → Prop} : ∀ key ∈ (Dict.empty : Dict String (FieldSpec Unit)).keys, P key :=
  fun _ h => nomatch h

theorem id_identifies {url text : Option (FieldSpec Unit)} {itemId : FieldSpec Unit} :
    (some itemId).isSome ∨ url.isSome ∨ text.isSome := .inl rfl

def specAt (path : String) : FieldSpec Unit := ⟨[path], false, .none, none⟩

def issues : FieldMap Unit where
  platform := .github
  timestamp := specAt "at"
  itemId := some (specAt "id")
  url := none
  title := none
  text := some (specAt "body")
  textIsHtml := false
  authorId := none
  authorHandle := none
  authorDisplayName := none
  authorProfileUrl := none
  authorFollowerCount := none
  authorVerified := none
  engagement := .empty
  metadata := .empty
  media := none
  assumeTimezone := none
  truncated := false
  contentType := "text/plain"
  known := github_known
  namespaced := no_keys
  unshadowed := no_keys
  identifiable := id_identifies

theorem letter_digest :
    IsSha256Hex "ca978112ca1bbdcafac231b39a23dc4da786eff8147c4e72b9807785afee48bb" := by
  -- A literal is the list of its characters, which are checked one by one.
  have hchars : "ca978112ca1bbdcafac231b39a23dc4da786eff8147c4e72b9807785afee48bb".toList =
      ['c', 'a', '9', '7', '8', '1', '1', '2', 'c', 'a', '1', 'b', 'b', 'd', 'c', 'a',
      'f', 'a', 'c', '2', '3', '1', 'b', '3', '9', 'a', '2', '3', 'd', 'c', '4', 'd',
      'a', '7', '8', '6', 'e', 'f', 'f', '8', '1', '4', '7', 'c', '4', 'e', '7', '2',
      'b', '9', '8', '0', '7', '7', '8', '5', 'a', 'f', 'e', 'e', '4', '8', 'b', 'b'] :=
    String.toList_ofList
  unfold IsSha256Hex
  rw [← String.length_toList, hchars, ← all_iff_forall_prop]
  decide

def sample : Coercions Unit where
  lower := id
  codecs :=
    { lookup := fun _ => none
      decode := fun codec raw =>
        if codec = "utf-8" then some (String.ofList (raw.map fun byte => Char.ofNat byte.toNat))
        else none
      decodeReplacing := fun raw => String.ofList (raw.map fun byte => Char.ofNat byte.toNat)
      charsetParam := fun _ => none
      xmlEncoding := fun _ => none
      metaCharset := fun _ => none
      detect := none }
  loads := fun _ => none
  backends := []
  int := fun _ => none
  float := fun _ => none
  text := fun _ => ""
  truthy := fun _ => true
  container := fun _ => false
  getattr := fun _ _ => .none
  canonicalizeUrl := fun _ url => url
  toUtcDatetime := fun _ _ => .moment ⟨0, some 0⟩
  isoformat := fun _ => "1970-01-01T00:00:00Z"
  simhash64 := fun _ => 0
  sha256 := fun _ => ⟨_, letter_digest⟩
  uuid5 := fun _ => "37fc6f3a826855728f8aa3c994f9f734"

def mapping : NormalizeStage Unit := ⟨fun _ _ => some issues, none⟩

def issueEvent : RawRecordEvent where
  platform := .github
  nativeId := "1"
  connectorSlug := "github"
  connectorVersion := "1"
  syncRunId := "r"
  fetchedAt := ⟨0, some 0⟩
  rawObjectKey := none
  rawSha256 := none
  rawBytes := none
  rawContentType := "application/json"
  sourceUrl := none
  requestFingerprint := none

/-- The body is the letter `a`, in the payload and in the bytes. -/
def issue (contentType : String) : EnrichmentContext Unit where
  rawBytes := some [97]
  contentType := contentType
  payload := [("id", .str "1"), ("at", .int 0), ("body", .str "a")]
  cleanedText := none
  signal := none
  pipelineVersion := "1.0.0"
  record := some issueEvent

def mask (c : Char) : Char := if c = 'a' then '*' else c

/-- It replaces the letter `a`. -/
def masking : Redactor := ⟨"mask", fun text => String.ofList (text.toList.map mask)⟩

theorem masking_idem (text : String) :
    masking.redact (masking.redact text) = masking.redact text := by
  have hmask : mask ∘ mask = mask := by
    funext c
    unfold mask
    rw [Function.comp_apply]
    split_ifs <;> simp_all
  change String.ofList ((String.ofList (text.toList.map mask)).toList.map mask) = _
  rw [String.toList_ofList, map_map, hmask]
  rfl

theorem document_redacted :
    (exec (enrich sample masking mapping) (issue "text/plain")).1 = .ok () ∧
    ∃ signal mapped,
      (exec (enrich sample masking mapping) (issue "text/plain")).2.signal = some signal ∧
      (issue "text/plain").mappedText sample mapping = some mapped ∧
      (masking.redact signal.content.text = signal.content.text ↔
        Reached masking ((issue "text/plain").documentText sample) mapped) := by
  have hrun : (exec (enrich sample masking mapping) (issue "text/plain")).1 = .ok () := by
    decide
  exact ⟨hrun, body_redacted_iff masking_idem (Prod.ext hrun rfl)⟩

/-- The body of a JSON record is stored as it is. -/
theorem structured_stored :
    (∀ text, masking.redact (masking.redact text) = masking.redact text) ∧
    (exec (enrich sample masking mapping) (issue "application/json")).1 = .ok () ∧
    ((exec (enrich sample masking mapping) (issue "application/json")).2.signal.map
      fun signal => signal.content.text) = some "a" ∧
    masking.redact "a" ≠ "a" :=
  ⟨masking_idem, by decide +kernel, by decide +kernel, by decide⟩

end OmniSense.Enrichment
