import OmniSense.Connectors.Hashing
import OmniSense.Enrichment.Cleaning

/-! `connectors/normalize/mapper.py`: a payload to a Signal, as a field map declares it. The reading
of timestamps, the canonical form of a URL and the digests are parameters. -/

namespace OmniSense.Enrichment

open Library Retrieval

variable {ω : Type}

abbrev UrlResolver := String → Option String

/-- A `tzinfo`: the UTC offset of a clock reading. -/
abbrev Timezone := ℤ → ℤ

/-- What reading a timestamp ends in: `ValueError` is caught. -/
inductive Reading
  | moment (t : Datetime)
  | valueError (message : String)
  | raised

structure Coercions (ω : Type) extends Python ω where
  int : String → Option ℤ
  float : String → Option ℚ
  text : Value ω → String
  truthy : ω → Bool
  /-- Sets and byte strings. -/
  container : ω → Bool
  getattr : Value ω → String → Value ω
  canonicalizeUrl : Option UrlResolver → String → String
  toUtcDatetime : Option Timezone → Value ω → Reading
  isoformat : Datetime → String
  simhash64 : String → ℕ
  sha256 : Bytes → Sha256Hex
  uuid5 : String → String

def utf8 (text : String) : Bytes := text.toUTF8.toList

/-! ## Values -/

/-- `path.split(".")`. -/
def segments (path : String) : List String := (path.toList.splitOn '.').map String.ofList

def sequenceIndex (length : ℕ) (i : ℤ) : Option ℕ :=
  if -length ≤ i ∧ i < length then some (if i < 0 then i + length else i).toNat else none

namespace Coercions

variable (coercions : Coercions ω)

/-- `_lookup`, along the segments of a path. -/
def lookupFrom : Value ω → List String → Value ω
  | current, [] => current
  | .none, _ :: _ => .none
  | .dict fields, segment :: rest =>
    match fields.find? fun field => field.1 = segment with
    | some field => lookupFrom field.2 rest
    | none => .none
  | .list items, segment :: rest =>
    match ((coercions.int segment).bind (sequenceIndex items.length)).bind (items[·]?) with
    | some item => lookupFrom item rest
    | none => .none
  | current, segment :: rest => lookupFrom (coercions.getattr current segment) rest

def lookup (payload : Payload ω) (path : String) : Value ω :=
  coercions.lookupFrom (.dict payload) (segments path)

/-- `_as_clean_str`: booleans and containers are refused. -/
def asCleanStr : Value ω → String
  | .none | .bool _ | .list _ | .dict _ => ""
  | .str s => strip s
  | .other object => if coercions.container object then "" else strip (coercions.text (.other object))
  | value => strip (coercions.text value)

/-- `value if isinstance(value, str) else str(value)`. -/
def string : Value ω → String
  | .str s => s
  | value => coercions.text value

def cleanText (value : Value ω) : String :=
  if value.isNone then "" else collapseWhitespace (coercions.string value)

/-- `_as_number`: booleans are refused. -/
def asNumber : Value ω → Option Counter
  | .int n => some (.int n)
  | .float q => some (.float q)
  | .str s => ((coercions.int s).map .int).or ((coercions.float s).map .float)
  | _ => none

def asCount (value : Value ω) : Option ℕ :=
  (coercions.asNumber value).bind fun
    | .int n => if 0 ≤ n then some n.toNat else none
    | .float q => if 0 ≤ q.num.tdiv q.den then some (q.num.tdiv q.den).toNat else none

/-! ## Identity -/

def identityTimestamp (moment : Datetime) : Except Failure String :=
  if moment.isAware then .ok (coercions.isoformat moment)
  else .error (.normalization .naiveTimestamp none)

def digest (text : String) : String := (coercions.sha256 (utf8 text)).hex

/-- `derive_native_id`: the first of the three rules that applies. -/
def deriveNativeId (platform : Platform) (itemId : Value ω) (url authorId : String)
    (timestamp : Option Datetime) (text : String) (urlResolver : Option UrlResolver) :
    Except Failure String :=
  let candidate := coercions.asCleanStr itemId
  let canonical := if url = "" then "" else coercions.canonicalizeUrl urlResolver url
  let cleaned := strip text
  if candidate ≠ "" then .ok candidate
  else if canonical ≠ "" then .ok (coercions.digest canonical)
  else
    match timestamp.filter fun _ => cleaned ≠ "" with
    | none => .error (.normalization .noNativeId none)
    | some moment => do
      let spelled ← coercions.identityTimestamp moment
      return coercions.digest ("|".intercalate [platform.value, authorId, spelled,
        Connectors.zeroPaddedHex 16 (coercions.simhash64 cleaned)])

def signalId (platform : Platform) (nativeId : String) : Except Failure String :=
  if nativeId = "" then .error .raised
  else .ok ("sig_" ++ coercions.uuid5 (platform.value ++ ":" ++ nativeId))

end Coercions

/-! ## Field maps -/

structure FieldSpec (ω : Type) where
  paths : List String
  required : Bool
  default : Value ω
  transform : Option (Value ω → Except Failure (Value ω))

/-- `None` and blank strings are not present; `0` and `False` are. -/
def isPresent : Value ω → Bool
  | .none => false
  | .str s => strip s ≠ ""
  | _ => true

namespace FieldSpec

variable (coercions : Coercions ω) (spec : FieldSpec ω)

def found (payload : Payload ω) : Option (Value ω) :=
  spec.paths.findSome? fun path => some (coercions.lookup payload path) |>.filter isPresent

def resolve (payload : Payload ω) (name : String) (nativeId : Option String) (strict : Bool) :
    Except Failure (Value ω) :=
  match spec.found coercions payload with
  | some value =>
    match spec.transform with
    | some transform => transform value
    | none => .ok value
  | none =>
    if spec.required && strict then .error (.normalization (.missing name spec.paths) nativeId)
    else .ok spec.default

end FieldSpec

structure MediaMap where
  container : String
  url : String
  mimeType : Option String
  kind : Option String
  defaultKind : MediaKind

def specFields : List String :=
  ["timestamp", "item_id", "url", "title", "text", "author_id", "author_handle",
    "author_display_name", "author_profile_url", "author_follower_count", "author_verified"]

/-- One provider's payload shape, with what `__post_init__` checks of it. -/
structure FieldMap (ω : Type) where
  platform : Platform
  timestamp : FieldSpec ω
  itemId : Option (FieldSpec ω)
  url : Option (FieldSpec ω)
  title : Option (FieldSpec ω)
  text : Option (FieldSpec ω)
  textIsHtml : Bool
  authorId : Option (FieldSpec ω)
  authorHandle : Option (FieldSpec ω)
  authorDisplayName : Option (FieldSpec ω)
  authorProfileUrl : Option (FieldSpec ω)
  authorFollowerCount : Option (FieldSpec ω)
  authorVerified : Option (FieldSpec ω)
  engagement : Dict String (FieldSpec ω)
  metadata : Dict String (FieldSpec ω)
  media : Option MediaMap
  assumeTimezone : Option Timezone
  truncated : Bool
  contentType : String
  known : platform ≠ .unknown
  namespaced : ∀ key ∈ metadata.keys, startsWith key (platform.value ++ ".")
  unshadowed : ∀ key ∈ engagement.keys, key ∉ specFields
  identifiable : itemId.isSome ∨ url.isSome ∨ text.isSome

structure MappingContext where
  connectorSlug : String
  connectorVersion : String
  syncRunId : String
  pipelineVersion : String

def mediaKinds : List (String × MediaKind) :=
  [("image", .image), ("video", .video), ("audio", .audio), ("document", .document)]

def mediaExtensions : List (MediaKind × List String) :=
  [(.image, [".jpg", ".jpeg", ".png", ".gif", ".webp", ".avif", ".bmp", ".svg"]),
    (.video, [".mp4", ".m4v", ".mov", ".webm", ".mkv", ".avi"]),
    (.audio, [".mp3", ".m4a", ".aac", ".ogg", ".oga", ".wav", ".flac"]),
    (.document, [".pdf", ".doc", ".docx", ".ppt", ".pptx", ".epub"])]

namespace Coercions

variable (coercions : Coercions ω)

/-- `_media_kind`: the declared kind, then the MIME type, then the extension. -/
def mediaKind (declared mime url : String) (default : MediaKind) : MediaKind :=
  let named := ([declared, mime].filter fun candidate => candidate ≠ "").findSome? fun candidate =>
    mediaKinds.lookup
      (coercions.lower (strip (String.ofList (candidate.toList.takeWhile (· != '/')))))
  let path := String.ofList ((coercions.lower url).toList.takeWhile (· != '?'))
  named.getD (((mediaExtensions.find? fun entry => entry.2.any (endsWith path)).map
    Prod.fst).getD default)

/-- `build_lineage`; the model strips its strings. -/
def buildLineage (record : RawRecord ω) (nativeId : String) (ctx : MappingContext) : Lineage where
  connectorSlug := trim ctx.connectorSlug
  connectorVersion := trim ctx.connectorVersion
  syncRunId := trim ctx.syncRunId
  fetchedAt := record.fetchedAt
  requestFingerprint := record.requestFingerprint.map trim
  rawObjectKey := none
  rawSha256 := (record.rawBytes.filter fun raw => raw ≠ []).map coercions.sha256
  rawBytes := record.rawBytes.map List.length
  rawContentType := some (trim record.contentType)
  nativeId := trim nativeId
  pipelineVersion := trim ctx.pipelineVersion

end Coercions

/-- The fields of a payload by name; `resolved.get(name)`. -/
def field (resolved : Dict String (Value ω)) (name : String) : Value ω :=
  (resolved.get? name).getD .none

def orNone (text : String) : Option String := if text = "" then none else some text

namespace FieldMap

variable (coercions : Coercions ω) (fieldMap : FieldMap ω)

/-- The slots of `_SPEC_FIELDS`. -/
def slots : List (String × Option (FieldSpec ω)) :=
  specFields.zip [some fieldMap.timestamp, fieldMap.itemId, fieldMap.url, fieldMap.title,
    fieldMap.text, fieldMap.authorId, fieldMap.authorHandle, fieldMap.authorDisplayName,
    fieldMap.authorProfileUrl, fieldMap.authorFollowerCount, fieldMap.authorVerified]

def declared (slots : List (String × Option (FieldSpec ω))) : List (String × FieldSpec ω) :=
  slots.filterMap fun slot => slot.2.map fun spec => (slot.1, spec)

def iterSpecs : List (String × FieldSpec ω) :=
  declared fieldMap.slots ++ fieldMap.engagement.items ++ fieldMap.metadata.items

def resolveInto (payload : Payload ω) :
    Dict String (Value ω) → List (String × FieldSpec ω) → Except Failure (Dict String (Value ω))
  | resolved, [] => .ok resolved
  | resolved, (name, spec) :: specs => do
    let value ← spec.resolve coercions payload name none false
    resolveInto payload (resolved.set name value) specs

/-- `_body`: the text is cleaned, so that identity sees cleaned text. -/
def body (raw : Value ω) : String :=
  if raw.isNone then ""
  else if fieldMap.textIsHtml then
    extractReadable coercions.backends (coercions.string raw) none true
  else collapseWhitespace (coercions.string raw)

def canonicalUrl (raw : Value ω) (urlResolver : Option UrlResolver) : String :=
  let text := coercions.asCleanStr raw
  if text = "" then "" else coercions.canonicalizeUrl urlResolver text

/-- `_timestamp`. -/
def moment (raw : Value ω) : Except Failure (Option Datetime × Option String) :=
  match raw with
  | .none => .ok (none, none)
  | raw =>
    match coercions.toUtcDatetime fieldMap.assumeTimezone raw with
    | .moment t => .ok (some t, none)
    | .valueError message => .ok (none, some message)
    | .raised => .error .raised

/-- `_enforce_required`: the first required field that resolved to nothing. -/
def enforceRequired (resolved : Dict String (Value ω)) (nativeId : String) : Except Failure Unit :=
  match fieldMap.iterSpecs.find? fun entry =>
      entry.2.required && (field resolved entry.1).isNone with
  | some entry => .error (.normalization (.missing entry.1 entry.2.paths) (some nativeId))
  | none => .ok ()

/-- `_author`: a handle is not promoted to an id. -/
def author (resolved : Dict String (Value ω)) (authorId : String) : Option Author :=
  if authorId = "" then none
  else some
    { platformAuthorId := authorId
      handle := orNone (coercions.asCleanStr (field resolved "author_handle"))
      displayName := orNone (coercions.asCleanStr (field resolved "author_display_name"))
      profileUrl := orNone (coercions.asCleanStr (field resolved "author_profile_url"))
      followerCount := coercions.asCount (field resolved "author_follower_count")
      verified := (field resolved "author_verified").truthy coercions.truthy }

/-- `_engagement`. -/
def counters (resolved : Dict String (Value ω)) : Dict String Counter :=
  Dict.ofList (fieldMap.engagement.keys.filterMap fun name =>
    (coercions.asNumber (field resolved name)).map fun value => (name, value))

/-- `_media`: an attachment with no URL is skipped. -/
def mediaRefs (payload : Payload ω) : List MediaRef :=
  match fieldMap.media with
  | none => []
  | some media =>
    match coercions.lookup payload media.container with
    | .list items => items.filterMap fun
      | .dict item =>
        let word := fun path => coercions.asCleanStr (coercions.lookup item path)
        let sourceUrl := word media.url
        if sourceUrl = "" then none
        else
          let canonical := coercions.canonicalizeUrl none sourceUrl
          let mime := ((media.mimeType.filter fun path => path ≠ "").map word).getD ""
          let kind := ((media.kind.filter fun path => path ≠ "").map word).getD ""
          some
            { kind := coercions.mediaKind kind mime sourceUrl media.defaultKind
              sourceUrl := trim (if canonical = "" then sourceUrl else canonical)
              mimeType := orNone mime }
      | _ => none
    | _ => []

def metadataOf (resolved : Dict String (Value ω)) : Dict String (Value ω) :=
  Dict.ofList (fieldMap.metadata.keys.filterMap fun key =>
    if (field resolved key).isNone then none else some (key, field resolved key))

/-- `Signal.create`: the id is derived, and the metadata are to stay shallow. -/
def create (nativeId : String) (timestamp : Datetime) (content : Content) (lineage : Lineage)
    (url : Option String) (author : Option Author) (media : List MediaRef)
    (engagement : Dict String Counter) (metadata : Dict String (Value ω)) :
    Except Failure (Signal ω) := do
  if lineage.nativeId ≠ nativeId then throw .raised
  let id ← coercions.signalId fieldMap.platform nativeId
  let depth := Value.depthFields metadata.items + 1
  if 3 < depth then
    throw (.normalization (.contract [s!"<signal>: Value error, metadata nests {depth} levels " ++
      "deep; the limit is 3. Flatten it or store the structure in R2 and reference the key."])
      (some nativeId))
  return { id := id, source := PLATFORM_CATEGORY fieldMap.platform, platform := fieldMap.platform,
           url := url.map trim, author := author, timestamp := timestamp, content := content,
           media := media, engagement := engagement, metadata := metadata, lineage := lineage }

/-- `FieldMap.to_signal`: everything is resolved, then identity is derived, and only then are
required fields enforced. -/
def toSignal (record : RawRecord ω) (ctx : MappingContext) (urlResolver : Option UrlResolver) :
    Except Failure (Signal ω) := do
  let resolved ← resolveInto coercions record.payload .empty fieldMap.iterSpecs
  let body := fieldMap.body coercions (field resolved "text")
  let url := canonicalUrl coercions (field resolved "url") urlResolver
  let authorId := coercions.asCleanStr (field resolved "author_id")
  let (moment, timestampError) ← fieldMap.moment coercions (field resolved "timestamp")
  let nativeId ← coercions.deriveNativeId fieldMap.platform (field resolved "item_id") url authorId
    moment body urlResolver
  fieldMap.enforceRequired resolved nativeId
  match moment with
  | none =>
    throw (.normalization (match timestampError with
      | some message => .unusable "timestamp" message
      | none => .missing "timestamp" fieldMap.timestamp.paths) (some nativeId))
  | some moment =>
    let lineage := coercions.buildLineage record nativeId ctx
    let content := Content.create (orNone (coercions.cleanText (field resolved "title"))) body
      fieldMap.truncated fieldMap.contentType none lineage.rawSha256
    fieldMap.create coercions nativeId moment content lineage (orNone url)
      (author coercions resolved authorId) (fieldMap.mediaRefs coercions record.payload)
      (fieldMap.counters coercions resolved) (fieldMap.metadataOf resolved)

end FieldMap

end OmniSense.Enrichment
