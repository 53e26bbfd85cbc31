import OmniSense.Enrichment.Mapper
import OmniSense.Enrichment.Urls

/-! `FieldMap.to_signal` step by step, with the exceptions that Python raises in it. -/

namespace OmniSense.Enrichment

open Library Retrieval

variable {ω α : Type}

inductive PyError
  | valueError (message : String)
  | typeError
  | overflowError
  | other

inductive Raised
  | normalization (fault : NormalizationFault) (nativeId : Option String)
  | python (error : PyError)

inductive Number
  | int (n : ℤ)
  | float (q : ℚ)
  | infinite (negative : Bool)
  | nan

inductive Instance
  | datetime (t : Datetime)
  | structTime (parts : List ℤ)
  -- A float that is not finite.
  | float (number : Number)
  | object

structure Runtime (ω : Type) where
  coercions : Coercions ω
  unicode : Url.Unicode
  printable : ω → Bool
  isinstance : ω → Instance
  typeName : Value ω → String
  repr : String → String
  parseFloat : String → Option Number
  -- `float(value)`, and `value / 1000.0`.
  asFloat : Number → Except PyError Number
  thousandth : Number → Except PyError Number
  fromtimestamp : Number → Except PyError Datetime
  datetime : List ℤ → Except PyError Datetime
  fromisoformat : String → Except PyError Datetime
  parsedateToDatetime : String → Except PyError Datetime
  strptime : String → String → Except PyError Datetime
  astimezone : Datetime → Except PyError Datetime

def python (error : PyError) : Except Raised α := .error (.python error)

def failing : Except Failure α → Except Raised α
  | .ok a => .ok a
  | .error (.normalization fault nativeId) => .error (.normalization fault nativeId)
  | .error _ => python .other

/-! ## Values -/

/-- `str` refuses an integer of more digits. -/
def isPrintable (n : ℤ) : Bool := n.natAbs < 10 ^ Url.MAX_STR_DIGITS

namespace Runtime

variable (runtime : Runtime ω)

mutual

/-- `str(value)` does not raise. -/
def prints : Value ω → Bool
  | .int n => isPrintable n
  | .list items => printsItems items
  | .dict fields => printsFields fields
  | .other object => runtime.printable object
  | _ => true

def printsItems : List (Value ω) → Bool
  | [] => true
  | item :: items => prints item && printsItems items

def printsFields : List (String × Value ω) → Bool
  | [] => true
  | (_, value) :: fields => prints value && printsFields fields

end

variable (value : Value ω)

/-- `str(value)`. -/
def str : Except Raised String :=
  if runtime.prints value then .ok (runtime.coercions.text value)
  else python (.valueError "Exceeds the limit (4300 digits) for integer string conversion")

def asCleanStr : Value ω → Except Raised String
  | .none | .bool _ | .list _ | .dict _ => .ok ""
  | .str s => .ok (strip s)
  | .other object =>
    if runtime.coercions.container object then .ok ""
    else do
      let text ← runtime.str (.other object)
      return strip text
  | value => do
    let text ← runtime.str value
    return strip text

/-- `value if isinstance(value, str) else str(value)`. -/
def string : Value ω → Except Raised String
  | .str s => .ok s
  | value => runtime.str value

def cleanText : Except Raised String :=
  if value.isNone then .ok ""
  else do
    let text ← runtime.string value
    return collapseWhitespace text

def asNumber : Value ω → Option Number
  | .int n => some (.int n)
  | .float q => some (.float q)
  | .str s => ((runtime.coercions.int s).map .int).or (runtime.parseFloat s)
  | .other object =>
    match runtime.isinstance object with
    | .float number => some number
    | _ => none
  | _ => none

/-- `_as_count`: `int(number)` is not to be had of every float. -/
def asCount : Except Raised (Option ℕ) :=
  match runtime.asNumber value with
  | none => .ok none
  | some (.int n) => .ok (if 0 ≤ n then some n.toNat else none)
  | some (.float q) =>
    .ok (if 0 ≤ q.num.tdiv q.den then some (q.num.tdiv q.den).toNat else none)
  | some (.infinite _) => python .overflowError
  | some .nan => python (.valueError "cannot convert float NaN to integer")

/-! ## Timestamps -/

def attachTimezone (moment : Datetime) (assumeTimezone : Option Timezone) :
    Except PyError Datetime :=
  if moment.isAware then runtime.astimezone moment
  else
    match assumeTimezone with
    | some zone => runtime.astimezone { moment with utcoffset := some (zone moment.wall) }
    | none => .error (.valueError ("timestamp is timezone-naive and the field map declares no " ++
        "assume_timezone; set it to what the provider documents rather than letting UTC be guessed"))

def strptimeAny (text : String) : List String → Except PyError Datetime
  | [] => .error (.valueError ("unrecognized timestamp format " ++ runtime.repr text))
  | pattern :: patterns =>
    match runtime.strptime text pattern with
    | .error (.valueError _) => strptimeAny text patterns
    | result => result

def timestampPatterns : List String :=
  ["%Y-%m-%d %H:%M:%S", "%Y%m%d%H%M%S", "%Y%m%d", "%Y-%m-%d"]

/-- `text.replace("Z", "+00:00")`. -/
def replaceZulu (text : String) : String :=
  String.ofList (text.toList.flatMap fun c => if c = 'Z' then "+00:00".toList else [c])

def parseDatetimeString (value : String) : Except PyError Datetime :=
  let text := strip value
  if text = "" then .error (.valueError "empty timestamp")
  else
    match runtime.fromisoformat (replaceZulu text) with
    | .error (.valueError _) =>
      match runtime.parsedateToDatetime text with
      | .error (.valueError _) | .error .typeError => runtime.strptimeAny text timestampPatterns
      | result => result
    | result => result

def fromNumber (number : Number) : Except PyError Datetime :=
  let large : Bool := match number with
    | .int n => 100000000000 < n.natAbs
    | .float q => 100000000000 < q ∨ q < -100000000000
    | .infinite _ => true
    | .nan => false
  do
    let seconds ← if large then runtime.thousandth number else runtime.asFloat number
    runtime.fromtimestamp seconds

def toUtcDatetime (assumeTimezone : Option Timezone) : Except PyError Datetime :=
  match value with
  | .bool _ => .error (.valueError "a boolean is not a timestamp")
  | .int n => runtime.fromNumber (.int n)
  | .float q => runtime.fromNumber (.float q)
  | .str s => do
    let moment ← runtime.parseDatetimeString s
    runtime.attachTimezone moment assumeTimezone
  | .other object =>
    match runtime.isinstance object with
    | .datetime moment => runtime.attachTimezone moment assumeTimezone
    | .structTime parts => runtime.datetime (parts.take 6)
    | .float number => runtime.fromNumber number
    | .object =>
      .error (.valueError ("unsupported timestamp type " ++ runtime.typeName (.other object)))
  | value => .error (.valueError ("unsupported timestamp type " ++ runtime.typeName value))

/-- `_timestamp`: of all exceptions, `ValueError` is caught. -/
def timestamp (raw : Value ω) (assumeTimezone : Option Timezone) :
    Except Raised (Option Datetime × Option String) :=
  if raw.isNone then .ok (none, none)
  else
    match runtime.toUtcDatetime raw assumeTimezone with
    | .ok moment => .ok (some moment, none)
    | .error (.valueError message) => .ok (none, some message)
    | .error error => python error

/-! ## Identity -/

def canonicalizeUrl (urlResolver : Option UrlResolver) (url : String) : Except Raised String :=
  let resolver := urlResolver.map fun resolve (text : List Char) =>
    (resolve (String.ofList text)).map String.toList
  match runtime.unicode.canonicalizeUrl resolver url.toList with
  | some canonical => .ok (String.ofList canonical)
  | none => python (.valueError "not a URL")

/-- The third rule of `derive_native_id`. -/
def textIdentity (platform : Platform) (authorId : String) (timestamp : Option Datetime)
    (text : String) : Except Raised String :=
  let cleaned := strip text
  match timestamp.filter fun _ => cleaned ≠ "" with
  | none => .error (.normalization .noNativeId none)
  | some moment => do
    let spelled ← failing (runtime.coercions.identityTimestamp moment)
    return runtime.coercions.digest ("|".intercalate [platform.value, authorId, spelled,
      Connectors.zeroPaddedHex 16 (runtime.coercions.simhash64 cleaned)])

/-- `derive_native_id`: the first of the three rules that applies. -/
def deriveNativeId (platform : Platform) (itemId : Value ω) (url authorId : String)
    (timestamp : Option Datetime) (text : String) (urlResolver : Option UrlResolver) :
    Except Raised String := do
  let candidate ← runtime.asCleanStr itemId
  if candidate ≠ "" then return candidate
  let canonical ← (if url = "" then .ok "" else runtime.canonicalizeUrl urlResolver url)
  if canonical ≠ "" then return runtime.coercions.digest canonical
  runtime.textIdentity platform authorId timestamp text

end Runtime

/-! ## The mapping -/

structure CreatedSignal (ω : Type) where
  id : String
  source : SourceCategory
  platform : Platform
  url : Option String
  author : Option Author
  timestamp : Datetime
  content : Content
  media : List MediaRef
  engagement : Dict String Number
  metadata : Dict String (Value ω)
  lineage : Lineage

structure Identified (ω : Type) where
  resolved : Dict String (Value ω)
  body : String
  url : String
  authorId : String
  moment : Option Datetime
  timestampError : Option String
  nativeId : String

namespace Runtime

variable (runtime : Runtime ω) (fieldMap : FieldMap ω)

def body (raw : Value ω) : Except Raised String :=
  if raw.isNone then .ok ""
  else do
    let text ← runtime.string raw
    return if fieldMap.textIsHtml then extractReadable runtime.coercions.backends text none true
      else collapseWhitespace text

def canonicalUrl (raw : Value ω) (urlResolver : Option UrlResolver) : Except Raised String := do
  let text ← runtime.asCleanStr raw
  if text = "" then return "" else runtime.canonicalizeUrl urlResolver text

variable (resolved : Dict String (Value ω))

def author (authorId : String) :
    Except Raised (Option Author) :=
  if authorId = "" then .ok none
  else do
    let handle ← runtime.asCleanStr (field resolved "author_handle")
    let displayName ← runtime.asCleanStr (field resolved "author_display_name")
    let profileUrl ← runtime.asCleanStr (field resolved "author_profile_url")
    let followerCount ← runtime.asCount (field resolved "author_follower_count")
    return some
      { platformAuthorId := authorId
        handle := orNone handle
        displayName := orNone displayName
        profileUrl := orNone profileUrl
        followerCount := followerCount
        verified := (field resolved "author_verified").truthy runtime.coercions.truthy }

/-- `_engagement`. -/
def counters : Dict String Number :=
  Dict.ofList (fieldMap.engagement.keys.filterMap fun name =>
    (runtime.asNumber (field resolved name)).map fun value => (name, value))

def mediaWord (item : Payload ω) (path : Option String) : Except Raised String :=
  match path.filter fun path => path ≠ "" with
  | some path => runtime.asCleanStr (runtime.coercions.lookup item path)
  | none => .ok ""

def mediaOf (media : MediaMap) (item : Payload ω) (sourceUrl : String) :
    Except Raised (Option MediaRef) := do
  let mime ← runtime.mediaWord item media.mimeType
  let declared ← runtime.mediaWord item media.kind
  let canonical ← runtime.canonicalizeUrl none sourceUrl
  return some
    { kind := runtime.coercions.mediaKind declared mime sourceUrl media.defaultKind
      sourceUrl := trim (if canonical = "" then sourceUrl else canonical)
      mimeType := orNone mime }

def mediaRef (media : MediaMap) (item : Payload ω) : Except Raised (Option MediaRef) := do
  let sourceUrl ← runtime.asCleanStr (runtime.coercions.lookup item media.url)
  if sourceUrl = "" then return none else runtime.mediaOf media item sourceUrl

def sequence : Value ω → List (Value ω)
  | .list items => items
  | _ => []

/-- The loop of `_media`. -/
def mediaItems (media : MediaMap) : List (Value ω) → Except Raised (List MediaRef)
  | [] => .ok []
  | .dict item :: items => do
    let found ← runtime.mediaRef media item
    let refs ← mediaItems media items
    return found.toList ++ refs
  | _ :: items => mediaItems media items

/-- `_media`. -/
def mediaRefs (payload : Payload ω) : Except Raised (List MediaRef) :=
  match fieldMap.media with
  | none => .ok []
  | some media =>
    runtime.mediaItems media (sequence (runtime.coercions.lookup payload media.container))

variable (record : RawRecord ω)

/-- `build_lineage`: its model wants an aware time, which it takes to UTC. -/
def lineage (nativeId : String) (ctx : MappingContext) :
    Except Raised Lineage :=
  let refused (message : String) : Except Raised Lineage :=
    .error (.normalization (.contract ["fetched_at: Value error, " ++ message]) (some nativeId))
  if record.fetchedAt.isAware then
    match runtime.astimezone record.fetchedAt with
    | .ok fetchedAt => .ok { runtime.coercions.buildLineage record nativeId ctx with fetchedAt }
    | .error (.valueError message) => refused message
    | .error error => python error
  else refused ("datetime must be timezone-aware; naive values are ambiguous across process " ++
    "boundaries. Attach tzinfo at the connector boundary, e.g. datetime.now(UTC), once you have " ++
    "confirmed the source's timezone.")

def create (nativeId : String) (timestamp : Datetime) (content : Content) (lineage : Lineage)
    (url : Option String) (author : Option Author) (media : List MediaRef)
    (engagement : Dict String Number) (metadata : Dict String (Value ω)) :
    Except Raised (CreatedSignal ω) := do
  if lineage.nativeId ≠ nativeId then
    python (.valueError "native_id disagrees with lineage.native_id; they are the same value")
  let id ← failing (runtime.coercions.signalId fieldMap.platform nativeId)
  let depth := Value.depthFields metadata.items + 1
  if 3 < depth then
    .error (.normalization (.contract [s!"<signal>: Value error, metadata nests {depth} levels " ++
      "deep; the limit is 3. Flatten it or store the structure in R2 and reference the key."])
      (some nativeId))
  return { id := id, source := PLATFORM_CATEGORY fieldMap.platform, platform := fieldMap.platform,
           url := url.map trim, author := author, timestamp := timestamp, content := content,
           media := media, engagement := engagement, metadata := metadata, lineage := lineage }

/-- `FieldMap.to_signal`, as far as the identity. -/
def identify (urlResolver : Option UrlResolver) :
    Except Raised (Identified ω) := do
  let resolved ← failing (FieldMap.resolveInto runtime.coercions record.payload .empty
    fieldMap.iterSpecs)
  let body ← runtime.body fieldMap (field resolved "text")
  let url ← runtime.canonicalUrl (field resolved "url") urlResolver
  let authorId ← runtime.asCleanStr (field resolved "author_id")
  let reading ← runtime.timestamp (field resolved "timestamp") fieldMap.assumeTimezone
  let nativeId ← runtime.deriveNativeId fieldMap.platform (field resolved "item_id") url authorId
    reading.1 body urlResolver
  return { resolved := resolved, body := body, url := url, authorId := authorId,
           moment := reading.1, timestampError := reading.2, nativeId := nativeId }

variable (ctx : MappingContext)

variable (extraMetadata : Dict String (Value ω))

/-- `FieldMap.to_signal`, of a record with an identity and a time. -/
def compose
    (found : Identified ω) (moment : Datetime) : Except Raised (CreatedSignal ω) := do
  let title ← runtime.cleanText (field found.resolved "title")
  let content := Content.create (orNone title) found.body fieldMap.truncated fieldMap.contentType
    none ((record.rawBytes.filter fun raw => raw ≠ []).map runtime.coercions.sha256)
  let metadata := extraMetadata.items.foldl (fun metadata entry => metadata.set entry.1 entry.2)
    (fieldMap.metadataOf found.resolved)
  let lineage ← runtime.lineage record found.nativeId ctx
  let author ← runtime.author found.resolved found.authorId
  let media ← runtime.mediaRefs fieldMap record.payload
  runtime.create fieldMap found.nativeId moment content lineage (orNone found.url) author media
    (runtime.counters fieldMap found.resolved) metadata

/-- `FieldMap.to_signal`, once the identity is known. -/
def assemble
    (found : Identified ω) : Except Raised (CreatedSignal ω) := do
  failing (fieldMap.enforceRequired found.resolved found.nativeId)
  match found.moment with
  | none =>
    .error (.normalization (match found.timestampError with
      | some message => .unusable "timestamp" message
      | none => .missing "timestamp" fieldMap.timestamp.paths) (some found.nativeId))
  | some moment => runtime.compose fieldMap record ctx extraMetadata found moment

def toSignal (urlResolver : Option UrlResolver)
    (extraMetadata : Dict String (Value ω)) : Except Raised (CreatedSignal ω) := do
  let found ← runtime.identify fieldMap record urlResolver
  runtime.assemble fieldMap record ctx extraMetadata found

end Runtime

end OmniSense.Enrichment
