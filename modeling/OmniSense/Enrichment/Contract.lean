import Mathlib.Data.Rat.Init
import OmniSense.Library.Reflow
import OmniSense.Retrieval.Filters

/-! What stages 1 and 2 of the enrichment pipeline exchange: the values of a provider's payload, the
record, the event that announced it, and the Signal, whose models strip every string. -/

namespace OmniSense.Enrichment

open Library Retrieval

abbrev Bytes := List UInt8

/-! ## Strings of a model -/

/-- The Unicode property `White_Space`. -/
def isWhiteSpace (c : Char) : Bool :=
  let n := c.toNat
  (9 ≤ n ∧ n ≤ 13) ∨ n = 32 ∨ n = 0x85 ∨ n = 0xa0 ∨ n = 0x1680 ∨ (0x2000 ≤ n ∧ n ≤ 0x200a) ∨
    n = 0x2028 ∨ n = 0x2029 ∨ n = 0x202f ∨ n = 0x205f ∨ n = 0x3000

/-- `str_strip_whitespace`: unlike `str.strip`, it leaves U+001C to U+001F. -/
def trim (s : String) : String := String.ofList (stripEnds isWhiteSpace s.toList)

theorem isSpace_of_isWhiteSpace {c : Char} (h : isWhiteSpace c = true) : isSpace c = true := by
  simp only [isWhiteSpace, isSpace, decide_eq_true_eq] at h ⊢
  omega

variable (s : String)

theorem strip_eq : strip s = String.ofList (stripEnds isSpace s.toList) := rfl

theorem trim_strip : trim (strip s) = strip s := by
  rw [trim, strip_eq, String.toList_ofList,
    stripEnds_stripEnds (fun _ => isSpace_of_isWhiteSpace) s.toList]

theorem trim_trim : trim (trim s) = trim s := by
  rw [trim, trim, String.toList_ofList, stripEnds_stripEnds (fun _ h => h) s.toList]

/-- `^[0-9a-f]{64}$`. -/
def IsSha256Hex (s : String) : Prop :=
  s.length = 64 ∧ ∀ c ∈ s.toList, ('0' ≤ c ∧ c ≤ '9') ∨ ('a' ≤ c ∧ c ≤ 'f')

structure Sha256Hex where
  hex : String
  valid : IsSha256Hex hex

/-! ## Payloads -/

/-- A value of a payload; `other` is any object of Python that the rest does not name. -/
inductive Value (ω : Type)
  | none
  | bool (b : Bool)
  | int (n : ℤ)
  | float (q : ℚ)
  | str (s : String)
  | list (items : List (Value ω))
  | dict (fields : List (String × Value ω))
  | other (object : ω)

abbrev Payload (ω : Type) := List (String × Value ω)

variable {ω : Type}

namespace Value

/-- `value is None`. -/
def isNone : Value ω → Bool
  | none => true
  | _ => false

def truthy (special : ω → Bool) : Value ω → Bool
  | none => false
  | bool b => b
  | int n => n ≠ 0
  | float q => q ≠ 0
  | str s => s ≠ ""
  | list items => !items.isEmpty
  | dict fields => !fields.isEmpty
  | other object => special object

/-! `_json_depth`: the levels of containers. -/

mutual

def depth : Value ω → ℕ
  | list items => depthItems items + 1
  | dict fields => depthFields fields + 1
  | _ => 0

def depthItems : List (Value ω) → ℕ
  | [] => 0
  | item :: items => max item.depth (depthItems items)

def depthFields : List (String × Value ω) → ℕ
  | [] => 0
  | (_, value) :: fields => max value.depth (depthFields fields)

end

end Value

/-! ## The record -/

structure RawRecordEvent where
  platform : Platform
  nativeId : String
  connectorSlug : String
  connectorVersion : String
  syncRunId : String
  fetchedAt : Datetime
  rawObjectKey : Option String
  rawSha256 : Option Sha256Hex
  rawBytes : Option ℕ
  rawContentType : String
  sourceUrl : Option String
  requestFingerprint : Option String

structure RawRecord (ω : Type) where
  nativeId : String
  payload : Payload ω
  fetchedAt : Datetime
  rawBytes : Option Bytes
  contentType : String
  sourceUrl : Option String
  requestFingerprint : Option String

/-! ## The Signal -/

def PLATFORM_CATEGORY : Platform → SourceCategory
  | .reddit | .x | .youtube | .instagram | .tiktok | .linkedin => .social
  | .amazon | .playStore | .appStore | .trustpilot | .googleReviews => .reviews
  | .slack | .jira | .confluence | .notion | .github | .salesforce | .hubspot => .enterprise
  | .arxiv | .semanticScholar | .papersWithCode => .research
  | .rss | .gdelt | .newsApi => .news
  | .unknown => .unknown

structure Content where
  title : Option String
  text : String
  charCount : ℕ
  truncated : Bool
  contentType : String
  rawRef : Option String
  rawSha256 : Option Sha256Hex
  trimmed : trim text = text

/-- `Content(..)`: `char_count` is taken before the text is stripped. -/
def Content.create (title : Option String) (text : String) (truncated : Bool)
    (contentType : String) (rawRef : Option String) (rawSha256 : Option Sha256Hex) : Content where
  title := title.map trim
  text := trim text
  charCount := text.length
  truncated := truncated
  contentType := trim contentType
  rawRef := rawRef.map trim
  rawSha256 := rawSha256
  trimmed := trim_trim text

structure Author where
  platformAuthorId : String
  handle : Option String
  displayName : Option String
  profileUrl : Option String
  followerCount : Option ℕ
  verified : Bool

inductive MediaKind
  | image | video | audio | document | unknown
  deriving DecidableEq, Repr

structure MediaRef where
  kind : MediaKind
  sourceUrl : String
  mimeType : Option String

inductive Counter
  | int (n : ℤ)
  | float (q : ℚ)

structure Lineage where
  connectorSlug : String
  connectorVersion : String
  syncRunId : String
  fetchedAt : Datetime
  requestFingerprint : Option String
  rawObjectKey : Option String
  rawSha256 : Option Sha256Hex
  rawBytes : Option ℕ
  rawContentType : Option String
  nativeId : String
  pipelineVersion : String

structure Signal (ω : Type) where
  id : String
  source : SourceCategory
  platform : Platform
  url : Option String
  author : Option Author
  timestamp : Datetime
  content : Content
  media : List MediaRef
  engagement : Dict String Counter
  metadata : Dict String (Value ω)
  lineage : Lineage

structure EnrichmentContext (ω : Type) where
  rawBytes : Option Bytes
  contentType : String
  payload : Payload ω
  cleanedText : Option String
  signal : Option (Signal ω)
  pipelineVersion : String
  record : Option RawRecordEvent

/-! ## Failures -/

inductive CleaningFault
  | noRawBytes | nothingToNormalize | emptyDocument | notJson | notObject | nulBytes
  deriving DecidableEq, Repr

inductive NormalizationFault
  | noRecord
  | noPayload
  | unmapped
  | noNativeId
  | naiveTimestamp
  | missing (field : String) (paths : List String)
  | unusable (field message : String)
  | contract (problems : List String)
  | otherIdentity (mapped expected : String)
  deriving DecidableEq, Repr

/-- What a stage raises; `raised` is an exception that neither stage catches. -/
inductive Failure
  | cleaning (fault : CleaningFault)
  | notImplemented
  | normalization (fault : NormalizationFault) (nativeId : Option String)
  | raised
  deriving DecidableEq, Repr

end OmniSense.Enrichment
