import OmniSense.Enrichment.Contract
import OmniSense.Library.Effect

/-! Stage 1 of the enrichment pipeline: the readable text of a document, and the text body of a record. -/

namespace OmniSense.Enrichment

open Library

/-! `connectors/normalize/html.py`: whitespace, and the readable text of a document. What its
backends make of a document is a parameter. -/

/-! ## Whitespace -/

def zeroWidthAndSpaces (c : Char) : Option Char :=
  let n := c.toNat
  if n = 0xad ∨ n = 0x200b ∨ n = 0x200c ∨ n = 0x200d ∨ n = 0x2060 ∨ n = 0xfeff then none
  else if n = 0xa0 ∨ n = 0x2002 ∨ n = 0x2003 ∨ n = 0x2007 ∨ n = 0x2009 ∨ n = 0x202f ∨
      n = 0x205f ∨ n = 0x3000 then some ' '
  else some c

/-- `replace("\r\n", "\n").replace("\r", "\n")`. -/
@[grind =] def newlines : List Char → List Char
  | [] => []
  | c :: rest =>
    if c ≠ '\r' then c :: newlines rest
    else if rest.head? = some '\n' then newlines rest
    else '\n' :: newlines rest

/-- `[^\S\n]`. -/
def isHorizontal (c : Char) : Bool := isSpace c && c != '\n'

/-- `[^\S\n]+` to one blank. -/
@[grind =] def horizontalRun : List Char → List Char
  | [] => []
  | c :: rest =>
    if !isHorizontal c then c :: horizontalRun rest
    else if rest.head?.any isHorizontal then horizontalRun rest
    else ' ' :: horizontalRun rest

@[grind =] def beforeNewlines : List Char → List Char
  | [] => []
  | c :: rest =>
    if isHorizontal c && (rest.dropWhile isHorizontal).head? == some '\n' then beforeNewlines rest
    else c :: beforeNewlines rest

/-- `[^\S\n]*\n[^\S\n]*` to one newline. -/
def lineEdges (text : List Char) : List Char :=
  (beforeNewlines (beforeNewlines text).reverse).reverse

/-- `\n{3,}` to two. -/
@[grind =] def blankRun : List Char → List Char
  | [] => []
  | c :: rest => if c == '\n' && rest.take 2 == ['\n', '\n'] then blankRun rest else c :: blankRun rest

variable (text : String)

def collapseWhitespace : String :=
  if text = "" then ""
  else strip (String.ofList (blankRun (lineEdges (horizontalRun (newlines
    (text.toList.filterMap zeroWidthAndSpaces))))))

theorem trim_collapseWhitespace :
    trim (collapseWhitespace text) = collapseWhitespace text := by
  rw [collapseWhitespace]
  split_ifs
  · rfl
  · exact trim_strip _

/-! ## Readable text -/

def isLetter (c : Char) : Bool := ('a' ≤ c && c ≤ 'z') || ('A' ≤ c && c ≤ 'Z')

def isTagChar (c : Char) : Bool := isLetter c || ('0' ≤ c && c ≤ '9') || c == '-'

/-- `\s|/?>`. -/
def endsTagName : List Char → Bool
  | '/' :: '>' :: _ => true
  | c :: _ => c == '>' || isSpace c
  | [] => false

/-- `<\s*(?:!doctype|[a-zA-Z][a-zA-Z0-9-]*)(?:\s|/?>)`, from the start of the text. -/
def tagHint (text : List Char) : Bool :=
  match text with
  | '<' :: rest =>
    let name := rest.dropWhile isSpace
    if "!doctype".toList.isPrefixOf name then endsTagName (name.drop 8)
    else name.head?.any isLetter && endsTagName (name.dropWhile isTagChar)
  | _ => false

def looksLikeHtml (source : String) : Bool := source.toList.tails.any tagHint

/-- What a backend makes of a document at an address, with or without its tables; `none` where it
raises. -/
abbrev Backend := String → Option String → Bool → Option String

/-- `extract_readable` of a text. -/
def extractReadable (backends : List Backend) (source : String) (url : Option String)
    (includeTables : Bool) : String :=
  if strip source = "" then ""
  else if !looksLikeHtml source then collapseWhitespace source
  else
    match backends.findSome? fun backend =>
        (backend source url includeTables).filter fun extracted => strip extracted ≠ "" with
    | some extracted => collapseWhitespace extracted
    | none => ""

theorem trim_extractReadable (backends : List Backend) (source : String) (url : Option String)
    (includeTables : Bool) :
    trim (extractReadable backends source url includeTables) =
      extractReadable backends source url includeTables := by
  rw [extractReadable]
  split_ifs
  · rfl
  · exact trim_collapseWhitespace source
  · split
    · exact trim_collapseWhitespace _
    · rfl

/-! `services/signal_engine/cleaning.py`, stage 1: the record's bytes to a text body. The codecs,
their patterns and the charset detector are parameters, as are the parser of JSON and the backends
of the extractor. -/

section

/-! ## Content types -/

inductive ContentFamily
  | markup | plain | structured | binary
  deriving DecidableEq, Repr

def markupTypes : List String :=
  ["text/html", "application/xhtml+xml", "text/xml", "application/xml"]

def structuredTypes : List String := ["application/json", "text/json", "application/x-ndjson"]

def binaryTypes : List String :=
  ["application/pdf", "application/zip", "application/gzip", "application/msword",
    "application/vnd.ms-excel",
    "application/vnd.openxmlformats-officedocument.wordprocessingml.document",
    "application/vnd.openxmlformats-officedocument.presentationml.presentation",
    "application/vnd.openxmlformats-officedocument.spreadsheetml.sheet",
    "application/vnd.oasis.opendocument.text", "application/epub+zip"]

def binaryPrefixes : List String := ["image/", "audio/", "video/", "font/"]

def startsWith (text start : String) : Bool := start.toList.isPrefixOf text.toList

def endsWith (text final : String) : Bool := final.toList.isSuffixOf text.toList

/-- A type in no table is `plain`, as those of `_PLAIN_TYPES` are. -/
def classifyContentType (lower : String → String) (contentType : Option String) : ContentFamily :=
  let contentType := contentType.getD ""
  let essence := lower (strip (String.ofList (contentType.toList.takeWhile fun c => c != ';')))
  if contentType = "" ∨ essence = "" then .plain
  else if essence ∈ binaryTypes ∨ binaryPrefixes.any (startsWith essence) then .binary
  else if essence ∈ structuredTypes ∨ endsWith essence "+json" then .structured
  else if essence ∈ markupTypes ∨ endsWith essence "+xml" then .markup
  else .plain

/-! ## Decoding -/

/-- The codecs of Python, the patterns that find a charset, and the detector, where installed. -/
structure Codecs where
  lookup : String → Option String
  decode : String → Bytes → Option String
  decodeReplacing : Bytes → String
  charsetParam : String → Option String
  xmlEncoding : String → Option String
  metaCharset : String → Option String
  detect : Option (Bytes → Option String)

def boms : List (Bytes × String) :=
  [([0, 0, 0xfe, 0xff], "utf-32-be"), ([0xff, 0xfe, 0, 0], "utf-32-le"),
    ([0xef, 0xbb, 0xbf], "utf-8-sig"), ([0xfe, 0xff], "utf-16-be"), ([0xff, 0xfe], "utf-16-le")]

def neverFails : List String :=
  ["iso8859-1", "iso8859-2", "iso8859-4", "iso8859-5", "iso8859-9", "iso8859-13", "iso8859-15",
    "iso8859-16", "cp1250", "cp1251", "cp1252", "cp1253", "cp1254", "cp1257", "mac-roman", "cp437",
    "cp850"]

def labelOverrides (canonical : String) : String :=
  if canonical = "iso8859-1" ∨ canonical = "ascii" then "cp1252" else canonical

def minSniffHighBytes : ℕ := 16

def sniffWindow : ℕ := 8192

def isWide (codec : String) : Bool := startsWith codec "utf-16" || startsWith codec "utf-32"

def stripBom : String :=
  match text.toList with
  | c :: rest => if c.toNat = 0xfeff then String.ofList rest else text
  | [] => text

def bomCodec (raw : Bytes) : Option String :=
  (boms.find? fun mark => mark.1.isPrefixOf raw).map Prod.snd

namespace Codecs

variable (codecs : Codecs)

/-- `_normalize_codec`: an unknown label is dropped. -/
def normalize (name : Option String) : Option String :=
  (name.filter fun label => label ≠ "").bind fun label => (codecs.lookup label).map labelOverrides

/-- `_charset_from_document`: the declaration in the first 2 KiB, read as ASCII. -/
def charsetFromDocument (raw : Bytes) : Option String :=
  let head := String.ofList (((raw.take 2048).filter fun byte => byte < 0x80).map fun byte =>
    Char.ofNat byte.toNat)
  (codecs.xmlEncoding head).or (codecs.metaCharset head)

def isMultibyteUtf8 (raw : Bytes) : Bool :=
  raw.any (fun byte => 0x80 ≤ byte) && (codecs.decode "utf-8" raw).isSome

def sniff (raw : Bytes) : Option String :=
  codecs.detect.bind fun detect =>
    if ((raw.take sniffWindow).filter fun byte => 0x7f < byte).length < minSniffHighBytes then none
    else codecs.normalize (detect raw)

def decodeDeclared (raw : Bytes) (declared : String) : Option String :=
  if declared ∈ neverFails ∧ codecs.isMultibyteUtf8 raw then codecs.decode "utf-8" raw
  else
    codecs.decode (if declared = "utf-8" ∧ bomCodec raw = some "utf-8-sig" then "utf-8-sig"
      else declared) raw

/-- `decode_bytes`: the first attempt that succeeds, in descending order of evidence. -/
def decodeBytes (raw : Bytes) (contentType : Option String) : String :=
  if raw = [] then ""
  else
    let declared := codecs.normalize
      ((contentType.filter fun text => text ≠ "").bind codecs.charsetParam)
    let mark := bomCodec raw
    let inBand := codecs.normalize (codecs.charsetFromDocument raw)
    let attempts : List (Option String) :=
      [(mark.filter fun codec => isWide codec && !declared.any isWide).bind fun codec =>
          codecs.decode codec raw,
        declared.bind (codecs.decodeDeclared raw),
        mark.bind fun codec => codecs.decode codec raw,
        (inBand.filter fun codec => codec ∉ neverFails).bind fun codec => codecs.decode codec raw,
        codecs.decode "utf-8" raw,
        inBand.bind fun codec => codecs.decode codec raw,
        (codecs.sniff raw).bind fun codec => codecs.decode codec raw]
    stripBom ((attempts.findSome? id).getD (codecs.decodeReplacing raw))

end Codecs

/-! ## Cleaning -/

structure Redactor where
  name : String
  redact : String → String

structure Python (ω : Type) where
  lower : String → String
  codecs : Codecs
  loads : String → Option (Value ω)
  backends : List Backend

variable {ω : Type} (python : Python ω)

inductive Source
  | text (text : String)
  | bytes (raw : Bytes)

namespace Python

/-- `_clean_document` before redaction. -/
def readable (text : String) (family : ContentFamily) (url : Option String) : String :=
  if family = .markup then extractReadable python.backends text url true
  else collapseWhitespace text

/-- `_clean_document`: redaction runs last, on contiguous prose. -/
def cleanDocument (text : String) (family : ContentFamily) (url : Option String)
    (redactor : Option Redactor) : Except Failure String :=
  if strip text = "" then .ok ""
  else if text.toList.any fun c => c.toNat = 0 then .error (.cleaning .nulBytes)
  else
    let cleaned := python.readable text family url
    .ok (match redactor with
      | some redactor => redactor.redact cleaned
      | none => cleaned)

def cleanText (source : Source) (contentType : Option String) (url : Option String)
    (redactor : Option Redactor) : Except Failure String :=
  let family := classifyContentType python.lower contentType
  if family = .binary then .error .notImplemented
  else
    let text := match source with
      | .text text => text
      | .bytes raw => python.codecs.decodeBytes raw contentType
    python.cleanDocument text family url redactor

end Python

/-! ## The stage -/

structure CleaningStage where
  redactor : Option Redactor

namespace CleaningStage

abbrev Step (ω : Type) := Effect (EnrichmentContext ω) Failure

def setCleaned (text : String) (ctx : EnrichmentContext ω) : EnrichmentContext ω :=
  { ctx with cleanedText := some text }

def setPayload (payload : Payload ω) (ctx : EnrichmentContext ω) : EnrichmentContext ω :=
  { ctx with payload := payload }

def parsed (ctx : EnrichmentContext ω) : Except Failure (Payload ω) :=
  match ctx.rawBytes with
  | none => .error (.cleaning .nothingToNormalize)
  | some raw =>
    let text := python.codecs.decodeBytes raw (some ctx.contentType)
    if strip text = "" then .error (.cleaning .emptyDocument)
    else
      match python.loads text with
      | none => .error (.cleaning .notJson)
      | some (.dict fields) => .ok fields
      | some _ => .error (.cleaning .notObject)

/-- `_apply_structured`: the body is left to stage 2, and a payload that is there is kept. -/
def applyStructured : Step ω Unit := do
  modify (setCleaned "")
  let ctx ← get
  if ctx.payload ≠ [] then pure ()
  else
    match parsed python ctx with
    | .error failure => throw failure
    | .ok payload => modify (setPayload payload)

def apply (stage : CleaningStage) : Step ω Unit := do
  let ctx ← get
  if classifyContentType python.lower (some ctx.contentType) = .structured then
    applyStructured python
  else
    match ctx.rawBytes with
    | none => throw (.cleaning .noRawBytes)
    | some raw =>
      match python.cleanText (.bytes raw) (some ctx.contentType) none stage.redactor with
      | .error failure => throw failure
      | .ok text => modify (setCleaned text)

end CleaningStage

end

end OmniSense.Enrichment
