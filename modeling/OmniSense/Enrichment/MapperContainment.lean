import OmniSense.Enrichment.CanonicalUrl
import OmniSense.Enrichment.MapperErrors
import OmniSense.Enrichment.Redaction

/-! Which records cost one record: the values that make `FieldMap.to_signal` raise something else
than a `NormalizationError`. -/

namespace OmniSense.Enrichment

open Library Retrieval Option

variable {ω α : Type}

/-! ## URLs -/

namespace Url.Unicode

def resolvedCandidate (resolver : Option (List Char → Option (List Char))) (url : List Char) :
    List Char :=
  (((resolver.bind fun resolve => resolve (Url.candidate url)).filter fun text =>
    stripEnds isSpace text ≠ []).map Url.candidate).getD (Url.candidate url)

variable (py : Url.Unicode)

/-- The port of a netloc with a host is one that `port` reads. -/
def HasPort (parts : Url.SplitResult) : Prop :=
  parts.netloc = [] ∨ py.canonicalHost (py.hostname parts.netloc) = [] ∨
    (Url.hostinfo parts.netloc).2 = [] ∨ (Url.readPort (Url.hostinfo parts.netloc).2).isSome

/-- A text that `canonicalize_url` takes: `urlsplit` accepts it, and its port is one. -/
def Parses (resolver : Option (List Char → Option (List Char))) (url : List Char) : Prop :=
  stripEnds isSpace url = [] ∨
    ∃ parts, py.urlsplit (resolvedCandidate resolver url) = some parts ∧ py.HasPort parts

theorem canonicalOf_isSome (parts : Url.SplitResult) :
    (py.canonicalOf parts).isSome ↔ py.HasPort parts := by
  unfold canonicalOf canonicalNetloc HasPort
  by_cases hnetloc : parts.netloc = []
  · rw [if_pos hnetloc]
    refine iff_of_true ?_ (Or.inl hnetloc)
    split_ifs <;> rfl
  · rw [if_neg hnetloc, isSome_map, or_iff_right hnetloc]
    by_cases hhost : py.canonicalHost (py.hostname parts.netloc) = []
    · rw [if_pos hhost]
      exact iff_of_true rfl (Or.inl hhost)
    · rw [if_neg hhost, or_iff_right hhost]
      by_cases hport : (Url.hostinfo parts.netloc).2 = []
      · rw [if_pos hport]
        exact iff_of_true rfl (Or.inl hport)
      · rw [if_neg hport, or_iff_right hport, isSome_map]

theorem canonicalizeUrl_isSome (resolver : Option (List Char → Option (List Char)))
    (url : List Char) : (py.canonicalizeUrl resolver url).isSome ↔ py.Parses resolver url := by
  unfold canonicalizeUrl Parses
  by_cases hblank : stripEnds isSpace url = []
  · rw [if_pos hblank]
    exact iff_of_true rfl (Or.inl hblank)
  · rw [if_neg hblank, or_iff_right hblank, isSome_bind, any_eq_true]
    exact exists_congr fun parts => and_congr_right fun _ => py.canonicalOf_isSome parts

end Url.Unicode

/-! ## Values -/

theorem guarded_python {allowed : Raised → Prop} (hpython : ∀ error, ¬allowed (.python error))
    {condition : Prop} [Decidable condition] {value : α} {error : PyError} :
    Guarded allowed (if condition then .ok value else python error) condition value :=
  ⟨fun h => if_pos h, fun h => ⟨.python error, if_neg h, hpython error⟩⟩

def Number.isFinite : Number → Bool
  | .int _ | .float _ => true
  | .infinite _ | .nan => false

/-- A step of Python's raises `ValueError` at most. -/
def Settles (run : Except PyError α) : Prop :=
  ∀ error, run = .error error → ∃ message, error = .valueError message

namespace Runtime

variable (runtime : Runtime ω) (fieldMap : FieldMap ω)

/-- `_as_clean_str` does not raise. -/
def words : Value ω → Bool
  | .int n => isPrintable n
  | .other object => runtime.coercions.container object || runtime.printable object
  | _ => true

/-- `_as_count` does not raise. -/
def counts (value : Value ω) : Bool := (runtime.asNumber value).all Number.isFinite

def urlResolution (urlResolver : Option UrlResolver) : Option (List Char → Option (List Char)) :=
  urlResolver.map fun resolve text => (resolve (String.ofList text)).map String.toList

def canonical (urlResolver : Option UrlResolver) (url : String) : String :=
  ((runtime.unicode.canonicalizeUrl (urlResolution urlResolver) url.toList).map
    String.ofList).getD ""

def Parses (urlResolver : Option UrlResolver) (url : String) : Prop :=
  runtime.unicode.Parses (urlResolution urlResolver) url.toList

def count (value : Value ω) : Option ℕ :=
  (runtime.asNumber value).bind fun
    | .int n => if 0 ≤ n then some n.toNat else none
    | .float q => if 0 ≤ q.num.tdiv q.den then some (q.num.tdiv q.den).toNat else none
    | _ => none

/-- `_canonical_url`, of a value that has one. -/
def permalink (raw : Value ω) (urlResolver : Option UrlResolver) : String :=
  if runtime.coercions.asCleanStr raw = "" then ""
  else runtime.canonical urlResolver (runtime.coercions.asCleanStr raw)

/-- `_timestamp`, of a value that raises nothing else. -/
def momentRead (raw : Value ω) (assumeTimezone : Option Timezone) :
    Option Datetime × Option String :=
  if raw.isNone then (none, none)
  else
    match runtime.toUtcDatetime raw assumeTimezone with
    | .ok moment => (some moment, none)
    | .error (.valueError message) => (none, some message)
    | .error _ => (none, none)

/-- `_author` does not raise. -/
structure AuthorReads (resolved : Dict String (Value ω)) : Prop where
  handle : runtime.words (field resolved "author_handle") = true
  displayName : runtime.words (field resolved "author_display_name") = true
  profileUrl : runtime.words (field resolved "author_profile_url") = true
  followerCount : runtime.counts (field resolved "author_follower_count") = true

def MediaReads (media : MediaMap) (item : Payload ω) : Prop :=
  let url := runtime.coercions.lookup item media.url
  runtime.words url = true ∧ (runtime.coercions.asCleanStr url ≠ "" →
    (∀ path ∈ media.mimeType, path ≠ "" →
      runtime.words (runtime.coercions.lookup item path) = true) ∧
    (∀ path ∈ media.kind, path ≠ "" →
      runtime.words (runtime.coercions.lookup item path) = true) ∧
    runtime.Parses none (runtime.coercions.asCleanStr url))

/-- `_media` does not raise. -/
def AttachmentsRead (payload : Payload ω) : Prop :=
  ∀ media ∈ fieldMap.media, ∀ item,
    .dict item ∈ sequence (runtime.coercions.lookup payload media.container) →
      runtime.MediaReads media item

theorem prints_of_isNone {value : Value ω} (h : value.isNone = true) :
    runtime.prints value = true := by
  cases value with
  | none => simp [prints]
  | _ => cases h

section

variable {allowed : Raised → Prop} (hpython : ∀ error, ¬allowed (.python error))

include hpython

variable (value : Value ω) (media : MediaMap) (item : Payload ω) (raw : Value ω)

theorem guarded_str :
    Guarded allowed (runtime.str value) (runtime.prints value) (runtime.coercions.text value) :=
  guarded_python hpython

theorem guarded_asCleanStr : Guarded allowed (runtime.asCleanStr value) (runtime.words value)
      (runtime.coercions.asCleanStr value) := by
  have htrue : ∀ text : String, Guarded allowed (.ok text : Except Raised String)
      (true = true) text := fun text => (Guarded.ok text).congr (by simp)
  cases value with
  | none | bool | list | dict => exact htrue ""
  | str s => exact htrue (strip s)
  | int n => exact (guarded_str runtime hpython (.int n)).map strip
  | float q => exact (guarded_str runtime hpython (.float q)).map strip
  | other object =>
    unfold asCleanStr words Coercions.asCleanStr
    dsimp only
    cases hcontainer : runtime.coercions.container object with
    | true => exact htrue ""
    | false => exact (guarded_str runtime hpython (.other object)).map strip

theorem guarded_string : Guarded allowed (runtime.string value) (runtime.prints value)
      (runtime.coercions.string value) := by
  cases value with
  | str s => exact (Guarded.ok s).congr (by simp [prints])
  | none | bool | list | dict | int | float | other => exact guarded_str runtime hpython _

theorem guarded_cleanText : Guarded allowed (runtime.cleanText value) (runtime.prints value)
      (runtime.coercions.cleanText value) := by
  unfold cleanText Coercions.cleanText
  cases hnone : value.isNone with
  | true => exact (Guarded.ok "").congr (iff_of_true trivial (prints_of_isNone runtime hnone))
  | false => exact (guarded_string runtime hpython value).map collapseWhitespace

theorem guarded_body : Guarded allowed (runtime.body fieldMap raw) (runtime.prints raw)
      (fieldMap.body runtime.coercions raw) := by
  unfold body FieldMap.body
  cases hnone : raw.isNone with
  | true => exact (Guarded.ok "").congr (iff_of_true trivial (prints_of_isNone runtime hnone))
  | false => exact (guarded_string runtime hpython raw).map _

theorem guarded_canonicalizeUrl (urlResolver : Option UrlResolver) (url : String) :
    Guarded allowed (runtime.canonicalizeUrl urlResolver url) (runtime.Parses urlResolver url)
      (runtime.canonical urlResolver url) := by
  have hparses := runtime.unicode.canonicalizeUrl_isSome (urlResolution urlResolver) url.toList
  unfold canonicalizeUrl canonical Parses
  rw [← hparses]
  unfold urlResolution
  dsimp only
  generalize runtime.unicode.canonicalizeUrl (urlResolver.map fun resolve (text : List Char) =>
    (resolve (String.ofList text)).map String.toList) url.toList = result
  cases result with
  | some canonical => exact (Guarded.ok _).congr (by simp)
  | none => exact ⟨fun h => absurd h (by simp), fun _ => ⟨_, rfl, hpython _⟩⟩

theorem guarded_asCount :
    Guarded allowed (runtime.asCount value) (runtime.counts value) (runtime.count value) := by
  unfold asCount counts count
  cases runtime.asNumber value with
  | none => exact (Guarded.ok none).congr (by simp)
  | some number =>
    cases number with
    | int | float => exact (Guarded.ok _).congr (by simp [Number.isFinite])
    | infinite negative =>
      exact ⟨fun h => absurd h (by simp [Number.isFinite]), fun _ => ⟨_, rfl, hpython _⟩⟩
    | nan => exact ⟨fun h => absurd h (by simp [Number.isFinite]), fun _ => ⟨_, rfl, hpython _⟩⟩

theorem guarded_canonicalUrl (urlResolver : Option UrlResolver) :
    Guarded allowed (runtime.canonicalUrl raw urlResolver)
      (runtime.words raw = true ∧ (runtime.coercions.asCleanStr raw ≠ "" →
        runtime.Parses urlResolver (runtime.coercions.asCleanStr raw)))
      (runtime.permalink raw urlResolver) := by
  apply (guarded_asCleanStr runtime hpython raw).seq
  unfold permalink
  by_cases hblank : runtime.coercions.asCleanStr raw = ""
  · rw [if_pos hblank, if_pos hblank]
    exact (Guarded.ok "").congr (iff_of_true trivial fun h => absurd hblank h)
  · rw [if_neg hblank, if_neg hblank]
    exact (guarded_canonicalizeUrl runtime hpython urlResolver _).congr
      ⟨fun h _ => h, fun h => h hblank⟩

theorem guarded_timestamp (assumeTimezone : Option Timezone) :
    Guarded allowed (runtime.timestamp raw assumeTimezone)
      (Settles (runtime.toUtcDatetime raw assumeTimezone))
      (runtime.momentRead raw assumeTimezone) := by
  unfold timestamp momentRead
  cases hnone : raw.isNone with
  | true =>
    have hsettles : Settles (runtime.toUtcDatetime raw assumeTimezone) := by
      cases raw with
      | none =>
        intro error herror
        cases herror
        exact ⟨_, rfl⟩
      | _ => cases hnone
    exact (Guarded.ok _).congr (iff_of_true trivial hsettles)
  | false =>
    have hpasses : ∀ error, (∀ message, error ≠ .valueError message) →
        ¬Settles (.error error : Except PyError Datetime) := by
      intro error hother h
      obtain ⟨message, hmessage⟩ := h error rfl
      exact hother message hmessage
    cases runtime.toUtcDatetime raw assumeTimezone with
    | ok moment => exact (Guarded.ok _).congr (iff_of_true trivial fun _ h => by cases h)
    | error error =>
      cases error with
      | valueError message =>
        refine (Guarded.ok _).congr (iff_of_true trivial fun error herror => ?_)
        cases herror
        exact ⟨message, rfl⟩
      | typeError | overflowError | other =>
        exact ⟨fun h => absurd h (hpasses _ fun _ h => by cases h), fun _ => ⟨_, rfl, hpython _⟩⟩

theorem guarded_author (resolved : Dict String (Value ω)) (authorId : String) :
    ∃ author, Guarded allowed (runtime.author resolved authorId)
      (authorId ≠ "" → runtime.AuthorReads resolved) author := by
  unfold author
  by_cases hid : authorId = ""
  · rw [if_pos hid]
    exact ⟨none, (Guarded.ok _).congr (iff_of_true trivial fun h => absurd hid h)⟩
  · rw [if_neg hid]
    refine ⟨_, ((guarded_asCleanStr runtime hpython _).seq ((guarded_asCleanStr runtime hpython _).seq
      ((guarded_asCleanStr runtime hpython _).seq ((guarded_asCount runtime hpython _).map _)))).congr ?_⟩
    constructor
    · rintro ⟨hhandle, hname, hprofile, hcount⟩ -
      exact ⟨hhandle, hname, hprofile, hcount⟩
    · intro h
      obtain ⟨hhandle, hname, hprofile, hcount⟩ := h hid
      exact ⟨hhandle, hname, hprofile, hcount⟩

theorem guarded_mediaWord (path : Option String) :
    ∃ word, Guarded allowed (runtime.mediaWord item path)
      (∀ given ∈ path, given ≠ "" → runtime.words (runtime.coercions.lookup item given) = true)
      word := by
  unfold mediaWord
  cases path with
  | none => exact ⟨"", (Guarded.ok "").congr (iff_of_true trivial fun _ h => by cases h)⟩
  | some given =>
    by_cases hblank : given = ""
    · rw [filter_some_neg (by simpa using hblank)]
      refine ⟨"", (Guarded.ok "").congr (iff_of_true trivial fun other hother hne => ?_)⟩
      cases hother
      exact absurd hblank hne
    · rw [filter_some_pos (by simpa using hblank)]
      refine ⟨_, (guarded_asCleanStr runtime hpython _).congr ⟨fun h other hother _ => ?_, fun h => ?_⟩⟩
      · cases hother
        exact h
      · exact h given rfl hblank

theorem guarded_mediaOf (url : String) : ∃ ref, Guarded allowed (runtime.mediaOf media item url)
      ((∀ path ∈ media.mimeType, path ≠ "" →
          runtime.words (runtime.coercions.lookup item path) = true) ∧
        (∀ path ∈ media.kind, path ≠ "" →
          runtime.words (runtime.coercions.lookup item path) = true) ∧
        runtime.Parses none url) ref := by
  obtain ⟨mime, hmime⟩ := guarded_mediaWord runtime hpython item media.mimeType
  obtain ⟨kind, hkind⟩ := guarded_mediaWord runtime hpython item media.kind
  refine hmime.seq_exists (hkind.seq_exists ?_)
  exact ⟨_, (guarded_canonicalizeUrl runtime hpython none url).map _⟩

theorem guarded_mediaRef :
    ∃ ref, Guarded allowed (runtime.mediaRef media item) (runtime.MediaReads media item) ref := by
  have hurl := guarded_asCleanStr runtime hpython
    (runtime.coercions.lookup item media.url)
  refine hurl.seq_exists ?_
  by_cases hblank : runtime.coercions.asCleanStr (runtime.coercions.lookup item media.url) = ""
  · rw [if_pos hblank]
    exact ⟨none, (Guarded.ok none).congr (iff_of_true trivial fun h => absurd hblank h)⟩
  · rw [if_neg hblank]
    obtain ⟨ref, href⟩ := guarded_mediaOf runtime hpython media item
      (runtime.coercions.asCleanStr (runtime.coercions.lookup item media.url))
    exact ⟨ref, href.congr ⟨fun h _ => h, fun h => h hblank⟩⟩

theorem guarded_mediaItems (items : List (Value ω)) :
    ∃ refs, Guarded allowed (runtime.mediaItems media items)
      (∀ item, .dict item ∈ items → runtime.MediaReads media item) refs := by
  induction items with
  | nil =>
    exact ⟨[], (Guarded.ok []).congr (iff_of_true trivial fun item h => absurd h List.not_mem_nil)⟩
  | cons first rest ih =>
    obtain ⟨refs, hrefs⟩ := ih
    have hskipped : (∀ item, first ≠ .dict item) → ((∀ item, .dict item ∈ rest →
        runtime.MediaReads media item) ↔
          ∀ item, .dict item ∈ first :: rest → runtime.MediaReads media item) := by
      intro hfirst
      constructor
      · intro h item hitem
        rcases List.mem_cons.mp hitem with hitem | hitem
        · exact absurd hitem.symm (hfirst item)
        · exact h item hitem
      · exact fun h item hitem => h item (List.mem_cons_of_mem _ hitem)
    cases first with
    | dict item =>
      obtain ⟨ref, href⟩ := guarded_mediaRef runtime hpython media item
      refine ⟨_, (href.seq (hrefs.map fun refs => ref.toList ++ refs)).congr ?_⟩
      constructor
      · rintro ⟨hitem, hrest⟩ other hother
        rcases List.mem_cons.mp hother with hother | hother
        · cases hother
          exact hitem
        · exact hrest other hother
      · intro h
        exact ⟨h item (List.mem_cons_self ..), fun other hother =>
          h other (List.mem_cons_of_mem _ hother)⟩
    | none | bool | int | float | str | list | other =>
      exact ⟨refs, hrefs.congr (hskipped fun _ h => by cases h)⟩

theorem guarded_mediaRefs (payload : Payload ω) :
    ∃ refs, Guarded allowed (runtime.mediaRefs fieldMap payload)
      (runtime.AttachmentsRead fieldMap payload) refs := by
  unfold mediaRefs AttachmentsRead
  cases fieldMap.media with
  | none => exact ⟨[], (Guarded.ok []).congr (iff_of_true trivial fun _ h => by cases h)⟩
  | some media =>
    obtain ⟨refs, hrefs⟩ := guarded_mediaItems runtime hpython media
      (sequence (runtime.coercions.lookup payload media.container))
    refine ⟨refs, hrefs.congr ⟨fun h given hgiven => ?_, fun h => h media rfl⟩⟩
    cases hgiven
    exact h

end

end Runtime

/-! ## Native ids -/

variable (nativeId : String)

def IsNativeId : Prop := nativeId ≠ "" ∧ trim nativeId = nativeId

theorem isWhiteSpace_of_hex {c : Char} (h : ('0' ≤ c ∧ c ≤ '9') ∨ ('a' ≤ c ∧ c ≤ 'f')) :
    isWhiteSpace c = false := by
  have hbounds : (48 ≤ c.toNat ∧ c.toNat ≤ 57) ∨ (97 ≤ c.toNat ∧ c.toNat ≤ 102) := h
  unfold isWhiteSpace
  rw [decide_eq_false_iff_not]
  omega

theorem IsSha256Hex.isNativeId {s : String} (h : IsSha256Hex s) : IsNativeId s := by
  refine ⟨?_, ?_⟩
  · rintro rfl
    exact absurd h.1 (by decide)
  · unfold trim
    rw [stripEnds_eq_self fun c hc => isWhiteSpace_of_hex (h.2 c hc), String.ofList_toList]

theorem isNativeId_digest (coercions : Coercions ω) (text : String) :
    IsNativeId (coercions.digest text) :=
  (coercions.sha256 (utf8 text)).valid.isNativeId

theorem isNativeId_asCleanStr {coercions : Coercions ω} {value : Value ω}
    (h : coercions.asCleanStr value ≠ "") : IsNativeId (coercions.asCleanStr value) := by
  refine ⟨h, ?_⟩
  cases value with
  | none | bool | list | dict => exact absurd rfl h
  | str s => exact trim_strip s
  | int | float => exact trim_strip _
  | other object =>
    have hread : coercions.asCleanStr (.other object) = if coercions.container object then ""
        else strip (coercions.text (.other object)) := rfl
    rw [hread] at h ⊢
    by_cases hcontainer : coercions.container object = true
    · exact absurd (if_pos hcontainer) h
    · rw [if_neg hcontainer]
      exact trim_strip _

/-! ## Records that cost one record -/

def Raised.IsNormalization : Raised → Prop
  | .normalization _ _ => True
  | .python _ => False

/-- A `NormalizationError` that carries a native id. -/
def Raised.Names : Raised → Prop
  | .normalization _ carried => carried = some nativeId
  | .python _ => False

def FieldMap.Quiet (fieldMap : FieldMap ω) : Prop :=
  ∀ entry ∈ fieldMap.iterSpecs, ∀ transform ∈ entry.2.transform, ∀ value,
    ∃ result, transform value = .ok result

def FieldMap.Complete (fieldMap : FieldMap ω) (resolved : Dict String (Value ω)) : Prop :=
  ∀ entry ∈ fieldMap.iterSpecs, entry.2.required = true → (field resolved entry.1).isNone = false

namespace Runtime

variable (runtime : Runtime ω) (fieldMap : FieldMap ω)

/-- One malformed record costs one record: nothing but a `NormalizationError` is raised, and it
carries the native id where one was derived. -/
def Contains (record : RawRecord ω) (ctx : MappingContext) (urlResolver : Option UrlResolver)
    (extraMetadata : Dict String (Value ω)) : Prop :=
  Confined Raised.IsNormalization
      (runtime.toSignal fieldMap record ctx urlResolver extraMetadata) ∧
    ∀ found, runtime.identify fieldMap record urlResolver = .ok found →
      Confined (Raised.Names found.nativeId)
        (runtime.toSignal fieldMap record ctx urlResolver extraMetadata)

structure IdentityReads (resolved : Dict String (Value ω)) (urlResolver : Option UrlResolver) :
    Prop where
  text : runtime.prints (field resolved "text") = true
  url : runtime.words (field resolved "url") = true
  parses : runtime.coercions.asCleanStr (field resolved "url") ≠ "" →
    runtime.Parses urlResolver (runtime.coercions.asCleanStr (field resolved "url"))
  authorId : runtime.words (field resolved "author_id") = true
  timestamp : Settles (runtime.toUtcDatetime (field resolved "timestamp") fieldMap.assumeTimezone)
  itemId : runtime.words (field resolved "item_id") = true
  -- Rule 2 canonicalizes what is canonical already.
  permalink : runtime.coercions.asCleanStr (field resolved "item_id") = "" →
    runtime.permalink (field resolved "url") urlResolver ≠ "" →
      runtime.Parses urlResolver (runtime.permalink (field resolved "url") urlResolver)

variable (resolved : Dict String (Value ω))

def HasIdentity (urlResolver : Option UrlResolver) : Prop :=
  runtime.coercions.asCleanStr (field resolved "item_id") ≠ "" ∨
  (runtime.permalink (field resolved "url") urlResolver ≠ "" ∧
    runtime.canonical urlResolver (runtime.permalink (field resolved "url") urlResolver) ≠ "") ∨
  (strip (fieldMap.body runtime.coercions (field resolved "text")) ≠ "" ∧ ∃ moment,
    (runtime.momentRead (field resolved "timestamp") fieldMap.assumeTimezone).1 = some moment ∧
      moment.isAware = true)

structure AssemblyReads (record : RawRecord ω) (resolved : Dict String (Value ω)) : Prop where
  title : runtime.prints (field resolved "title") = true
  fetchedAt : record.fetchedAt.isAware = true → Settles (runtime.astimezone record.fetchedAt)
  author : record.fetchedAt.isAware = true → ∀ fetchedAt,
    runtime.astimezone record.fetchedAt = .ok fetchedAt →
      runtime.coercions.asCleanStr (field resolved "author_id") ≠ "" →
        runtime.AuthorReads resolved
  media : record.fetchedAt.isAware = true → ∀ fetchedAt,
    runtime.astimezone record.fetchedAt = .ok fetchedAt →
      runtime.AttachmentsRead fieldMap record.payload

variable {runtime} {fieldMap}

theorem not_isNormalization (error : PyError) : ¬Raised.IsNormalization (.python error) := id

theorem not_names (error : PyError) :
    ¬Raised.Names nativeId (.python error) := id

theorem resolveInto_ok {specs : List (String × FieldSpec ω)}
    (h : ∀ entry ∈ specs, ∀ transform ∈ entry.2.transform, ∀ value,
      ∃ result, transform value = .ok result)
    (coercions : Coercions ω) (payload : Payload ω) (resolved : Dict String (Value ω)) :
    ∃ after, FieldMap.resolveInto coercions payload resolved specs = .ok after := by
  induction specs generalizing resolved with
  | nil => exact ⟨resolved, rfl⟩
  | cons entry specs ih =>
    obtain ⟨name, spec⟩ := entry
    have hvalue : ∃ value,
        spec.resolve coercions payload name none false = .ok value := by
      unfold FieldSpec.resolve
      cases spec.found coercions payload with
      | none => exact ⟨spec.default, by rw [Bool.and_false]; rfl⟩
      | some value =>
        cases htransform : spec.transform with
        | none => exact ⟨value, rfl⟩
        | some transform => exact h (name, spec) (List.mem_cons_self ..) transform htransform value
    obtain ⟨value, hvalue⟩ := hvalue
    obtain ⟨after, hafter⟩ := ih (fun entry hentry => h entry (List.mem_cons_of_mem _ hentry))
      (resolved.set name value)
    refine ⟨after, ?_⟩
    rw [FieldMap.resolveInto, hvalue]
    exact hafter

/-! ## The identity -/

variable (record : RawRecord ω) (platform : Platform) (ctx : MappingContext) (authorId : String)
    (timestamp : Option Datetime) (text : String) {nativeId : String}
    {urlResolver : Option UrlResolver} {itemId : Value ω}

theorem confined_textIdentity :
    Confined Raised.IsNormalization (runtime.textIdentity platform authorId timestamp text) := by
  unfold textIdentity
  dsimp only
  cases timestamp.filter fun _ => strip text ≠ "" with
  | none => exact confined_error.mpr trivial
  | some moment =>
    refine confined_bind.mpr ⟨?_, fun _ _ => confined_ok _⟩
    unfold Coercions.identityTimestamp
    split_ifs
    · exact confined_ok _
    · exact confined_error.mpr trivial

theorem confined_deriveNativeId (itemId : Value ω) (url authorId : String)
    (timestamp : Option Datetime) (text : String) (urlResolver : Option UrlResolver) :
    Confined Raised.IsNormalization
        (runtime.deriveNativeId platform itemId url authorId timestamp text urlResolver) ↔
      runtime.words itemId = true ∧ (runtime.coercions.asCleanStr itemId = "" → url ≠ "" →
        runtime.Parses urlResolver url) := by
  unfold deriveNativeId
  rw [(guarded_asCleanStr runtime not_isNormalization itemId).bind]
  refine and_congr_right fun _ => ?_
  by_cases hid : runtime.coercions.asCleanStr itemId = ""
  · rw [if_neg (not_not.mpr hid)]
    have hcanonical : ∃ canonical, Guarded Raised.IsNormalization
        (if url = "" then .ok "" else runtime.canonicalizeUrl urlResolver url)
        (url ≠ "" → runtime.Parses urlResolver url) canonical := by
      by_cases hurl : url = ""
      · rw [if_pos hurl]
        exact ⟨"", (Guarded.ok "").congr (iff_of_true trivial fun h => absurd hurl h)⟩
      · rw [if_neg hurl]
        exact ⟨_, (guarded_canonicalizeUrl runtime not_isNormalization urlResolver url).congr
          ⟨fun h _ => h, fun h => h hurl⟩⟩
    obtain ⟨canonical, hcanonical⟩ := hcanonical
    rw [hcanonical.bind]
    constructor
    · exact fun h _ => h.1
    · intro h
      refine ⟨h hid, ?_⟩
      split_ifs
      · exact confined_ok _
      · exact confined_textIdentity platform authorId timestamp text
  · rw [if_pos hid]
    exact iff_of_true (confined_ok _) fun h => absurd h hid

theorem textIdentity_ok :
    (∃ nativeId, runtime.textIdentity platform authorId timestamp text = .ok nativeId) ↔
      strip text ≠ "" ∧ ∃ moment, timestamp = some moment ∧ moment.isAware = true := by
  unfold textIdentity
  dsimp only
  by_cases hblank : strip text = ""
  · rw [filter_eq_none_iff.mpr (by simp [hblank])]
    refine iff_of_false ?_ fun h => h.1 hblank
    rintro ⟨nativeId, h⟩
    cases h
  · rw [and_iff_right hblank]
    cases timestamp with
    | none =>
      refine iff_of_false ?_ ?_
      · rintro ⟨nativeId, h⟩
        cases h
      · rintro ⟨moment, h, -⟩
        cases h
    | some moment =>
      rw [filter_some_pos (by simpa using hblank)]
      dsimp only
      unfold Coercions.identityTimestamp
      cases haware : moment.isAware with
      | true => exact iff_of_true ⟨_, rfl⟩ ⟨moment, rfl, haware⟩
      | false =>
        refine iff_of_false ?_ ?_
        · rintro ⟨nativeId, h⟩
          cases h
        · rintro ⟨other, hother, hne⟩
          cases hother
          rw [haware] at hne
          cases hne

theorem isNativeId_textIdentity {platform : Platform} {authorId : String}
    {timestamp : Option Datetime} {text nativeId : String}
    (h : runtime.textIdentity platform authorId timestamp text = .ok nativeId) :
    IsNativeId nativeId := by
  unfold textIdentity at h
  dsimp only at h
  cases hmoment : timestamp.filter fun _ => strip text ≠ "" with
  | none =>
    rw [hmoment] at h
    cases h
  | some moment =>
    rw [hmoment] at h
    unfold Coercions.identityTimestamp at h
    dsimp only at h
    cases haware : moment.isAware with
    | false =>
      rw [haware] at h
      cases h
    | true =>
      rw [haware] at h
      cases h
      exact isNativeId_digest ..

theorem deriveNativeId_eq {platform : Platform} {url authorId : String}
    {timestamp : Option Datetime} {text : String}
    (hword : runtime.words itemId = true)
    (hparses : runtime.coercions.asCleanStr itemId = "" → url ≠ "" →
      runtime.Parses urlResolver url) :
    runtime.deriveNativeId platform itemId url authorId timestamp text urlResolver =
      if runtime.coercions.asCleanStr itemId ≠ "" then .ok (runtime.coercions.asCleanStr itemId)
      else if url ≠ "" ∧ runtime.canonical urlResolver url ≠ "" then
        .ok (runtime.coercions.digest (runtime.canonical urlResolver url))
      else runtime.textIdentity platform authorId timestamp text := by
  have hread := (guarded_asCleanStr runtime not_isNormalization itemId).holds hword
  unfold deriveNativeId
  rw [hread]
  by_cases hid : runtime.coercions.asCleanStr itemId = ""
  · rw [if_neg (not_not.mpr hid)]
    change (if runtime.coercions.asCleanStr itemId ≠ "" then _ else _) = _
    rw [if_neg (not_not.mpr hid)]
    by_cases hurl : url = ""
    · rw [if_pos hurl, if_neg fun h => h.1 hurl]
      rfl
    · have hcanonical : runtime.canonicalizeUrl urlResolver url =
          .ok (runtime.canonical urlResolver url) :=
        (guarded_canonicalizeUrl runtime not_isNormalization urlResolver url).holds (hparses hid hurl)
      rw [if_neg hurl, hcanonical]
      by_cases hblank : runtime.canonical urlResolver url = ""
      · rw [if_neg fun h => h.2 hblank]
        exact if_neg (not_not.mpr hblank)
      · rw [if_pos ⟨hurl, hblank⟩]
        exact if_pos hblank
  · rw [if_pos hid]
    exact if_pos hid

theorem isNativeId_derived {platform : Platform} {url authorId : String}
    {timestamp : Option Datetime} {text : String}
    (h : runtime.deriveNativeId platform itemId url authorId timestamp text urlResolver =
      .ok nativeId) : IsNativeId nativeId := by
  have hconfined : Confined Raised.IsNormalization
      (runtime.deriveNativeId platform itemId url authorId timestamp text urlResolver) := by
    rw [h]
    exact confined_ok nativeId
  obtain ⟨hword, hparses⟩ := (confined_deriveNativeId ..).mp hconfined
  rw [deriveNativeId_eq hword hparses] at h
  split_ifs at h with hid hcanonical
  · cases h
    exact isNativeId_asCleanStr hid
  · cases h
    exact isNativeId_digest ..
  · exact isNativeId_textIdentity h

theorem deriveNativeId_ok {url : String} (hword : runtime.words itemId = true)
    (hparses : runtime.coercions.asCleanStr itemId = "" → url ≠ "" →
      runtime.Parses urlResolver url) :
    (∃ nativeId, runtime.deriveNativeId platform itemId url authorId timestamp text urlResolver =
      .ok nativeId) ↔
      runtime.coercions.asCleanStr itemId ≠ "" ∨
      (url ≠ "" ∧ runtime.canonical urlResolver url ≠ "") ∨
      (strip text ≠ "" ∧ ∃ moment, timestamp = some moment ∧ moment.isAware = true) := by
  rw [deriveNativeId_eq hword hparses]
  by_cases hid : runtime.coercions.asCleanStr itemId ≠ ""
  · rw [if_pos hid]
    exact iff_of_true ⟨_, rfl⟩ (Or.inl hid)
  · rw [if_neg hid, or_iff_right hid]
    by_cases hurl : url ≠ "" ∧ runtime.canonical urlResolver url ≠ ""
    · rw [if_pos hurl]
      exact iff_of_true ⟨_, rfl⟩ (Or.inl hurl)
    · rw [if_neg hurl, or_iff_right hurl]
      exact textIdentity_ok platform authorId timestamp text

/-! ## The mapping -/

section

variable {record : RawRecord ω} {resolved : Dict String (Value ω)}
  {urlResolver : Option UrlResolver}
  (hresolved : FieldMap.resolveInto runtime.coercions record.payload .empty fieldMap.iterSpecs =
    .ok resolved)

include hresolved

theorem confined_identify :
    Confined Raised.IsNormalization (runtime.identify fieldMap record urlResolver) ↔
      runtime.IdentityReads fieldMap resolved urlResolver := by
  have hbody := guarded_body runtime fieldMap not_isNormalization
    (field resolved "text")
  unfold identify
  rw [hresolved]
  change Confined Raised.IsNormalization (runtime.body fieldMap (field resolved "text") >>= _) ↔ _
  rw [hbody.bind, (guarded_canonicalUrl runtime not_isNormalization _ urlResolver).bind,
    (guarded_asCleanStr runtime not_isNormalization _).bind,
    (guarded_timestamp runtime not_isNormalization _ _).bind, confined_bind, confined_deriveNativeId]
  constructor
  · rintro ⟨htext, ⟨hurl, hparses⟩, hauthor, htimestamp, ⟨hid, hpermalink⟩, -⟩
    exact ⟨htext, hurl, hparses, hauthor, htimestamp, hid, hpermalink⟩
  · rintro ⟨htext, hurl, hparses, hauthor, htimestamp, hid, hpermalink⟩
    exact ⟨htext, ⟨hurl, hparses⟩, hauthor, htimestamp, ⟨hid, hpermalink⟩,
      fun _ _ => confined_ok _⟩

theorem identify_eq (h : runtime.IdentityReads fieldMap resolved urlResolver) :
    runtime.identify fieldMap record urlResolver =
      (runtime.deriveNativeId fieldMap.platform (field resolved "item_id")
        (runtime.permalink (field resolved "url") urlResolver)
        (runtime.coercions.asCleanStr (field resolved "author_id"))
        (runtime.momentRead (field resolved "timestamp") fieldMap.assumeTimezone).1
        (fieldMap.body runtime.coercions (field resolved "text")) urlResolver).map fun nativeId =>
      { resolved := resolved
        body := fieldMap.body runtime.coercions (field resolved "text")
        url := runtime.permalink (field resolved "url") urlResolver
        authorId := runtime.coercions.asCleanStr (field resolved "author_id")
        moment := (runtime.momentRead (field resolved "timestamp") fieldMap.assumeTimezone).1
        timestampError :=
          (runtime.momentRead (field resolved "timestamp") fieldMap.assumeTimezone).2
        nativeId := nativeId } := by
  have hbody := (guarded_body runtime fieldMap not_isNormalization _).holds h.text
  have hurl := (guarded_canonicalUrl runtime not_isNormalization _ urlResolver).holds ⟨h.url, h.parses⟩
  have hauthor := (guarded_asCleanStr runtime not_isNormalization _).holds h.authorId
  have htimestamp := (guarded_timestamp runtime not_isNormalization _ _).holds h.timestamp
  unfold identify
  rw [hresolved]
  change runtime.body fieldMap (field resolved "text") >>= _ = _
  rw [hbody]
  rw [hurl]
  rw [hauthor]
  rw [htimestamp]
  rfl

end

theorem confined_enforceRequired (nativeId : String) :
    Confined (Raised.Names nativeId) (failing (fieldMap.enforceRequired resolved nativeId)) := by
  unfold FieldMap.enforceRequired
  cases fieldMap.iterSpecs.find? fun entry =>
      entry.2.required && (field resolved entry.1).isNone with
  | none => exact confined_ok ()
  | some entry => exact confined_error.mpr rfl

theorem enforceRequired_ok {resolved : Dict String (Value ω)} :
    failing (fieldMap.enforceRequired resolved nativeId) = .ok () ↔
      fieldMap.Complete resolved := by
  have hcomplete : fieldMap.Complete resolved ↔ (fieldMap.iterSpecs.find? fun entry =>
      entry.2.required && (field resolved entry.1).isNone) = none := by
    rw [List.find?_eq_none]
    exact forall₂_congr fun entry _ => by simp
  rw [hcomplete]
  unfold FieldMap.enforceRequired
  cases fieldMap.iterSpecs.find? fun entry =>
      entry.2.required && (field resolved entry.1).isNone with
  | none => exact iff_of_true rfl rfl
  | some entry => exact iff_of_false (fun h => by cases h) (fun h => by cases h)

theorem confined_create (hid : IsNativeId nativeId) {lineage : Lineage}
    (hlineage : lineage.nativeId = nativeId) (timestamp : Datetime) (content : Content)
    (url : Option String) (author : Option Author) (media : List MediaRef)
    (engagement : Dict String Number) (metadata : Dict String (Value ω)) :
    Confined (Raised.Names nativeId) (runtime.create fieldMap nativeId timestamp content lineage
      url author media engagement metadata) := by
  unfold create
  rw [if_neg (not_not.mpr hlineage)]
  unfold Coercions.signalId
  rw [if_neg hid.1]
  refine confined_bind.mpr ⟨confined_ok _, fun id _ => ?_⟩
  dsimp only
  split_ifs
  · exact confined_error.mpr rfl
  · exact confined_ok _

theorem confined_lineage (nativeId : String) (ctx : MappingContext) :
    Confined (Raised.Names nativeId) (runtime.lineage record nativeId ctx) ↔
      (record.fetchedAt.isAware = true → Settles (runtime.astimezone record.fetchedAt)) := by
  unfold lineage
  by_cases haware : record.fetchedAt.isAware = true
  · rw [if_pos haware]
    cases hmoment : runtime.astimezone record.fetchedAt with
    | ok fetchedAt => exact iff_of_true (confined_ok _) fun _ _ h => by cases h
    | error error =>
      have hsettles : Settles (.error error : Except PyError Datetime) ↔
          ∃ message, error = .valueError message := by
        constructor
        · exact fun h => h error rfl
        · rintro h raised hraised
          cases hraised
          exact h
      rw [hsettles]
      cases error with
      | valueError message =>
        exact iff_of_true (confined_error.mpr rfl) fun _ => ⟨message, rfl⟩
      | _ =>
        refine iff_of_false (fun h => h _ rfl) fun h => ?_
        obtain ⟨message, hmessage⟩ := h haware
        cases hmessage
  · rw [if_neg haware]
    exact iff_of_true (confined_error.mpr rfl) fun h => absurd h haware

theorem lineage_ok {record : RawRecord ω} {ctx : MappingContext} {lineage : Lineage} :
    runtime.lineage record nativeId ctx = .ok lineage ↔ record.fetchedAt.isAware = true ∧
      ∃ fetchedAt, runtime.astimezone record.fetchedAt = .ok fetchedAt ∧
        { runtime.coercions.buildLineage record nativeId ctx with fetchedAt } = lineage := by
  have hrefused : ∀ message : String, (.error (.normalization (.contract [message])
      (some nativeId)) : Except Raised Lineage) ≠ .ok lineage := fun message h => by cases h
  unfold Runtime.lineage
  by_cases haware : record.fetchedAt.isAware = true
  · rw [if_pos haware, and_iff_right haware]
    cases hmoment : runtime.astimezone record.fetchedAt with
    | ok fetchedAt =>
      constructor
      · intro h
        cases h
        exact ⟨fetchedAt, rfl, rfl⟩
      · rintro ⟨other, hother, rfl⟩
        cases hother
        rfl
    | error error =>
      refine iff_of_false ?_ ?_
      · cases error with
        | valueError message => exact hrefused _
        | _ => exact fun h => by cases h
      · rintro ⟨other, hother, -⟩
        cases hother
  · rw [if_neg haware]
    exact iff_of_false (hrefused _) fun h => haware h.1

variable (extraMetadata : Dict String (Value ω))

theorem confined_compose {found : Identified ω} (moment : Datetime)
    (hid : IsNativeId found.nativeId)
    (hauthorId : found.authorId =
      runtime.coercions.asCleanStr (field found.resolved "author_id")) :
    Confined (Raised.Names found.nativeId)
        (runtime.compose fieldMap record ctx extraMetadata found moment) ↔
      runtime.AssemblyReads fieldMap record found.resolved := by
  have hnames := not_names found.nativeId
  obtain ⟨author, hauthor⟩ := guarded_author runtime hnames found.resolved
    found.authorId
  obtain ⟨media, hmedia⟩ := guarded_mediaRefs runtime fieldMap hnames record.payload
  have hrest : ∀ lineage : Lineage, lineage.nativeId = found.nativeId →
      ∀ (content : Content) (metadata : Dict String (Value ω)),
        (Confined (Raised.Names found.nativeId) (do
          let author ← runtime.author found.resolved found.authorId
          let media ← runtime.mediaRefs fieldMap record.payload
          runtime.create fieldMap found.nativeId moment content lineage (orNone found.url) author
            media (runtime.counters fieldMap found.resolved) metadata) ↔
        (found.authorId ≠ "" → runtime.AuthorReads found.resolved) ∧
          runtime.AttachmentsRead fieldMap record.payload) := by
    intro lineage hlineage content metadata
    rw [hauthor.bind, hmedia.bind]
    exact and_congr_right fun _ => and_iff_left (confined_create hid hlineage _ _ _ _ _ _ _)
  unfold compose
  rw [(guarded_cleanText runtime hnames _).bind, confined_bind, confined_lineage]
  constructor
  · rintro ⟨htitle, hfetched, hnext⟩
    have hlater : record.fetchedAt.isAware = true → ∀ fetchedAt,
        runtime.astimezone record.fetchedAt = .ok fetchedAt →
          (found.authorId ≠ "" → runtime.AuthorReads found.resolved) ∧
            runtime.AttachmentsRead fieldMap record.payload := fun haware fetchedAt hmoment =>
      (hrest _ hid.2 ..).mp (hnext _ (lineage_ok.mpr ⟨haware, fetchedAt, hmoment, rfl⟩))
    refine ⟨htitle, hfetched, fun haware fetchedAt hmoment => ?_, fun haware fetchedAt hmoment =>
      (hlater haware fetchedAt hmoment).2⟩
    rw [← hauthorId]
    exact (hlater haware fetchedAt hmoment).1
  · intro h
    refine ⟨h.title, h.fetchedAt, fun lineage hlineage => ?_⟩
    obtain ⟨haware, fetchedAt, hmoment, rfl⟩ := lineage_ok.mp hlineage
    refine (hrest _ hid.2 ..).mpr ⟨?_, h.media haware fetchedAt hmoment⟩
    rw [hauthorId]
    exact h.author haware fetchedAt hmoment

theorem confined_assemble {found : Identified ω}
    (hid : IsNativeId found.nativeId)
    (hauthorId : found.authorId =
      runtime.coercions.asCleanStr (field found.resolved "author_id")) :
    Confined (Raised.Names found.nativeId)
        (runtime.assemble fieldMap record ctx extraMetadata found) ↔
      (fieldMap.Complete found.resolved → found.moment.isSome = true →
        runtime.AssemblyReads fieldMap record found.resolved) := by
  have henforced : Confined (Raised.Names found.nativeId)
      (failing (fieldMap.enforceRequired found.resolved found.nativeId)) :=
    confined_enforceRequired _ _
  unfold assemble
  rw [confined_bind, and_iff_right henforced]
  cases found.moment with
  | none =>
    exact iff_of_true (fun _ _ => confined_error.mpr rfl) fun _ h => by cases h
  | some moment =>
    have hcompose : Confined (Raised.Names found.nativeId)
        (runtime.compose fieldMap record ctx extraMetadata found moment) ↔
          runtime.AssemblyReads fieldMap record found.resolved :=
      confined_compose record ctx extraMetadata moment hid hauthorId
    constructor
    · exact fun h hcomplete _ => hcompose.mp (h () (enforceRequired_ok.mpr hcomplete))
    · exact fun h _ hok => hcompose.mpr (h (enforceRequired_ok.mp hok) rfl)

theorem names_isNormalization {raised : Raised}
    (h : raised.Names nativeId) : raised.IsNormalization := by
  cases raised with
  | normalization fault carried => exact trivial
  | python error => exact h

theorem contains_iff (urlResolver : Option UrlResolver) (extraMetadata : Dict String (Value ω)) :
    runtime.Contains fieldMap record ctx urlResolver extraMetadata ↔
      Confined Raised.IsNormalization (runtime.identify fieldMap record urlResolver) ∧
        ∀ found, runtime.identify fieldMap record urlResolver = .ok found →
          Confined (Raised.Names found.nativeId)
            (runtime.assemble fieldMap record ctx extraMetadata found) := by
  unfold Contains toSignal
  rw [confined_bind]
  constructor
  · rintro ⟨⟨hidentify, -⟩, hnames⟩
    refine ⟨hidentify, fun found hfound => ?_⟩
    have hrun := hnames found hfound
    rw [confined_bind] at hrun
    exact hrun.2 found hfound
  · rintro ⟨hidentify, hassemble⟩
    refine ⟨⟨hidentify, fun found hfound error herror =>
      names_isNormalization (hassemble found hfound error herror)⟩, fun found hfound => ?_⟩
    rw [hfound]
    exact hassemble found hfound

/-- One malformed record costs one record where Python reads what the fields hold. -/
theorem toSignal_contains (h : fieldMap.Quiet) (record : RawRecord ω) (ctx : MappingContext)
    (urlResolver : Option UrlResolver) (extraMetadata : Dict String (Value ω)) :
    ∃ resolved, FieldMap.resolveInto runtime.coercions record.payload .empty fieldMap.iterSpecs =
        .ok resolved ∧
      (runtime.Contains fieldMap record ctx urlResolver extraMetadata ↔
        runtime.IdentityReads fieldMap resolved urlResolver ∧
          (runtime.HasIdentity fieldMap resolved urlResolver → fieldMap.Complete resolved →
            (runtime.momentRead (field resolved "timestamp")
              fieldMap.assumeTimezone).1.isSome = true →
                runtime.AssemblyReads fieldMap record resolved)) := by
  obtain ⟨resolved, hresolved⟩ := resolveInto_ok h runtime.coercions record.payload .empty
  refine ⟨resolved, hresolved, ?_⟩
  rw [contains_iff, confined_identify hresolved]
  refine and_congr_right fun hreads => ?_
  have hderived := deriveNativeId_ok fieldMap.platform
    (runtime.coercions.asCleanStr (field resolved "author_id"))
    (runtime.momentRead (field resolved "timestamp") fieldMap.assumeTimezone).1
    (fieldMap.body runtime.coercions (field resolved "text")) hreads.itemId hreads.permalink
  rw [identify_eq hresolved hreads]
  constructor
  · intro hnames hidentity hcomplete hmoment
    obtain ⟨nativeId, hid⟩ := hderived.mpr hidentity
    rw [hid] at hnames
    exact (confined_assemble record ctx extraMetadata (isNativeId_derived hid) rfl).mp
      (hnames _ rfl) hcomplete hmoment
  · intro hassembly found hfound
    cases hid : runtime.deriveNativeId fieldMap.platform (field resolved "item_id")
        (runtime.permalink (field resolved "url") urlResolver)
        (runtime.coercions.asCleanStr (field resolved "author_id"))
        (runtime.momentRead (field resolved "timestamp") fieldMap.assumeTimezone).1
        (fieldMap.body runtime.coercions (field resolved "text")) urlResolver with
    | error raised =>
      rw [hid] at hfound
      cases hfound
    | ok nativeId =>
      rw [hid] at hfound
      cases hfound
      exact (confined_assemble record ctx extraMetadata (isNativeId_derived hid) rfl).mpr
        (hassembly (hderived.mp ⟨nativeId, hid⟩))

end Runtime

/-! ## A record with a bracket in its link -/

def Runtime.reader : Runtime Unit where
  coercions := sample
  unicode := .ascii
  printable := fun _ => true
  isinstance := fun _ => .object
  typeName := fun _ => "NoneType"
  repr := id
  parseFloat := fun _ => none
  asFloat := .ok
  thousandth := .ok
  fromtimestamp := fun _ => .ok ⟨0, some 0⟩
  datetime := fun _ => .ok ⟨0, some 0⟩
  fromisoformat := fun _ => .error (.valueError "Invalid isoformat string")
  parsedateToDatetime := fun _ => .error .typeError
  strptime := fun _ _ => .error (.valueError "unconverted data remains")
  astimezone := .ok

theorem link_identifies :
    (some (specAt "id")).isSome ∨ (some (specAt "link")).isSome ∨ (some (specAt "body")).isSome :=
  .inl rfl

def linked : FieldMap Unit :=
  { issues with url := some (specAt "link"), identifiable := link_identifies }

theorem linked_quiet : linked.Quiet := by
  have hspecs : linked.iterSpecs = [("timestamp", specAt "at"), ("item_id", specAt "id"),
    ("url", specAt "link"), ("text", specAt "body")] := rfl
  have hnone : ∀ entry ∈ linked.iterSpecs, entry.2.transform = none := by
    rw [hspecs]
    simp [specAt]
  intro entry hentry transform htransform
  rw [hnone entry hentry] at htransform
  cases htransform

def linkedRecord (link : String) : RawRecord Unit where
  nativeId := "1"
  payload := [("id", .str "1"), ("at", .int 0), ("body", .str "a"), ("link", .str link)]
  fetchedAt := ⟨0, some 0⟩
  rawBytes := none
  contentType := "application/json"
  sourceUrl := none
  requestFingerprint := none

def linkedContext : MappingContext := ⟨"github", "1", "r", "1.0.0"⟩

theorem linked_field (i : ℕ) {link : String} {resolved : Dict String (Value Unit)}
    (h : FieldMap.resolveInto sample (linkedRecord link).payload .empty linked.iterSpecs =
      .ok resolved) {name : String} {slot : Option (FieldSpec Unit)}
    (hslot : linked.slots[i]? = some (name, slot)) {value : Value Unit}
    (hvalue : FieldMap.slotValue sample (linkedRecord link).payload name slot = .ok value) :
    field resolved name = value := by
  have hfield := FieldMap.field_slot (List.mem_of_getElem? hslot) h
  rw [hvalue] at hfield
  exact (Except.ok.inj hfield).symm

theorem toSignal_contains_linked :
    Runtime.reader.Contains linked (linkedRecord "") linkedContext none .empty := by
  obtain ⟨resolved, hresolved, hiff⟩ := Runtime.reader.toSignal_contains linked_quiet
    (linkedRecord "") linkedContext none .empty
  have htimestamp : field resolved "timestamp" = .int 0 := linked_field 0 hresolved rfl rfl
  have hitem : field resolved "item_id" = .str "1" := linked_field 1 hresolved rfl rfl
  have hurl : field resolved "url" = .none := linked_field 2 hresolved rfl rfl
  have htitle : field resolved "title" = .none := linked_field 3 hresolved rfl rfl
  have htext : field resolved "text" = .str "a" := linked_field 4 hresolved rfl rfl
  have hauthor : field resolved "author_id" = .none := linked_field 5 hresolved rfl rfl
  refine hiff.mpr ⟨⟨?_, ?_, ?_, ?_, ?_, ?_, ?_⟩, fun _ _ _ => ⟨?_, ?_, ?_, ?_⟩⟩
  · rw [htext]
    rfl
  · rw [hurl]
    rfl
  · rw [hurl]
    exact fun h => absurd rfl h
  · rw [hauthor]
    rfl
  · rw [htimestamp]
    exact fun _ h => by cases h
  · rw [hitem]
    rfl
  · rw [hitem]
    exact fun h => absurd h (by decide)
  · rw [htitle]
    rfl
  · exact fun _ _ h => by cases h
  · rw [hauthor]
    exact fun _ _ _ h => absurd rfl h
  · exact fun _ _ _ _ h => by cases h

/-- The record is refused, and the error is not the mapper's. -/
theorem bracket_escapes : ¬∀ (runtime : Runtime Unit) (fieldMap : FieldMap Unit), fieldMap.Quiet →
    ∀ record ctx urlResolver extraMetadata,
      runtime.Contains fieldMap record ctx urlResolver extraMetadata := by
  intro hall
  have h := hall .reader linked linked_quiet (linkedRecord "http://[") linkedContext none .empty
  obtain ⟨resolved, hresolved⟩ := Runtime.resolveInto_ok linked_quiet sample
    (linkedRecord "http://[").payload .empty
  have hurl : field resolved "url" = .str "http://[" := linked_field 2 hresolved rfl rfl
  have hreads := (Runtime.confined_identify hresolved).mp ((Runtime.contains_iff ..).mp h).1
  have hparses := hreads.parses
  rw [hurl] at hparses
  have hcanonical := (Url.Unicode.ascii.canonicalizeUrl_isSome none "http://[".toList).mpr
    (hparses (by decide))
  exact absurd hcanonical (by decide +kernel)

end OmniSense.Enrichment
