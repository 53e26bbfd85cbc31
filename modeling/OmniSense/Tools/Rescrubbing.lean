import OmniSense.Library.Fields
import OmniSense.Tools.Untrusted

/-! Scrubbing what is scrubbed: a text stays as it is, an attribute as well once it is validated. -/

namespace OmniSense.Tools

open Library List

variable {value : List Char} {words : List (List Char)} {c : Char}

/-! ## Texts -/

structure IsClean (text : List Char) : Prop where
  scrubbed : IsScrubbed text
  plain : ∀ c ∈ text, isControl c = false

theorem redactedToken_plain : ∀ c ∈ redactedToken, isControl c = false :=
  forall_mem_of_all (by decide)

variable (value : List Char)

theorem isClean_scrubText : IsClean (scrubText value) := by
  refine ⟨isScrubbed_scrubText value, fun c hc => ?_⟩
  rcases mem_replaceWords hc with hc | hc
  · exact redactedToken_plain c hc
  · simpa using (mem_filter.mp hc).2

theorem IsClean.inside {text part : List Char} (h : IsClean text) (hpart : part <:+: text) :
    IsClean part := ⟨h.scrubbed.inside hpart, fun c hc => h.plain c (hpart.subset hc)⟩

theorem IsClean.scrubText_eq {text : List Char} (h : IsClean text) : scrubText text = text := by
  have hkept : text.filter (fun c => !isControl c) = text :=
    filter_eq_self.mpr fun c hc => by rw [h.plain c hc]; rfl
  unfold scrubText
  rw [hkept, h.scrubbed.replaceWords_eq]

theorem trim_eq : trim value = stripEnds isWhite value := rfl

theorem isClean_cleanText : IsClean (cleanText value) := by
  have hfront : (scrubText value).take MAX_UNTRUSTED_CHARS <+: scrubText value :=
    take_prefix _ _
  exact (isClean_scrubText value).inside ((trim_inside _).trans hfront.isInfix)

theorem cleanText_cleanText : cleanText (cleanText value) = cleanText value := by
  have hshort : (cleanText value).length ≤ MAX_UNTRUSTED_CHARS :=
    (trim_inside _).length_le.trans (length_take_le _ _)
  calc cleanText (cleanText value) = trim (cleanText value) := by
        rw [cleanText, (isClean_cleanText value).scrubText_eq, take_of_length_le hshort]
    _ = cleanText value := stripEnds_stripEnds (fun _ h => h) _

/-! ## Attributes -/

theorem flatten_eq : flatten value = [' '].intercalate (fields isSpace value) := by
  unfold flatten fields
  congr 2
  funext piece
  cases piece <;> rfl

theorem unmark_cases (c : Char) : unmark c = c ∨ isSpace c = false ∧ isSpace (unmark c) = false ∧
    unmark (unmark c) = unmark c ∧ isControl (unmark c) = false := by
  by_cases hquote : c = quote
  · rw [hquote]
    exact .inr (by decide)
  by_cases hless : c = '<'
  · rw [hless]
    exact .inr (by decide)
  by_cases hgreater : c = '>'
  · rw [hgreater]
    exact .inr (by decide)
  · left
    rw [unmark, if_neg hquote, if_neg hless, if_neg hgreater]

theorem unmark_unmark (c : Char) : unmark (unmark c) = unmark c := by
  rcases unmark_cases c with h | h
  · rw [h, h]
  · exact h.2.2.1

def attributeWords : List (List Char) :=
  (fields isSpace (scrubText value)).map fun word => word.map unmark

theorem isField_attributeWords :
    ∀ word ∈ attributeWords value, IsField isSpace word := by
  intro word hword
  obtain ⟨field, hfield, rfl⟩ := mem_map.mp hword
  have hsolid := isField_of_mem hfield
  refine ⟨fun hnil => hsolid.ne_nil (map_eq_nil_iff.mp hnil), fun c hc => ?_⟩
  obtain ⟨d, hd, rfl⟩ := mem_map.mp hc
  rcases unmark_cases d with h | h
  · rw [h, hsolid.solid d hd]
  · exact h.2.1

theorem map_intercalate {f : Char → Char} (hf : f ' ' = ' ') (words : List (List Char)) :
    ([' '].intercalate words).map f = [' '].intercalate (words.map fun word => word.map f) := by
  induction words with
  | nil => rfl
  | cons word words ih =>
    by_cases hnil : words = []
    · rw [hnil, map_singleton, intercalate_singleton, intercalate_singleton]
    · have hmap : words.map (fun word => word.map f) ≠ [] := fun h => hnil (map_eq_nil_iff.mp h)
      rw [intercalate_cons_ne_nil hnil, map_append, map_cons, hf, ih, map_cons,
        intercalate_cons_ne_nil hmap]

theorem scrubAttribute_eq : scrubAttribute value =
    ([' '].intercalate (attributeWords value)).take MAX_ATTRIBUTE_CHARS := by
  unfold scrubAttribute attributeWords
  rw [flatten_eq, map_intercalate rfl]

/-- An attribute as its scrubbing leaves it, up to the blank that the cut may leave behind it. -/
structure IsScrubbedAttribute (text : List Char) : Prop where
  clean : IsClean text
  unmarked : ∀ c ∈ text, unmark c = c
  short : text.length ≤ MAX_ATTRIBUTE_CHARS

theorem isScrubbedAttribute_scrubAttribute :
    IsScrubbedAttribute (scrubAttribute value) := by
  refine ⟨⟨(isAttribute_scrubAttribute value).scrubbed, ?_⟩, ?_, length_take_le _ _⟩
  · intro c hc
    rw [scrubAttribute, flatten_eq] at hc
    obtain ⟨d, hd, rfl⟩ := mem_map.mp (mem_of_mem_take hc)
    rcases unmark_cases d with h | h
    · rw [h]
      rcases mem_intercalate hd with rfl | ⟨field, hfield, hd⟩
      · rfl
      · exact (isClean_scrubText value).plain d (mem_of_mem_fields hfield hd)
    · exact h.2.2.2
  · intro c hc
    obtain ⟨d, -, rfl⟩ := mem_map.mp (mem_of_mem_take hc)
    exact unmark_unmark d

theorem IsScrubbedAttribute.inside {text part : List Char} (h : IsScrubbedAttribute text)
    (hpart : part <:+: text) : IsScrubbedAttribute part :=
  ⟨h.clean.inside hpart, fun c hc => h.unmarked c (hpart.subset hc),
    hpart.length_le.trans h.short⟩

theorem IsScrubbedAttribute.scrub_eq {text : List Char} (h : IsScrubbedAttribute text)
    (hpart : [' '].intercalate (fields isSpace text) <:+: text) :
    scrubAttribute text = [' '].intercalate (fields isSpace text) := by
  have hjoined := h.inside hpart
  have hunmark : ([' '].intercalate (fields isSpace text)).map unmark =
      [' '].intercalate (fields isSpace text) := by
    rw [map_congr_left (g := id) hjoined.unmarked, map_id]
  unfold scrubAttribute
  rw [h.clean.scrubText_eq, flatten_eq, hunmark, take_of_length_le hjoined.short]

def CutBehindBlank : Prop :=
  ∃ words rest, fields isSpace (scrubText value) = words ++ rest ∧ rest ≠ [] ∧
    (words.map List.length).sum + words.length = MAX_ATTRIBUTE_CHARS

variable {words : List (List Char)}

theorem length_marked (h : words ≠ []) :
    ([' '].intercalate (words.map fun word => word.map unmark)).length + 1 =
      (words.map List.length).sum + words.length := by
  have hsame : ((words.map fun word => word.map unmark).map List.length) =
      words.map List.length := by
    rw [map_map]
    exact map_congr_left fun word _ => length_map unmark
  rw [length_intercalate fun hnil => h (map_eq_nil_iff.mp hnil), hsame, length_map]

theorem fields_joined (h : ∀ word ∈ words, IsField isSpace word) :
    fields isSpace ([' '].intercalate words ++ [' ']) = words := by
  rw [fields_append_cons rfl, fields_intercalate rfl h, fields_nil, append_nil]

theorem scrubAttribute_cases :
    ∃ words : List (List Char), (∀ word ∈ words, IsField isSpace word) ∧
      ((¬CutBehindBlank value ∧ scrubAttribute value = [' '].intercalate words) ∨
        (CutBehindBlank value ∧ scrubAttribute value = [' '].intercalate words ++ [' '])) := by
  have hall := isField_attributeWords value
  have hcut : CutBehindBlank value → ∃ words : List (List Char),
      (∀ word ∈ words, IsField isSpace word) ∧
        scrubAttribute value = [' '].intercalate words ++ [' '] := by
    rintro ⟨words, rest, hsplit, hrest, hlength⟩
    have hne : words ≠ [] := by
      rintro rfl
      exact absurd hlength (by decide)
    have hmapped : attributeWords value = words.map (fun word => word.map unmark) ++
        rest.map fun word => word.map unmark := by rw [attributeWords, hsplit, map_append]
    have hmarked := (length_marked hne).trans hlength
    refine ⟨words.map fun word => word.map unmark, fun word hword => ?_, ?_⟩
    · exact hall word (hmapped ▸ mem_append_left _ hword)
    · rw [scrubAttribute_eq, hmapped, intercalate_append (fun h => hne (map_eq_nil_iff.mp h))
        (fun h => hrest (map_eq_nil_iff.mp h)), ← hmarked, take_length_add_append,
        take_succ_cons, take_zero]
  by_cases h : CutBehindBlank value
  · obtain ⟨words, hwords, heq⟩ := hcut h
    exact ⟨words, hwords, .inr ⟨h, heq⟩⟩
  · rcases take_intercalate (b := ' ') rfl hall MAX_ATTRIBUTE_CHARS with
      ⟨words, hwords, heq⟩ | ⟨words, rest, hsplit, hrest, hlength, -⟩
    · exact ⟨words, hwords, .inl ⟨h, by rw [scrubAttribute_eq, heq]⟩⟩
    · exfalso
      obtain ⟨front, back, hfields, rfl, rfl⟩ := map_eq_append_iff.mp hsplit
      refine h ⟨front, back, hfields, fun hnil => hrest (by rw [hnil]; rfl), ?_⟩
      have hne : front ≠ [] := by
        rintro rfl
        exact absurd hlength (by decide)
      exact (length_marked hne).symm.trans hlength

theorem scrubAttribute_twice :
    scrubAttribute (scrubAttribute value) = scrubAttribute value ↔ ¬CutBehindBlank value := by
  have hscrubbed := isScrubbedAttribute_scrubAttribute value
  obtain ⟨words, hwords, ⟨hcut, heq⟩ | ⟨hcut, heq⟩⟩ := scrubAttribute_cases value
  · have hfields : fields isSpace (scrubAttribute value) = words := by
      rw [heq, fields_intercalate rfl hwords]
    rw [hscrubbed.scrub_eq (by rw [hfields, heq]), hfields, heq]
    exact iff_of_true rfl hcut
  · have hfields : fields isSpace (scrubAttribute value) = words := by
      rw [heq, fields_joined hwords]
    have hfront : [' '].intercalate words <+: scrubAttribute value := heq ▸ prefix_append _ _
    rw [hscrubbed.scrub_eq (by rw [hfields]; exact hfront.isInfix), hfields, heq]
    refine iff_of_false (fun h => ?_) (not_not_intro hcut)
    have hlength := congrArg List.length h
    simp at hlength

theorem trim_joined (h : ∀ word ∈ words, IsField isSpace word) :
    trim ([' '].intercalate words) = [' '].intercalate words := by
  have hwhite : ∀ c, isSpace c = false → isWhite c = false := by
    intro c hc
    rw [isWhite, hc, Bool.false_and]
  exact stripEnds_of_ends (fun c hc => hwhite c (head_intercalate h c hc))
    fun c hc => hwhite c (last_intercalate h c hc)

theorem cleanAttribute_joined :
    ∃ words : List (List Char), (∀ word ∈ words, IsField isSpace word) ∧
      cleanAttribute value = [' '].intercalate words := by
  obtain ⟨words, hwords, ⟨-, heq⟩ | ⟨-, heq⟩⟩ := scrubAttribute_cases value
  · exact ⟨words, hwords, by rw [cleanAttribute, heq, trim_joined hwords]⟩
  · refine ⟨words, hwords, ?_⟩
    rw [cleanAttribute, heq, trim_eq, stripEnds_concat rfl, ← trim_eq, trim_joined hwords]

theorem cleanAttribute_cleanAttribute :
    cleanAttribute (cleanAttribute value) = cleanAttribute value := by
  obtain ⟨words, hwords, heq⟩ := cleanAttribute_joined value
  have hfields : fields isSpace (cleanAttribute value) = words := by
    rw [heq, fields_intercalate rfl hwords]
  have hscrubbed : IsScrubbedAttribute (cleanAttribute value) :=
    (isScrubbedAttribute_scrubAttribute value).inside (trim_inside _)
  have hsame : scrubAttribute (cleanAttribute value) = [' '].intercalate words := by
    rw [hscrubbed.scrub_eq (by rw [hfields, heq]), hfields]
  calc cleanAttribute (cleanAttribute value) = trim ([' '].intercalate words) := by
        rw [cleanAttribute, hsame]
    _ = cleanAttribute value := by rw [trim_joined hwords, heq]

/-! ## Spans -/

namespace UntrustedText

variable (s : UntrustedText)

def IsBuilt : Prop :=
  ∃ text source ref url truncated suspectedInjection, ∃ assignments : List Assignment,
    s = assignments.foldl assign (construct text source ref url truncated suspectedInjection)

def revalidate : UntrustedText :=
  construct s.text s.source s.ref s.url s.truncated s.suspectedInjection

/-- `capture` of its own fields, as `_summarise` makes it of an abstract. -/
def recapture (lower : List Char → List Char) (text : List Char) (maxChars : ℤ) : UntrustedText :=
  capture lower text s.source s.ref s.url maxChars

structure IsFixed : Prop where
  text : cleanText s.text = s.text
  source : cleanAttribute s.source = s.source
  ref : cleanAttribute s.ref = s.ref
  url : s.url.map cleanAttribute = s.url

variable {s}

theorem url_fixed (url : Option (List Char)) :
    (url.map cleanAttribute).map cleanAttribute = url.map cleanAttribute := by
  cases url with
  | none => rfl
  | some value => exact congrArg some (cleanAttribute_cleanAttribute value)

theorem isFixed_construct (text source ref : List Char) (url : Option (List Char))
    (truncated suspectedInjection : Bool) :
    (construct text source ref url truncated suspectedInjection).IsFixed :=
  ⟨cleanText_cleanText text, cleanAttribute_cleanAttribute source,
    cleanAttribute_cleanAttribute ref, url_fixed url⟩

theorem IsFixed.assign (h : s.IsFixed) (assignment : Assignment) : (s.assign assignment).IsFixed := by
  cases assignment with
  | text value => exact ⟨cleanText_cleanText value, h.source, h.ref, h.url⟩
  | source value => exact ⟨h.text, cleanAttribute_cleanAttribute value, h.ref, h.url⟩
  | ref value => exact ⟨h.text, h.source, cleanAttribute_cleanAttribute value, h.url⟩
  | url value => exact ⟨h.text, h.source, h.ref, url_fixed value⟩
  | truncated | suspectedInjection => exact ⟨h.text, h.source, h.ref, h.url⟩

theorem IsBuilt.isFixed (h : s.IsBuilt) : s.IsFixed := by
  obtain ⟨text, source, ref, url, truncated, suspectedInjection, assignments, rfl⟩ := h
  have hall : ∀ (start : UntrustedText), start.IsFixed →
      (assignments.foldl UntrustedText.assign start).IsFixed := by
    induction assignments with
    | nil => exact fun _ h => h
    | cons assignment rest ih => exact fun start h => ih _ (h.assign assignment)
  exact hall _ (isFixed_construct ..)

theorem IsFixed.revalidate_eq (h : s.IsFixed) : s.revalidate = s := by
  unfold revalidate construct
  simp only [h.text, h.source, h.ref, h.url]

end UntrustedText

/-- **Scrubbing is done once.** A scrubbed text stays as it is; a scrubbed attribute does unless it was
cut behind a blank, which goes the second time. A span that went through the validators goes
through them unchanged, and captured again it keeps its ref, and its text within the limit. -/
theorem scrubbing_twice :
    scrubText (scrubText value) = scrubText value ∧
      (scrubAttribute (scrubAttribute value) = scrubAttribute value ↔ ¬CutBehindBlank value) ∧
      ∀ s : UntrustedText, s.IsBuilt → s.revalidate = s ∧
        ∀ (lower : List Char → List Char) (text : List Char) (maxChars : ℤ),
          (s.recapture lower text maxChars).source = s.source ∧
          (s.recapture lower text maxChars).ref = s.ref ∧
          (s.recapture lower text maxChars).url = s.url ∧
          ((s.text.length : ℤ) ≤ min maxChars MAX_UNTRUSTED_CHARS →
            (s.recapture lower s.text maxChars).text = s.text) := by
  refine ⟨(isClean_scrubText value).scrubText_eq, scrubAttribute_twice value, fun s hs => ?_⟩
  have hfixed := hs.isFixed
  refine ⟨hfixed.revalidate_eq, fun lower text maxChars => ?_⟩
  refine ⟨hfixed.source, hfixed.ref, hfixed.url, fun hlimit => ?_⟩
  have hclean : IsClean s.text := hfixed.text ▸ isClean_cleanText s.text
  have hshort : s.text.length ≤ (max 0 (min maxChars MAX_UNTRUSTED_CHARS)).toNat := by omega
  calc (s.recapture lower s.text maxChars).text
      = cleanText ((scrubText s.text).take (max 0 (min maxChars MAX_UNTRUSTED_CHARS)).toNat) := rfl
    _ = s.text := by rw [hclean.scrubText_eq, take_of_length_le hshort, hfixed.text]

def longRef : List Char := List.replicate 199 'a' ++ [' ', 'b']

theorem longRef_chars : ∀ c ∈ longRef, c ∈ ['a', ' ', 'b'] := by
  intro c hc
  rcases mem_append.mp hc with hc | hc
  · rw [eq_of_mem_replicate hc]
    exact mem_cons_self
  · exact mem_cons_of_mem _ hc

theorem longRef_clean : IsClean longRef := by
  refine ⟨.of_missing m_mem_fenceTokens fun hm => ?_, fun c hc => ?_⟩
  · obtain ⟨c, hc, hfold⟩ := mem_map.mp hm
    have hall : ∀ c ∈ ['a', ' ', 'b'], foldCase c ≠ 'm' := forall_mem_of_all (by decide)
    exact hall c (longRef_chars c hc) hfold
  · have hall : ∀ c ∈ ['a', ' ', 'b'], isControl c = false := forall_mem_of_all (by decide)
    exact hall c (longRef_chars c hc)

theorem longRef_cut : scrubAttribute (scrubAttribute longRef) ≠ scrubAttribute longRef := by
  have hword : IsField isSpace (List.replicate 199 'a') :=
    ⟨fun h => absurd (congrArg List.length h) (by rw [length_replicate]; decide),
      fun c hc => by rw [eq_of_mem_replicate hc]; rfl⟩
  have hfields : fields isSpace (scrubText longRef) = [List.replicate 199 'a', ['b']] := by
    rw [longRef_clean.scrubText_eq, longRef, fields_append_cons rfl, hword.fields_eq]
    rfl
  rw [Ne, scrubAttribute_twice, not_not]
  refine ⟨[List.replicate 199 'a'], [['b']], hfields, cons_ne_nil _ _, ?_⟩
  rw [map_singleton, length_replicate]
  rfl

end OmniSense.Tools
