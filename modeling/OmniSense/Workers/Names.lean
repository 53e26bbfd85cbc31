import OmniSense.Library.Fields
import OmniSense.Workers.Mentions

/-! Normalizing a name that is normalized already. Over ASCII the second pass finds the words of the
first, so it all rests on what it does to them. -/

namespace OmniSense.Workers

open Library List

/-! ## Words -/

def Python.nameWords (py : Python) (raw : String) : List String :=
  let strippedMarks := (py.nfkd raw.toList).filter fun ch => !py.combining ch
  let expanded := strippedMarks.flatMap fun ch => if ch = '&' then " and ".toList else [ch]
  let withoutApostrophes := (py.casefold expanded).filter fun ch => ch ∉ apostrophes
  splitWords (withoutApostrophes.map fun ch => if py.isalnum ch then ch else ' ')

def dropArticle (words : List String) : List String :=
  if 1 < words.length ∧ words.head?.any (· ∈ leadingArticles) then words.tail else words

def dropForms (words : List String) : List String :=
  let kept := words.filter (· ∉ legalSuffixTokens)
  if kept.isEmpty then words else kept

theorem normalizeName_eq (py : Python) (raw : String) :
    py.normalizeName raw = " ".intercalate (dropForms (dropArticle (py.nameWords raw))) := rfl

theorem splitWords_eq (text : List Char) :
    splitWords text = (fields isSpace text).map String.ofList := rfl

/-! ## ASCII -/

def IsAscii (text : List Char) : Prop := ∀ c ∈ text, c.toNat < 128

structure Python.ActsOnAscii (py : Python) : Prop where
  nfkd : ∀ text, IsAscii text → py.nfkd text = text
  combining : ∀ c : Char, c.toNat < 128 → py.combining c = false
  casefold : ∀ text, IsAscii text → py.casefold text = text.map Char.toLower
  isalnum : ∀ c : Char, c.toNat < 128 → py.isalnum c = c.isAlphanum

structure IsNameChar (c : Char) : Prop where
  alphanum : c.isAlphanum = true
  lower : c.toLower = c

variable {c : Char}

theorem IsNameChar.ascii (h : IsNameChar c) : c.toNat < 128 := by
  have := toNat_of_isAlphanum h.alphanum
  omega

theorem IsNameChar.solid (h : IsNameChar c) : isSpace c = false := by
  have := toNat_of_isAlphanum h.alphanum
  simp only [isSpace, decide_eq_false_iff_not]
  omega

theorem IsNameChar.ne {c d : Char} (h : IsNameChar c) (hd : d.isAlphanum = false) : c ≠ d := by
  rintro rfl
  rw [h.alphanum] at hd
  cases hd

theorem and_ascii : IsAscii " and ".toList := forall_mem_of_all (by decide)

theorem apostrophes_apart : ∀ c ∈ apostrophes, c.isAlphanum = false :=
  forall_mem_of_all (by decide)

structure IsNameWord (word : String) : Prop where
  ne_nil : word.toList ≠ []
  chars : ∀ c ∈ word.toList, IsNameChar c

theorem IsNameWord.isField {word : String} (h : IsNameWord word) : IsField isSpace word.toList where
  ne_nil := h.ne_nil
  solid := fun c hc => (h.chars c hc).solid

theorem toLower_lt (h : c.toNat < 128) : c.toLower.toNat < 128 := by
  refine ascii_or (fun c => c.toNat < 128 → c.toLower.toNat < 128) (by decide) (fun c hc h => ?_) c h
  omega

variable {py : Python} {raw : String} {words : List String}

theorem nameWords_eq (hpy : py.ActsOnAscii) (hraw : IsAscii raw.toList) :
    py.nameWords raw = splitWords ((((raw.toList.flatMap fun ch =>
      if ch = '&' then " and ".toList else [ch]).map Char.toLower).filter fun ch =>
        ch ∉ apostrophes).map fun ch => if py.isalnum ch then ch else ' ') := by
  have hmarks : (py.nfkd raw.toList).filter (fun ch => !py.combining ch) = raw.toList := by
    rw [hpy.nfkd _ hraw, filter_eq_self]
    intro c hc
    rw [hpy.combining c (hraw c hc)]
    rfl
  have hexpanded : IsAscii (raw.toList.flatMap fun ch =>
      if ch = '&' then " and ".toList else [ch]) := by
    intro c hc
    obtain ⟨d, hd, hc⟩ := mem_flatMap.mp hc
    split_ifs at hc
    · exact and_ascii c hc
    · rw [mem_singleton.mp hc]
      exact hraw d hd
  simp only [Python.nameWords, hmarks, hpy.casefold _ hexpanded]

theorem isNameWord_of_mem (hpy : py.ActsOnAscii) (hraw : IsAscii raw.toList) :
    ∀ word ∈ py.nameWords raw, IsNameWord word := by
  intro word hword
  rw [nameWords_eq hpy hraw, splitWords_eq] at hword
  obtain ⟨field, hfield, rfl⟩ := mem_map.mp hword
  have hsolid := isField_of_mem hfield
  refine ⟨by rw [String.toList_ofList]; exact hsolid.ne_nil, fun c hc => ?_⟩
  rw [String.toList_ofList] at hc
  have hplain := hsolid.solid c hc
  obtain ⟨d, hd, hdc⟩ := mem_map.mp (mem_of_mem_fields hfield hc)
  obtain ⟨e, he, rfl⟩ := mem_map.mp (mem_filter.mp hd).1
  have hascii : e.toLower.toNat < 128 := by
    obtain ⟨b, hb, he⟩ := mem_flatMap.mp he
    split_ifs at he
    · exact toLower_lt (and_ascii e he)
    · rw [mem_singleton.mp he]
      exact toLower_lt (hraw b hb)
  split_ifs at hdc with halnum
  · subst hdc
    rw [hpy.isalnum _ hascii] at halnum
    exact ⟨halnum, toLower_toLower e⟩
  · rw [← hdc] at hplain
    cases hplain

theorem nameWords_intercalate (hpy : py.ActsOnAscii) (h : ∀ word ∈ words, IsNameWord word) :
    py.nameWords (" ".intercalate words) = words := by
  have htext : (" ".intercalate words).toList = [' '].intercalate (words.map String.toList) := by
    rw [String.toList_intercalate]
    rfl
  have hchars : ∀ c ∈ (" ".intercalate words).toList, c = ' ' ∨ IsNameChar c := by
    intro c hc
    rw [htext] at hc
    rcases mem_intercalate hc with hc | ⟨field, hfield, hc⟩
    · exact .inl hc
    · obtain ⟨word, hword, rfl⟩ := mem_map.mp hfield
      exact .inr ((h word hword).chars c hc)
  have hascii : IsAscii (" ".intercalate words).toList := by
    intro c hc
    rcases hchars c hc with rfl | hc
    · decide
    · exact hc.ascii
  have hexpand : (" ".intercalate words).toList.flatMap (fun ch =>
      if ch = '&' then " and ".toList else [ch]) = (" ".intercalate words).toList := by
    rw [flatMap_congr (g := fun ch => [ch]), flatMap_singleton']
    intro c hc
    rw [if_neg]
    rcases hchars c hc with rfl | hc
    · decide
    · exact hc.ne (by decide)
  have hlower : (" ".intercalate words).toList.map Char.toLower =
      (" ".intercalate words).toList := by
    rw [map_congr_left (g := id), map_id]
    intro c hc
    rcases hchars c hc with rfl | hc
    · rfl
    · exact hc.lower
  have hkept : (" ".intercalate words).toList.filter (fun ch => ch ∉ apostrophes) =
      (" ".intercalate words).toList := by
    rw [filter_eq_self]
    intro c hc
    rw [decide_eq_true_eq]
    intro hmem
    rcases hchars c hc with rfl | hc
    · exact absurd hmem (by decide)
    · exact hc.ne (apostrophes_apart c hmem) rfl
  have hspaced : (" ".intercalate words).toList.map (fun ch => if py.isalnum ch then ch else ' ') =
      (" ".intercalate words).toList := by
    rw [map_congr_left (g := id), map_id]
    intro c hc
    rcases hchars c hc with rfl | hc
    · split_ifs <;> rfl
    · rw [hpy.isalnum c hc.ascii, if_pos hc.alphanum]
      rfl
  rw [nameWords_eq hpy hascii, hexpand, hlower, hkept, hspaced, splitWords_eq, htext,
    fields_intercalate (by decide), map_map]
  · rw [map_congr_left (g := id), map_id]
    intro word _
    exact String.ofList_toList
  · intro field hfield
    obtain ⟨word, hword, rfl⟩ := mem_map.mp hfield
    exact (h word hword).isField

/-! ## Articles and corporate forms -/

def ExposesArticle (words : List String) : Prop :=
  ∃ first forms article rest, words = first :: forms ++ article :: rest ∧
    (first ∈ leadingArticles ∨ first ∈ legalSuffixTokens) ∧ (∀ w ∈ forms, w ∈ legalSuffixTokens) ∧
    article ∈ leadingArticles ∧ ∃ w ∈ rest, w ∉ legalSuffixTokens

def properWords (words : List String) : List String := words.filter (· ∉ legalSuffixTokens)

theorem article_proper : ∀ article ∈ leadingArticles, article ∉ legalSuffixTokens := by decide

theorem properWords_eq_nil : properWords words = [] ↔ ∀ w ∈ words, w ∈ legalSuffixTokens := by
  simp [properWords]

theorem properWords_properWords : properWords (properWords words) = properWords words := by
  unfold properWords
  rw [filter_filter]
  simp

theorem dropForms_eq : dropForms words =
    if properWords words = [] then words else properWords words := by
  unfold dropForms properWords
  simp only [List.isEmpty_iff]

theorem dropArticle_cons {article second : String} {rest : List String}
    (h : article ∈ leadingArticles) : dropArticle (article :: second :: rest) = second :: rest := by
  unfold dropArticle
  rw [if_pos ⟨by simp, by simpa using h⟩]
  rfl

def StartsWithArticle (words : List String) : Prop :=
  ∃ article second rest, words = article :: second :: rest ∧ article ∈ leadingArticles

theorem dropArticle_eq (h : ¬StartsWithArticle words) : dropArticle words = words := by
  unfold dropArticle
  rw [if_neg]
  rintro ⟨hlong, hhead⟩
  rcases words with _ | ⟨article, _ | ⟨second, rest⟩⟩
  · cases hhead
  · simp at hlong
  · exact h ⟨article, second, rest, rfl, by simpa using hhead⟩

theorem dropForms_forms (h : ∀ w ∈ words, w ∈ legalSuffixTokens) : dropForms words = words := by
  rw [dropForms_eq, if_pos (properWords_eq_nil.mpr h)]

theorem not_startsWithArticle (h : ∀ w ∈ words, w ∈ legalSuffixTokens) :
    ¬StartsWithArticle words := by
  rintro ⟨article, second, rest, rfl, harticle⟩
  exact article_proper article harticle (h article mem_cons_self)

theorem dropped_again_iff : dropForms (dropArticle (dropForms words)) = dropForms words ↔
    ¬StartsWithArticle (properWords words) := by
  by_cases hnil : properWords words = []
  · have hforms := properWords_eq_nil.mp hnil
    rw [dropForms_forms hforms, dropArticle_eq (not_startsWithArticle hforms),
      dropForms_forms hforms, hnil]
    refine ⟨fun _ => ?_, fun _ => rfl⟩
    rintro ⟨article, second, rest, heq, -⟩
    cases heq
  · have hfirst : dropForms words = properWords words := by rw [dropForms_eq, if_neg hnil]
    rw [hfirst]
    constructor
    · rintro heq ⟨article, second, rest, hwords, harticle⟩
      have hkept : properWords (second :: rest) = second :: rest := by
        have hall := hwords ▸ @properWords_properWords words
        unfold properWords at hall ⊢
        rw [filter_eq_self] at hall ⊢
        exact fun w hw => hall w (mem_cons_of_mem _ hw)
      rw [hwords, dropArticle_cons harticle, dropForms_eq, hkept, if_neg (cons_ne_nil _ _)]
        at heq
      have hlen := congrArg List.length heq
      simp at hlen
    · intro hstarts
      rw [dropArticle_eq hstarts, dropForms_eq, properWords_properWords, if_neg hnil]

theorem startsWithArticle_proper_iff : StartsWithArticle (properWords words) ↔
    ∃ forms article rest, words = forms ++ article :: rest ∧
      (∀ w ∈ forms, w ∈ legalSuffixTokens) ∧ article ∈ leadingArticles ∧
      ∃ w ∈ rest, w ∉ legalSuffixTokens := by
  constructor
  · rintro ⟨article, second, rest, heq, harticle⟩
    obtain ⟨forms, behind, rfl, hforms, -, hbehind⟩ := filter_eq_cons_iff.mp heq
    have hsecond : second ∈ properWords behind := by
      unfold properWords
      rw [hbehind]
      exact mem_cons_self
    refine ⟨forms, article, behind, rfl, fun w hw => ?_, harticle, second,
      mem_of_mem_filter hsecond, by simpa using (mem_filter.mp hsecond).2⟩
    simpa using hforms w hw
  · rintro ⟨forms, article, rest, rfl, hforms, harticle, w, hw, hproper⟩
    have hmem : w ∈ properWords rest := mem_filter.mpr ⟨hw, by simpa using hproper⟩
    obtain ⟨second, behind, hrest⟩ := exists_cons_of_ne_nil (ne_nil_of_mem hmem)
    refine ⟨article, second, behind, ?_, harticle⟩
    have harticle' : properWords [article] = [article] :=
      filter_eq_self.mpr fun v hv => by
        rw [mem_singleton.mp hv]
        simpa using article_proper article harticle
    calc properWords (forms ++ article :: rest)
        = properWords forms ++ (properWords [article] ++ properWords rest) := by
          unfold properWords
          rw [← filter_append, singleton_append, ← filter_append]
      _ = article :: second :: behind := by
          rw [properWords_eq_nil.mpr hforms, harticle', hrest]
          rfl

theorem startsWithArticle_iff :
    StartsWithArticle (properWords (dropArticle words)) ↔ ExposesArticle words := by
  rw [startsWithArticle_proper_iff]
  by_cases hstarts : StartsWithArticle words
  · obtain ⟨article, second, rest, rfl, harticle⟩ := hstarts
    rw [dropArticle_cons harticle]
    constructor
    · rintro ⟨forms, exposed, behind, heq, hrest⟩
      refine ⟨article, forms, exposed, behind, ?_, .inl harticle, hrest⟩
      rw [heq]
      rfl
    · rintro ⟨first, forms, exposed, behind, heq, -, hrest⟩
      exact ⟨forms, exposed, behind, (List.cons.inj heq).2, hrest⟩
  · rw [dropArticle_eq hstarts]
    constructor
    · rintro ⟨forms, exposed, behind, rfl, hforms, hexposed, w, hw, hproper⟩
      cases forms with
      | nil =>
        obtain ⟨second, rest, rfl⟩ := exists_cons_of_ne_nil (ne_nil_of_mem hw)
        exact absurd ⟨exposed, second, rest, rfl, hexposed⟩ hstarts
      | cons first forms =>
        exact ⟨first, forms, exposed, behind, rfl, .inr (hforms first mem_cons_self),
          fun v hv => hforms v (mem_cons_of_mem _ hv), hexposed, w, hw, hproper⟩
    · rintro ⟨first, forms, exposed, behind, rfl, hfirst, hforms, hrest⟩
      rcases hfirst with hfirst | hfirst
      · cases forms with
        | nil => exact absurd ⟨first, exposed, behind, rfl, hfirst⟩ hstarts
        | cons second forms => exact absurd ⟨first, second, _, rfl, hfirst⟩ hstarts
      · refine ⟨first :: forms, exposed, behind, rfl, fun v hv => ?_, hrest⟩
        rcases mem_cons.mp hv with rfl | hv
        · exact hfirst
        · exact hforms v hv

theorem mem_dropArticle {w : String} (h : w ∈ dropArticle words) : w ∈ words := by
  unfold dropArticle at h
  split_ifs at h
  · exact mem_of_mem_tail h
  · exact h

theorem mem_dropForms {w : String} (h : w ∈ dropForms words) : w ∈ words := by
  rw [dropForms_eq] at h
  split_ifs at h
  · exact h
  · exact mem_of_mem_filter h

theorem intercalate_inj {vs ws : List String} (hpy : py.ActsOnAscii)
    (hvs : ∀ word ∈ vs, IsNameWord word) (hws : ∀ word ∈ ws, IsNameWord word) :
    " ".intercalate vs = " ".intercalate ws ↔ vs = ws := by
  refine ⟨fun h => ?_, congrArg _⟩
  rw [← nameWords_intercalate hpy hvs, h, nameWords_intercalate hpy hws]

/-- **A name that is normalized already stays as it is**, unless dropping a word has brought an
article to its front. -/
theorem normalizeName_normalizeName (hpy : py.ActsOnAscii) (hraw : IsAscii raw.toList) :
    py.normalizeName (py.normalizeName raw) = py.normalizeName raw ↔
      ¬ExposesArticle (py.nameWords raw) := by
  have hwords := isNameWord_of_mem hpy hraw
  have hkept : ∀ w ∈ dropForms (dropArticle (py.nameWords raw)), IsNameWord w := fun w hw =>
    hwords w (mem_dropArticle (mem_dropForms hw))
  rw [normalizeName_eq py (py.normalizeName raw), normalizeName_eq py raw,
    nameWords_intercalate hpy hkept, intercalate_inj hpy _ hkept, dropped_again_iff,
    startsWithArticle_iff]
  exact fun w hw => hkept w (mem_dropArticle (mem_dropForms hw))

theorem samplePython_actsOnAscii : GraphWorker.samplePython.ActsOnAscii where
  nfkd _ _ := rfl
  combining _ _ := rfl
  casefold _ _ := rfl
  isalnum _ _ := rfl

theorem acme_ascii : IsAscii "The Acme Inc.".toList := forall_mem_of_all (by decide)

/-- The name of a company that is normalized once and for all. -/
theorem acme_normalized : GraphWorker.samplePython.normalizeName (GraphWorker.samplePython.normalizeName "The Acme Inc.") =
    GraphWorker.samplePython.normalizeName "The Acme Inc." := by
  refine (normalizeName_normalizeName samplePython_actsOnAscii acme_ascii).mpr ?_
  rw [← startsWithArticle_iff]
  rintro ⟨article, second, rest, heq, -⟩
  have hwords : properWords (dropArticle (GraphWorker.samplePython.nameWords "The Acme Inc.")) =
      ["acme"] := by decide
  rw [hwords] at heq
  cases heq

/-- A corporate form before the article hides it from the first pass only. -/
theorem article_exposed : GraphWorker.samplePython.ActsOnAscii ∧
    GraphWorker.samplePython.normalizeName "Inc. The Acme" = "the acme" ∧
    GraphWorker.samplePython.normalizeName "the acme" = "acme" :=
  ⟨samplePython_actsOnAscii, by decide⟩

end OmniSense.Workers
