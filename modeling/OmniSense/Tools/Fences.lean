import OmniSense.Tools.Untrusted

/-! A data block is read back: its delimiters are those of its spans, and between them stand the
spans' attributes and texts. -/

namespace OmniSense.Tools

open Library List Option UntrustedText

variable {s : UntrustedText} {cs rest : List Char}

/-! ## Reading a data block -/

def fenceMarks : List (List Char) := [FENCE_OPEN_PREFIX, FENCE_CLOSE]

@[grind =] def fenced : Option (List Char) → List (Char ⊕ List Char) → Option (List (List Char))
  | none, [] => some []
  | none, .inl _ :: items => fenced none items
  | none, .inr m :: items => if m = FENCE_OPEN_PREFIX then fenced (some []) items else none
  | some _, [] => none
  | some block, .inl c :: items => fenced (some (block ++ [c])) items
  | some block, .inr m :: items =>
    if m = FENCE_CLOSE then (fenced none items).map (block :: ·) else none

structure Block where
  text : List Char
  source : List Char
  ref : List Char
  url : Option (List Char)
  truncated : Bool
  suspectedInjection : Bool
  deriving DecidableEq

def readValue (key header : List Char) : Option (List Char × List Char) :=
  let start := ' ' :: (key ++ ['=', quote])
  if start <+: header then
    let body := header.drop start.length
    some (body.takeWhile (· ≠ quote), (body.dropWhile (· ≠ quote)).drop 1)
  else none

def readOptional (key header : List Char) : Option (List Char) × List Char :=
  match readValue key header with
  | some (value, rest) => (some value, rest)
  | none => (none, header)

def readBlock (block : List Char) : Option Block := do
  let header := block.takeWhile (· ≠ '>')
  let body := block.drop header.length
  let (source, header) ← readValue "source".toList header
  let (ref, header) ← readValue "ref".toList header
  let (url, header) := readOptional "url".toList header
  let (truncated, header) := readOptional "truncated".toList header
  let (suspected, header) := readOptional "suspected_injection".toList header
  if header = [] ∧ ['>', '>', '>', '\n'] <+: body ∧ body.getLast? = some '\n' then
    return ⟨(body.drop 4).dropLast, source, ref, url, truncated.isSome, suspected.isSome⟩
  else none

def readDataBlock (text : List Char) : Option (List Block) :=
  (fenced none (lexMarks fenceMarks 0 text)).bind fun blocks => blocks.mapM readBlock

variable (s : UntrustedText)

def UntrustedText.view : Block where
  text := s.text
  source := s.source
  ref := s.ref
  url := s.url.filter fun u => u ≠ []
  truncated := s.truncated
  suspectedInjection := s.suspectedInjection

/-! ## Headers -/

variable (spans : List UntrustedText) {key value : List Char}

theorem readValue_self (h : quote ∉ value) :
    readValue key (keyValue key value ++ rest) = some (value, rest) := by
  have hstart : keyValue key value ++ rest =
      (' ' :: (key ++ ['=', quote])) ++ (value ++ quote :: rest) := by
    unfold keyValue
    simp
  have hvalue : ∀ c ∈ value, (c ≠ quote : Bool) = true := fun c hc =>
    decide_eq_true fun heq => h (heq ▸ hc)
  unfold readValue
  rw [hstart]
  dsimp only
  rw [if_pos (prefix_append _ _), drop_left, takeWhile_append_of_pos hvalue,
    dropWhile_append_of_pos hvalue]
  simp

theorem readOptional_self (h : quote ∉ value) :
    readOptional key (keyValue key value ++ rest) = (some value, rest) := by
  unfold readOptional
  rw [readValue_self h]

theorem quote_not_mem {value : List Char} (h : IsAttribute value) : quote ∉ value :=
  fun hmem => (h.unmarked quote hmem).1 rfl

def urlPart (url : Option (List Char)) : List Char :=
  match url with
  | some (c :: url) => keyValue "url".toList (c :: url)
  | some [] | none => []

theorem attributes_eq : s.attributes =
    keyValue "source".toList s.source ++ (keyValue "ref".toList s.ref ++ (urlPart s.url ++
      (flag "truncated".toList s.truncated ++
        flag "suspected_injection".toList s.suspectedInjection))) := by
  have hurl : s.attributes = keyValue "source".toList s.source ++ keyValue "ref".toList s.ref ++
      urlPart s.url ++ flag "truncated".toList s.truncated ++
        flag "suspected_injection".toList s.suspectedInjection := rfl
  rw [hurl, append_assoc, append_assoc, append_assoc]

theorem readOptional_flags (truncated suspected : Bool) :
    readOptional "url".toList (flag "truncated".toList truncated ++
        flag "suspected_injection".toList suspected) =
      (none, flag "truncated".toList truncated ++
        flag "suspected_injection".toList suspected) := by
  cases truncated <;> cases suspected <;> rfl

theorem readOptional_url :
    readOptional "url".toList (urlPart s.url ++ (flag "truncated".toList s.truncated ++
        flag "suspected_injection".toList s.suspectedInjection)) =
      (s.view.url, flag "truncated".toList s.truncated ++
        flag "suspected_injection".toList s.suspectedInjection) := by
  have hattribute := s.url_attribute
  unfold view
  cases hurl : s.url with
  | none => exact readOptional_flags s.truncated s.suspectedInjection
  | some url =>
    cases url with
    | nil => exact readOptional_flags s.truncated s.suspectedInjection
    | cons c url =>
      have hquote := quote_not_mem (hattribute (c :: url) hurl)
      exact readOptional_self hquote

theorem readOptional_truncated (truncated suspected : Bool) :
    (readOptional "truncated".toList (flag "truncated".toList truncated ++
        flag "suspected_injection".toList suspected)).1.isSome = truncated ∧
      (readOptional "truncated".toList (flag "truncated".toList truncated ++
        flag "suspected_injection".toList suspected)).2 =
        flag "suspected_injection".toList suspected := by
  cases truncated <;> cases suspected <;> exact ⟨rfl, rfl⟩

theorem readOptional_suspected (suspected : Bool) :
    (readOptional "suspected_injection".toList
        (flag "suspected_injection".toList suspected)).1.isSome = suspected ∧
      (readOptional "suspected_injection".toList
        (flag "suspected_injection".toList suspected)).2 = [] := by
  cases suspected <;> exact ⟨rfl, rfl⟩

theorem keyValue_unmarked (hkey : '>' ∉ key) (h : IsAttribute value) :
    '>' ∉ keyValue key value := by
  have hvalue : '>' ∉ value := fun hmem => (h.unmarked '>' hmem).2.2 rfl
  have hquote : '>' ≠ quote := by decide
  unfold keyValue
  simp [hkey, hvalue, hquote]

theorem attributes_unmarked : '>' ∉ s.attributes := by
  have hflag : ∀ value, '>' ∉ flag "truncated".toList value ∧
      '>' ∉ flag "suspected_injection".toList value := by decide
  have hurl : '>' ∉ urlPart s.url := by
    unfold urlPart
    split
    next c url heq => exact keyValue_unmarked (by decide) (s.url_attribute (c :: url) heq)
    · exact not_mem_nil
    · exact not_mem_nil
  have hsource : '>' ∉ keyValue "source".toList s.source :=
    keyValue_unmarked (by decide) s.source_attribute
  have href : '>' ∉ keyValue "ref".toList s.ref := keyValue_unmarked (by decide) s.ref_attribute
  rw [attributes_eq]
  simp only [mem_append, hsource, href, hurl, (hflag _).1, (hflag _).2, or_false,
    not_false_eq_true]

/-- **A block says what its span is.** -/
theorem readBlock_inside : readBlock s.inside = some s.view := by
  have hheader : s.inside.takeWhile (· ≠ '>') = s.attributes := by
    have hall : ∀ c ∈ s.attributes, (c ≠ '>' : Bool) = true := fun c hc =>
      decide_eq_true fun heq => attributes_unmarked s (heq ▸ hc)
    unfold inside
    rw [takeWhile_append_of_pos hall]
    simp
  have hbody : s.inside.drop s.attributes.length = '>' :: '>' :: '>' :: '\n' :: (s.text ++ ['\n']) :=
    drop_left
  unfold readBlock
  dsimp only
  rw [hheader, hbody, attributes_eq, readValue_self (quote_not_mem s.source_attribute)]
  dsimp only [bind_eq_bind, bind_some]
  rw [readValue_self (quote_not_mem s.ref_attribute)]
  dsimp only [bind_some]
  rw [readOptional_url]
  obtain ⟨htruncated, hflags⟩ := readOptional_truncated s.truncated s.suspectedInjection
  obtain ⟨hsuspected, hrest⟩ := readOptional_suspected s.suspectedInjection
  have hopened : ['>', '>', '>', '\n'] <+: '>' :: '>' :: '>' :: '\n' :: (s.text ++ ['\n']) :=
    prefix_append ['>', '>', '>', '\n'] (s.text ++ ['\n'])
  have hclosed : (['>', '>', '>', '\n'] ++ s.text ++ ['\n']).getLast? = some '\n' :=
    List.getLast?_concat
  have htext : (s.text ++ ['\n']).dropLast = s.text := dropLast_concat
  rw [hflags, htruncated, hsuspected, hrest, if_pos ⟨rfl, hopened, hclosed⟩]
  exact congrArg (fun text => some (Block.mk text s.source s.ref s.view.url s.truncated
    s.suspectedInjection)) htext

/-! ## Delimiters -/

theorem keyValue_scrubbed (hkey : IsScrubbed key) (h : IsScrubbed value) :
    IsScrubbed (keyValue key value) := by
  have hclosed : IsScrubbed (value ++ quote :: []) :=
    h.append_cons (.nil nil_not_mem_fenceTokens) (isApart_of_mem (by decide))
  have hopened : IsScrubbed ([] ++ quote :: (value ++ [quote])) :=
    .append_cons (.nil nil_not_mem_fenceTokens) hclosed (isApart_of_mem (by decide))
  have hequal : IsScrubbed (key ++ '=' :: quote :: (value ++ [quote])) :=
    hkey.append_cons hopened (isApart_of_mem (by decide))
  exact .append_cons (l := []) (.nil nil_not_mem_fenceTokens) hequal (isApart_of_mem (by decide))

theorem urlPart_scrubbed {url : Option (List Char)} (h : ∀ u ∈ url, IsAttribute u) :
    IsScrubbed (urlPart url) := by
  have hkey : IsScrubbed "url".toList := .of_missing m_mem_fenceTokens (by decide)
  unfold urlPart
  split
  next c url => exact keyValue_scrubbed hkey (h (c :: url) rfl).scrubbed
  · exact .nil nil_not_mem_fenceTokens
  · exact .nil nil_not_mem_fenceTokens

theorem scrubbed_append {header part : List Char} (hheader : IsScrubbed header)
    (hpart : IsScrubbed part) (hstart : ∀ c ∈ part.head?, c = ' ') :
    IsScrubbed (header ++ part) := by
  refine hheader.append hpart fun c hc => ?_
  obtain rfl := hstart c hc
  exact isApart_of_mem (by decide)

theorem attributes_scrubbed : IsScrubbed s.attributes := by
  have hsource : IsScrubbed "source".toList := .of_missing m_mem_fenceTokens (by decide)
  have href : IsScrubbed "ref".toList := .of_missing m_mem_fenceTokens (by decide)
  have htruncated : ∀ value, 'm' ∉ (flag "truncated".toList value).map foldCase := by decide
  have hsuspected : ∀ value, 'm' ∉ (flag "suspected_injection".toList value).map foldCase := by
    decide
  have hstarts : ∀ value, (∀ c ∈ (flag "truncated".toList value).head?, c = ' ') ∧
      ∀ c ∈ (flag "suspected_injection".toList value).head?, c = ' ' := by
    intro value
    cases value
    · exact ⟨fun _ h => absurd h (not_mem_none _), fun _ h => absurd h (not_mem_none _)⟩
    · exact ⟨fun _ h => (Option.some.inj h).symm, fun _ h => (Option.some.inj h).symm⟩
  have hurl : ∀ c ∈ (urlPart s.url).head?, c = ' ' := by
    unfold urlPart
    split
    · exact fun _ h => (Option.some.inj h).symm
    · exact fun _ h => absurd h (not_mem_none _)
    · exact fun _ h => absurd h (not_mem_none _)
  have h₁ : IsScrubbed (keyValue "source".toList s.source) :=
    keyValue_scrubbed hsource s.source_attribute.scrubbed
  have h₂ := scrubbed_append h₁ (keyValue_scrubbed href s.ref_attribute.scrubbed)
    fun _ h => (Option.some.inj h).symm
  have h₃ := scrubbed_append h₂ (urlPart_scrubbed s.url_attribute) hurl
  have h₄ := scrubbed_append h₃ (.of_missing m_mem_fenceTokens (htruncated s.truncated))
    (hstarts s.truncated).1
  exact scrubbed_append h₄ (.of_missing m_mem_fenceTokens (hsuspected s.suspectedInjection))
    (hstarts s.suspectedInjection).2

theorem inside_scrubbed : IsScrubbed s.inside := by
  have hend : IsScrubbed (s.text ++ '\n' :: []) :=
    s.text_scrubbed.append_cons (.nil nil_not_mem_fenceTokens) (isApart_of_mem (by decide))
  have hmarks : IsScrubbed ['>', '>'] := .of_missing m_mem_fenceTokens (by decide)
  have hbody : IsScrubbed (['>', '>'] ++ '\n' :: (s.text ++ ['\n'])) :=
    hmarks.append_cons hend (isApart_of_mem (by decide))
  exact (attributes_scrubbed s).append_cons hbody (isApart_of_mem (by decide))

theorem mark_not_inside {text : List Char} (h : IsScrubbed text) : ∀ m ∈ fenceMarks, ¬m <:+: text := by
  have htoken : ∀ m ∈ fenceMarks, ∃ w ∈ fenceTokens, w <:+: m.map foldCase := by decide
  intro m hm hin
  obtain ⟨w, hw, hinside⟩ := htoken m hm
  exact h w hw (hinside.trans (hin.map foldCase))

/-- **Rendering never fails.** -/
theorem render_eq :
    s.render = .ok (FENCE_OPEN_PREFIX ++ (s.inside ++ FENCE_CLOSE)) := by
  unfold render
  rw [if_neg]
  rintro ⟨token, htoken, hin⟩
  exact s.text_scrubbed token htoken hin

theorem newline_apart : ∀ m ∈ fenceMarks, '\n' ∉ m := by decide

variable (rest : List Char)

theorem lexMarks_open : lexMarks fenceMarks 0 (FENCE_OPEN_PREFIX ++ rest) =
    .inr FENCE_OPEN_PREFIX :: lexMarks fenceMarks 0 rest := by
  refine lexMarks_mark (by decide) ?_
  exact List.find?_cons_of_pos (decide_eq_true (prefix_append _ _))

theorem lexMarks_close : lexMarks fenceMarks 0 (FENCE_CLOSE ++ rest) =
    .inr FENCE_CLOSE :: lexMarks fenceMarks 0 rest := by
  have hother : ¬FENCE_OPEN_PREFIX <+: FENCE_CLOSE ++ rest := by
    intro hpre
    have hshort : FENCE_OPEN_PREFIX.length ≤ FENCE_CLOSE.length := by decide
    have hwithin : FENCE_OPEN_PREFIX <+: FENCE_CLOSE :=
      prefix_of_prefix_length_le hpre (prefix_append _ _) hshort
    exact absurd hwithin (by decide)
  refine lexMarks_mark (by decide) ?_
  unfold fenceMarks
  rw [List.find?_cons_of_neg (by rw [decide_eq_true_eq]; exact hother)]
  exact List.find?_cons_of_pos (decide_eq_true (prefix_append _ _))

theorem lexMarks_span :
    lexMarks fenceMarks 0 (FENCE_OPEN_PREFIX ++ (s.inside ++ FENCE_CLOSE) ++ rest) =
      .inr FENCE_OPEN_PREFIX :: (s.inside.map .inl ++ .inr FENCE_CLOSE ::
        lexMarks fenceMarks 0 rest) := by
  have hlast : ∃ b ∈ s.inside.getLast?, ∀ m ∈ fenceMarks, b ∉ m := by
    refine ⟨'\n', ?_, newline_apart⟩
    have hinside : s.inside = s.attributes ++ ['>', '>', '>', '\n'] ++ s.text ++ ['\n'] := by
      unfold inside
      simp
    rw [hinside]
    exact List.getLast?_concat
  rw [append_assoc, append_assoc, lexMarks_open,
    lexMarks_text (mark_not_inside (inside_scrubbed s)) (.inr hlast), lexMarks_close]

theorem lexMarks_newline : lexMarks fenceMarks 0 (['\n'] ++ rest) =
    ['\n'].map .inl ++ lexMarks fenceMarks 0 rest := by
  have hopen : ∀ m ∈ fenceMarks, '<' ∈ m := by
    unfold fenceMarks FENCE_OPEN_PREFIX FENCE_CLOSE
    rw [String.toList_ofList, String.toList_ofList]
    decide
  have hinside : ∀ m ∈ fenceMarks, ¬m <:+: ['\n'] := fun m hm hin =>
    absurd (hin.subset (hopen m hm)) (by decide)
  exact lexMarks_text hinside (.inr ⟨'\n', rfl, newline_apart⟩)

/-! ## The whole block -/

variable {items : List (Char ⊕ List Char)}

theorem fenced_outside (text : List Char) : fenced none (text.map .inl ++ items) = fenced none items := by
  induction text with
  | nil => rfl
  | cons c text ih => exact ih

theorem fenced_inside (block text : List Char) :
    fenced (some block) (text.map .inl ++ items) = fenced (some (block ++ text)) items := by
  induction text generalizing block with
  | nil =>
    rw [append_nil]
    rfl
  | cons c text ih =>
    have hnext := ih (block ++ [c])
    rw [append_assoc] at hnext
    exact hnext

theorem fenced_span :
    fenced none (lexMarks fenceMarks 0 (FENCE_OPEN_PREFIX ++ (s.inside ++ FENCE_CLOSE) ++ rest)) =
      (fenced none (lexMarks fenceMarks 0 rest)).map (s.inside :: ·) := by
  rw [lexMarks_span, fenced, if_pos rfl, fenced_inside, fenced, if_pos rfl]
  rfl

theorem fenced_spans (hne : spans ≠ []) :
    fenced none (lexMarks fenceMarks 0 (['\n'].intercalate (spans.map fun s =>
        FENCE_OPEN_PREFIX ++ (s.inside ++ FENCE_CLOSE)) ++ rest)) =
      (fenced none (lexMarks fenceMarks 0 rest)).map (spans.map inside ++ ·) := by
  induction spans with
  | nil => exact absurd rfl hne
  | cons s spans ih =>
    cases spans with
    | nil =>
      rw [map_singleton, intercalate_singleton, fenced_span]
      rfl
    | cons t spans =>
      have hrest := ih (cons_ne_nil t spans)
      rw [map_cons] at hrest
      rw [map_cons, map_cons, intercalate_cons_cons, append_assoc,
        append_assoc, fenced_span, lexMarks_newline, fenced_outside, hrest, Option.map_map]
      rfl

theorem notice_scrubbed : IsScrubbed DATA_HANDLING_NOTICE := by
  have hscore : ∀ w ∈ fenceTokens, '_' ∈ w := by decide
  have hmissing : (DATA_HANDLING_NOTICE.map foldCase).contains '_' = false := by
    unfold DATA_HANDLING_NOTICE
    rw [String.toList_append, String.toList_append, String.toList_ofList, String.toList_ofList,
      String.toList_ofList]
    decide
  refine .of_missing hscore fun hmem => ?_
  rw [contains_iff_mem.mpr hmem] at hmissing
  cases hmissing

theorem mapM_readBlock :
    (spans.map inside).mapM readBlock = some (spans.map view) := by
  have hread : readBlock ∘ inside = fun s => pure s.view := funext readBlock_inside
  rw [mapM_map, hread]
  exact mapM_pure

theorem mapM_render : spans.mapM render =
    .ok (spans.map fun s => FENCE_OPEN_PREFIX ++ (s.inside ++ FENCE_CLOSE)) := by
  have hrender : render =
      fun s => pure (FENCE_OPEN_PREFIX ++ (s.inside ++ FENCE_CLOSE)) := funext render_eq
  rw [hrender]
  exact mapM_pure

def blockText (spans : List UntrustedText) : List Char :=
  DATA_HANDLING_NOTICE ++ '\n' :: '\n' ::
    (['\n'].intercalate (spans.map fun s => FENCE_OPEN_PREFIX ++ (s.inside ++ FENCE_CLOSE)) ++
      '\n' :: '\n' :: DATA_HANDLING_NOTICE)

theorem renderDataBlock_eq {spans : List UntrustedText} (hne : spans ≠ []) :
    renderDataBlock spans = .ok (blockText spans) := by
  cases spans with
  | nil => exact absurd rfl hne
  | cons s spans =>
    unfold renderDataBlock
    rw [mapM_render]
    rfl

theorem lexMarks_notice :
    lexMarks fenceMarks 0 (DATA_HANDLING_NOTICE ++ '\n' :: '\n' :: rest) =
        (DATA_HANDLING_NOTICE ++ ['\n', '\n']).map .inl ++ lexMarks fenceMarks 0 rest ∧
      lexMarks fenceMarks 0 ('\n' :: '\n' :: DATA_HANDLING_NOTICE) =
        ('\n' :: '\n' :: DATA_HANDLING_NOTICE).map .inl ++ [] := by
  have hnil : IsScrubbed [] := .nil nil_not_mem_fenceTokens
  have hapart : IsApart fenceTokens foldCase '\n' := isApart_of_mem (by decide)
  have hbefore : IsScrubbed (DATA_HANDLING_NOTICE ++ '\n' :: ['\n']) :=
    notice_scrubbed.append_cons (hnil.append_cons hnil hapart) hapart
  have hafter : IsScrubbed ('\n' :: '\n' :: DATA_HANDLING_NOTICE) :=
    hnil.append_cons (hnil.append_cons notice_scrubbed hapart) hapart
  have hlast : (DATA_HANDLING_NOTICE ++ ['\n', '\n']).getLast? = some '\n' := by
    rw [append_cons]
    exact List.getLast?_concat
  constructor
  · have hread := lexMarks_text (mark_not_inside hbefore)
      (.inr ⟨'\n', hlast, newline_apart⟩ : rest = [] ∨ _)
    rw [append_assoc] at hread
    exact hread
  · have hread : lexMarks fenceMarks 0 (('\n' :: '\n' :: DATA_HANDLING_NOTICE) ++ []) =
        ('\n' :: '\n' :: DATA_HANDLING_NOTICE).map .inl ++ lexMarks fenceMarks 0 [] :=
      lexMarks_text (mark_not_inside hafter) (.inl rfl)
    rw [append_nil] at hread
    exact hread

theorem fenced_blockText {spans : List UntrustedText} (hne : spans ≠ []) :
    fenced none (lexMarks fenceMarks 0 (blockText spans)) =
      some (spans.map inside) := by
  unfold blockText
  rw [(lexMarks_notice _).1, fenced_outside, fenced_spans spans _ hne, (lexMarks_notice []).2,
    fenced_outside, fenced, map_some, append_nil]

/-- **A data block is its spans.** -/
theorem readDataBlock_render (spans : List UntrustedText) :
    ∃ out, renderDataBlock spans = .ok out ∧
      readDataBlock out = some (spans.map view) := by
  rcases eq_or_ne spans [] with rfl | hne
  · exact ⟨[], rfl, rfl⟩
  · refine ⟨blockText spans, renderDataBlock_eq hne, ?_⟩
    unfold readDataBlock
    rw [fenced_blockText hne, bind_some, mapM_readBlock]

/-- An empty url is rendered as none, so that the two spans are one text. -/
theorem empty_url_unread :
    construct [] [] [] (some []) ≠ construct [] [] [] none ∧
      renderDataBlock [.construct [] [] [] (some [])] =
        renderDataBlock [.construct [] [] [] none] := by
  refine ⟨fun heq => ?_, rfl⟩
  have hurl := congrArg url heq
  exact absurd hurl (by decide)

end OmniSense.Tools
