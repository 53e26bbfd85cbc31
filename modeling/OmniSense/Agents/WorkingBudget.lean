import OmniSense.Agents.WorkingMemory

/-! When the assembled context keeps to its budget. Each tier charges an estimate; what it writes
without charging it must fit in what was charged without being written. -/

namespace OmniSense.Agents

open Library Tools List

/-! ## What is written -/

def writtenChars (s : UntrustedText) : ℕ :=
  FENCE_OPEN_PREFIX.length + s.attributes.length + s.text.length + FENCE_CLOSE.length + 6

def sectionChars (notice : List Char) (blocks : List UntrustedText) : ℕ :=
  if blocks = [] then 0 else 2 * notice.length + 3 + (blocks.map writtenChars).sum

def referenceChars (listed : List WorkingSpan) : ℕ :=
  if listed = [] then 0
  else REFERENCE_NOTICE.length + (listed.map fun s => (referenceLine s).length + 1).sum

def joinChars (sections : List ℕ) : ℕ := 2 * ((sections.filter (0 < ·)).length - 1)

/-! ## Which spans are written -/

def affordable : ℤ → List WorkingSpan → List WorkingSpan
  | _, [] => []
  | tokens, s :: spans =>
    if tokens < s.renderedTokens then []
    else s :: affordable (tokens - s.renderedTokens) spans

def listable : ℤ → List WorkingSpan → List WorkingSpan
  | _, [] => []
  | chars, s :: spans =>
    if chars < (referenceLine s).length + 1 then listable chars spans
    else s :: listable (chars - ((referenceLine s).length + 1)) spans

theorem estimateTokens_eq (text : List Char) : estimateTokens text = (text.length + 3) / 4 := by
  unfold estimateTokens DEFAULT_CHARS_PER_TOKEN
  split_ifs with hempty
  · rw [hempty]
    rfl
  · have hpos := length_pos_iff.mpr hempty
    omega

theorem length_intercalate (sep : List Char) (parts : List (List Char)) :
    (sep.intercalate parts).length =
      (parts.map List.length).sum + sep.length * (parts.length - 1) := by
  induction parts with
  | nil => rfl
  | cons part parts ih =>
    cases parts with
    | nil => simp
    | cons next parts =>
      rw [intercalate_cons_cons, length_append, length_append, ih]
      simp only [map_cons, sum_cons, length_cons, Nat.add_sub_cancel]
      ring

theorem length_joinSections (sections : List (List Char)) : (joinSections sections).length =
    (sections.map List.length).sum + joinChars (sections.map List.length) := by
  have hsum : ((sections.filter fun s => s ≠ []).map List.length).sum =
      (sections.map List.length).sum := by
    induction sections with
    | nil => rfl
    | cons s sections ih => cases s <;> simpa using ih
  have hcount : (sections.filter fun s => s ≠ []).length =
      ((sections.map List.length).filter (0 < ·)).length := by
    rw [filter_map, length_map]
    congr 2
    funext s
    simp [length_pos_iff]
  unfold joinSections joinChars
  rw [length_intercalate, hsum, hcount]
  rfl

theorem length_sectionText (notice : List Char) (blocks : List UntrustedText) :
    (sectionText notice blocks).length = sectionChars notice blocks := by
  unfold sectionText sectionChars
  split_ifs with hblocks
  · rfl
  · have hspans : ∀ spans : List UntrustedText,
        ((spans.map fun s => FENCE_OPEN_PREFIX ++ (s.inside ++ FENCE_CLOSE)).map List.length).sum +
          spans.length = (spans.map writtenChars).sum := by
      intro spans
      induction spans with
      | nil => rfl
      | cons s spans ih =>
        have hone : (FENCE_OPEN_PREFIX ++ (s.inside ++ FENCE_CLOSE)).length + 1 =
            writtenChars s := by
          unfold writtenChars UntrustedText.inside
          simp only [length_append, length_cons, length_nil]
          omega
        rw [map_cons, map_cons, map_cons, sum_cons, sum_cons, ← ih, ← hone,
          length_cons]
        omega
    have hpos := length_pos_iff.mpr hblocks
    simp only [length_append, length_cons, length_intercalate, ← hspans, length_map,
      length_nil, Nat.zero_add, Nat.one_mul]
    omega

/-! ## The tiers -/

theorem foldl_admit_overflow (available : ℤ) (spans : List WorkingSpan) {a : Admitted}
    (h : a.overflow ≠ []) : (spans.foldl (admitSpan available) a).full = a.full ∧
      (spans.foldl (admitSpan available) a).spent = a.spent := by
  induction spans generalizing a with
  | nil => exact ⟨rfl, rfl⟩
  | cons span spans ih =>
    have hplaced : admitSpan available a span = { a with overflow := a.overflow ++ [span] } :=
      if_pos (.inl h)
    rw [foldl_cons, hplaced]
    exact ih (append_ne_nil_of_left_ne_nil h _)

theorem foldl_admit_full (available : ℤ) (spans : List WorkingSpan) {a : Admitted}
    (h : a.overflow = []) : (spans.foldl (admitSpan available) a).full =
        a.full ++ affordable (available - a.spent) spans ∧
      (spans.foldl (admitSpan available) a).spent =
        a.spent + ((affordable (available - a.spent) spans).map WorkingSpan.renderedTokens).sum := by
  induction spans generalizing a with
  | nil => simp [affordable]
  | cons span spans ih =>
    rw [foldl_cons, affordable]
    by_cases hover : available < a.spent + span.renderedTokens
    · have hplaced : admitSpan available a span = { a with overflow := a.overflow ++ [span] } :=
        if_pos (.inr hover)
      obtain ⟨hfull, hspent⟩ := foldl_admit_overflow available spans
        (a := { a with overflow := a.overflow ++ [span] }) (by simp)
      rw [hplaced, hfull, hspent, if_pos (by omega)]
      simp
    · have hplaced : admitSpan available a span =
          { a with full := a.full ++ [span], spent := a.spent + span.renderedTokens } :=
        if_neg (not_or.mpr ⟨not_not.mpr h, hover⟩)
      obtain ⟨hfull, hspent⟩ := ih
        (a := { a with full := a.full ++ [span], spent := a.spent + span.renderedTokens }) h
      rw [hplaced, hfull, hspent, if_neg (by omega)]
      rw [← sub_sub, append_assoc, singleton_append, map_cons, sum_cons]
      exact ⟨rfl, by push_cast; ring⟩

theorem foldl_take_lines (budgetChars : ℤ) (spans : List WorkingSpan) (t : ReferenceTier) :
    (spans.foldl (ReferenceTier.take budgetChars) t).lines =
      t.lines ++ (listable (budgetChars - t.used) spans).map referenceLine := by
  induction spans generalizing t with
  | nil => simp [listable]
  | cons span spans ih =>
    rw [foldl_cons, ih, listable, ReferenceTier.take]
    by_cases hroom : budgetChars < t.used + (referenceLine span).length + 1
    · rw [if_pos hroom, if_pos (by omega)]
    · rw [if_neg hroom, if_neg (by omega)]
      have hleft : budgetChars - (t.used + (referenceLine span).length + 1) =
          budgetChars - t.used - ((referenceLine span).length + 1) := by ring
      rw [hleft]
      simp

def listedFrom (spans : List WorkingSpan) (remainingTokens : ℤ) : List WorkingSpan :=
  if remainingTokens ≤ 0 then []
  else listable (remainingTokens * DEFAULT_CHARS_PER_TOKEN - REFERENCE_NOTICE.length) spans

theorem length_renderReferenceTier (spans : List WorkingSpan) (remainingTokens : ℤ) :
    (renderReferenceTier spans remainingTokens).1.length =
      referenceChars (listedFrom spans remainingTokens) := by
  have hlines : ∀ lines : List (List Char), lines ≠ [] →
      (REFERENCE_NOTICE ++ '\n' :: ['\n'].intercalate lines).length =
        REFERENCE_NOTICE.length + (lines.map fun line => line.length + 1).sum := by
    intro lines hne
    have hpos := length_pos_iff.mpr hne
    have hsum : (lines.map fun line => line.length + 1).sum =
        (lines.map List.length).sum + lines.length := by
      rw [sum_map_add]
      simp
    rw [length_append, length_cons, length_intercalate, hsum, length_singleton,
      Nat.one_mul]
    omega
  unfold renderReferenceTier listedFrom
  by_cases hspans : spans = []
  · subst hspans
    simp [referenceChars, listable]
  rw [if_neg (mt List.isEmpty_iff.mp hspans)]
  by_cases hspent : remainingTokens ≤ 0
  · rw [if_pos hspent, if_pos hspent]
    rfl
  rw [if_neg hspent, if_neg hspent]
  dsimp only
  rw [foldl_take_lines]
  rw [sub_zero, nil_append, isEmpty_map]
  unfold referenceChars
  split_ifs with hnone hnone' hnone'
  · rfl
  · exact absurd (List.isEmpty_iff.mp hnone) hnone'
  · exact absurd (List.isEmpty_iff.mpr hnone') hnone
  · rw [hlines _ (mt map_eq_nil_iff.mp hnone'), map_map]
    rfl

/-! ## The whole context -/

section

variable (lower : List Char → List Char) (summarize : SpanSummarizer) (m : ShortTermMemory)

namespace ShortTermMemory

def passages : List WorkingSpan := affordable m.available m.ordered

def others : List WorkingSpan := m.ordered.drop m.passages.length

def left : ℤ := m.available - (m.passages.map WorkingSpan.renderedTokens).sum

def abstracts : List UntrustedText :=
  abstractsOf lower summarize (abstractTokens m.others m.left) (chosenFrom m.others m.left)

def references : List WorkingSpan :=
  listedFrom (deferredFrom m.others m.left)
    (m.left - (sectionChars SUMMARY_NOTICE (m.abstracts lower summarize) + 3) / 4)

/-- What no tier charges: the notices on both sides of the passages, the joins, and of each passage
what it writes beyond its charge. -/
def unchargedChars : ℤ :=
  (if m.passages = [] then 0 else 2 * DATA_HANDLING_NOTICE.length + 3) +
    joinChars [m.pinnedText.length,
      sectionChars DATA_HANDLING_NOTICE (m.passages.map WorkingSpan.payload),
      sectionChars SUMMARY_NOTICE (m.abstracts lower summarize),
      referenceChars (m.references lower summarize)] +
    (m.passages.map fun s => (writtenChars s.payload - 4 * s.renderedTokens : ℤ)).sum

/-- What is charged and not written: the rounding of the pinned text, and what the lower tiers leave
of the tokens that are left for them. -/
def unwrittenChars : ℤ :=
  (4 * estimateTokens m.pinnedText - m.pinnedText.length) +
    (4 * m.left - sectionChars SUMMARY_NOTICE (m.abstracts lower summarize) -
      referenceChars (m.references lower summarize))

theorem admitted_full : m.admitted.full = m.passages ∧ m.admitted.overflow = m.others ∧
    m.remaining = m.left := by
  obtain ⟨hfull, hspent⟩ := foldl_admit_full m.available m.ordered (a := ⟨[], [], 0⟩) rfl
  have hsplit := foldl_admit m.available m.ordered ⟨[], [], 0⟩
  rw [sub_zero, nil_append] at hfull
  rw [sub_zero, zero_add] at hspent
  rw [hfull] at hsplit
  have hoverflow : m.passages ++ m.admitted.overflow = m.ordered := hsplit
  refine ⟨hfull, ?_, ?_⟩
  · unfold others
    rw [← hoverflow, drop_left]
  · unfold remaining left
    exact congrArg (m.available - ·) hspent

theorem estimatedTokens_assembled : (m.assembled lower summarize).estimatedTokens =
    estimateTokens (m.assembled lower summarize).text :=
  rfl

theorem length_assembled : (m.assembled lower summarize).text.length =
    m.pinnedText.length + sectionChars DATA_HANDLING_NOTICE (m.passages.map WorkingSpan.payload) +
      sectionChars SUMMARY_NOTICE (m.abstracts lower summarize) +
      referenceChars (m.references lower summarize) +
      joinChars [m.pinnedText.length,
        sectionChars DATA_HANDLING_NOTICE (m.passages.map WorkingSpan.payload),
        sectionChars SUMMARY_NOTICE (m.abstracts lower summarize),
        referenceChars (m.references lower summarize)] := by
  obtain ⟨hfull, hoverflow, hleft⟩ := m.admitted_full
  have hsummary : (summaryText lower summarize m.others m.left).length =
      sectionChars SUMMARY_NOTICE (m.abstracts lower summarize) := length_sectionText ..
  have hreferences : (referencesFrom lower summarize m.others m.left).1.length =
      referenceChars (m.references lower summarize) := by
    refine (length_renderReferenceTier _ _).trans ?_
    rw [estimateTokens_eq, hsummary]
    rfl
  unfold assembled
  rw [length_joinSections, hfull, hoverflow, hleft]
  simp only [map_cons, map_nil, sum_cons, sum_nil, length_sectionText, hsummary,
    hreferences]
  ring

theorem uncharged_sub_unwritten :
    m.unchargedChars lower summarize - m.unwrittenChars lower summarize =
      (m.assembled lower summarize).text.length - 4 * m.budget.workingTokens := by
  have hcharge : ∀ spans : List WorkingSpan,
      (spans.map fun s => (writtenChars s.payload - 4 * s.renderedTokens : ℤ)).sum =
        ((spans.map fun s => writtenChars s.payload).sum : ℕ) -
          4 * ((spans.map WorkingSpan.renderedTokens).sum : ℕ) := by
    intro spans
    induction spans with
    | nil => rfl
    | cons s spans ih =>
      simp only [map_cons, sum_cons, ih]
      push_cast
      ring
  have hworking : m.budget.workingTokens =
      m.left + ((m.passages.map WorkingSpan.renderedTokens).sum : ℕ) +
        estimateTokens m.pinnedText := by
    unfold left available
    ring
  have hsection : (sectionChars DATA_HANDLING_NOTICE (m.passages.map WorkingSpan.payload) : ℤ) =
      (if m.passages = [] then 0 else 2 * (DATA_HANDLING_NOTICE.length : ℤ) + 3) +
        ((m.passages.map fun s => writtenChars s.payload).sum : ℕ) := by
    unfold sectionChars
    rw [map_map]
    by_cases hnone : m.passages = []
    · simp [hnone]
    · rw [if_neg (by simpa using hnone), if_neg hnone]
      push_cast
      rfl
  unfold unchargedChars unwrittenChars
  rw [hcharge, length_assembled, hworking]
  simp only [Nat.cast_add, Nat.cast_ite, Nat.cast_mul, Nat.cast_ofNat, Nat.cast_zero]
  rw [hsection]
  ring

end ShortTermMemory

theorem estimateTokens_le {text : List Char} {tokens : ℤ} :
    (estimateTokens text : ℤ) ≤ tokens ↔ (text.length : ℤ) ≤ 4 * tokens := by
  rw [estimateTokens_eq]
  omega

end

def onePassage : ShortTermMemory := ⟨⟨100, 0, 0⟩, [], [passage "a" 200 1]⟩

theorem plain_scrubbed (length : ℕ) : IsScrubbed (List.replicate length 'x') := by
  refine .of_missing m_mem_fenceTokens fun hmem => ?_
  rw [map_replicate] at hmem
  exact absurd (eq_of_mem_replicate hmem) (by decide)

theorem cleanText_plain {length : ℕ} (h : length ≤ MAX_UNTRUSTED_CHARS) :
    cleanText (List.replicate length 'x') = List.replicate length 'x' := by
  have hkept : (List.replicate length 'x').filter (fun c => !isControl c) =
      List.replicate length 'x' := filter_eq_self.mpr fun c hc => by
    rw [eq_of_mem_replicate hc]
    decide
  have hwhite : (List.replicate length 'x').dropWhile isWhite = List.replicate length 'x' := by
    rw [dropWhile_replicate, if_neg (by decide)]
  unfold cleanText scrubText trim
  rw [hkept, (plain_scrubbed length).replaceWords_eq,
    take_of_length_le (length_replicate.trans_le h), hwhite, reverse_replicate,
    hwhite, reverse_replicate]

theorem onePassage_eq : onePassage = ⟨⟨100, 0, 0⟩, [],
    [⟨{ (passage "a" 200 1).payload with
      text := List.replicate 200 'x', text_scrubbed := plain_scrubbed 200 }, 1⟩]⟩ := by
  unfold onePassage passage UntrustedText.construct
  simp only [cleanText_plain (show 200 ≤ MAX_UNTRUSTED_CHARS by decide)]

theorem onePassage_fits : onePassage.assemble id extractiveSummarizer =
    .ok (onePassage.assembled id extractiveSummarizer) := by
  have hpinned : 0 ≤ onePassage.available := onePassage_eq ▸ by decide
  exact (onePassage.assemble_eq_ok id extractiveSummarizer).mpr ⟨hpinned, rfl⟩

theorem length_notice : DATA_HANDLING_NOTICE.length = 215 := by
  unfold DATA_HANDLING_NOTICE
  rw [String.toList_append, String.toList_append, String.toList_ofList, String.toList_ofList,
    String.toList_ofList]
  decide +kernel

end OmniSense.Agents
