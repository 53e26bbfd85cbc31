import Mathlib.Data.List.Chain
import OmniSense.Library.Effect
import OmniSense.Retrieval.Geometry

/-! Where the chunks of a text begin and end: at headings, and at the edges of words. -/

namespace OmniSense.Retrieval

open Library List Option

/-! Headings cut the text. Every heading line of the body is found, since none reaches into another,
the sections begin there, and packing, folding and overlapping stay within a section. -/

section

variable {text : List Char} {lower : String → String}

/-! ## Every heading is found -/

theorem not_newline_of {p : Char → Bool} (hp : ∀ c, p c = true → c ≠ '\n') {i : ℕ}
    (h : holdsAt p text i = true) : holdsAt (· == '\n') text i = false := by
  obtain ⟨c, hc, hpc⟩ := (Option.any_eq_true ..).mp h
  rw [holdsAt, hc, Option.any_some]
  exact beq_eq_false_iff_ne.mpr (hp c hpc)

theorem runEnd_not_newline {p : Char → Bool} (hp : ∀ c, p c = true → c ≠ '\n') {i hi k : ℕ}
    (h : i ≤ k) (h' : k < runEnd p text i hi) : holdsAt (· == '\n') text k = false :=
  not_newline_of hp (holdsAt_of_lt_runEnd h h')

theorem blank_not_newline (c : Char) (h : isBlank c = true) : c ≠ '\n' := by
  rintro rfl
  revert h
  decide

theorem headingLine_line {hi i stop : ℕ} (h : headingLine text hi i = some stop) :
    (i = 0 ∨ holdsAt (· == '\n') text (i - 1) = true) ∧
      ∀ k, i ≤ k → k < stop → holdsAt (· == '\n') text k = false := by
  unfold headingLine at h
  dsimp only at h
  split_ifs at h with hmatch
  cases h
  obtain ⟨hline, -, -, -, -, -, hlast⟩ := hmatch
  refine ⟨hline, fun k hk hk' => ?_⟩
  by_cases ha : k < runEnd isBlank text i hi
  · exact runEnd_not_newline blank_not_newline hk ha
  by_cases hb : k < runEnd (· == '#') text (runEnd isBlank text i hi) hi
  · refine runEnd_not_newline (fun c hc => ?_) (not_lt.mp ha) hb
    rintro rfl
    revert hc
    decide
  by_cases hc : k < runEnd isBlank text (runEnd (· == '#') text (runEnd isBlank text i hi) hi) hi
  · exact runEnd_not_newline blank_not_newline (not_lt.mp hb) hc
  · obtain rfl : k = runEnd isBlank text
        (runEnd (· == '#') text (runEnd isBlank text i hi) hi) hi := by omega
    refine not_newline_of (fun c hvisible => ?_) hlast
    rintro rfl
    revert hvisible
    decide

variable {body : Span}

theorem headingLine_found {p stop : ℕ} (hp : body.1 ≤ p)
    (h : headingLine text body.2 p = some stop) :
    (p, stop) ∈ finditer (headingLine text body.2) body.1 body.2 := by
  refine mem_finditer (fun _ _ h => (headingLine_spec h).1) hp (headingLine_spec h).2 h ?_
  intro q stop' hq hearlier
  by_contra hover
  -- The newline before the later heading would be on the line of the earlier one.
  rcases (headingLine_line h).1 with hzero | hnewline
  · omega
  · rw [(headingLine_line hearlier).2 (p - 1) (by omega) (by omega)] at hnewline
    cases hnewline

/-! ## Sections begin at headings -/

theorem sectionsFrom_within {hi start : ℕ} {starts : List ℕ} (hhi : hi ≤ text.length)
    (hsorted : (start :: starts).Pairwise (· ≤ ·)) (hlt : ∀ x ∈ start :: starts, x < hi) :
    ∀ s ∈ sectionsFrom text hi (start :: starts), start ≤ s.1 := by
  induction starts generalizing start with
  | nil =>
    intro s hs
    exact (tighten_some hhi (mem_toList.mp hs)).2.1
  | cons next starts ih =>
    obtain ⟨hhead, htail⟩ := pairwise_cons.mp hsorted
    intro s hs
    rcases mem_append.mp hs with hs | hs
    · have hnext := hlt next (by simp)
      exact (tighten_some (by omega) (mem_toList.mp hs)).2.1
    · have hle := hhead next mem_cons_self
      exact hle.trans (ih htail (fun x hx => hlt x (mem_cons_of_mem _ hx)) s hs)

theorem sectionsFrom_apart {hi p : ℕ} {starts : List ℕ} (hhi : hi ≤ text.length)
    (hsorted : starts.Pairwise (· ≤ ·)) (hlt : ∀ x ∈ starts, x < hi) (hp : p ∈ starts) :
    ∀ s ∈ sectionsFrom text hi starts, s.2 ≤ p ∨ p ≤ s.1 := by
  induction starts with
  | nil => cases hp
  | cons start starts ih =>
    intro s hs
    rcases mem_cons.mp hp with rfl | hp
    · exact .inr (sectionsFrom_within hhi hsorted hlt s hs)
    · cases starts with
      | nil => cases hp
      | cons next starts =>
        obtain ⟨-, htail⟩ := pairwise_cons.mp hsorted
        have hrest : ∀ x ∈ next :: starts, x < hi := fun x hx => hlt x (mem_cons_of_mem _ hx)
        rcases mem_append.mp hs with hs | hs
        · have hnext := hrest next mem_cons_self
          have hend := (tighten_some (by omega) (mem_toList.mp hs)).2.2.1
          refine .inl (hend.trans ?_)
          rcases mem_cons.mp hp with rfl | hp
          · exact le_rfl
          · exact (pairwise_cons.mp htail).1 p hp
        · exact ih htail hrest hp s hs

theorem sectionSpans_apart (hbody : Tight text body) {p stop : ℕ} (hp : body.1 ≤ p)
    (h : headingLine text body.2 p = some stop) :
    ∀ s ∈ sectionSpans text body, s.2 ≤ p ∨ p ≤ s.1 := by
  obtain ⟨hlt, hsorted⟩ := headings_spec text body
  have hmem : p ∈ (finditer (headingLine text body.2) body.1 body.2).map Prod.fst :=
    mem_map.mpr ⟨_, headingLine_found hp h, rfl⟩
  unfold sectionSpans
  split
  next hnone =>
    rw [hnone] at hmem
    cases hmem
  next start starts heq =>
    rw [heq] at hmem hlt hsorted
    split_ifs
    · exact sectionsFrom_apart hbody.2.1 hsorted (fun x hx => (hlt x hx).2) hmem
    · refine sectionsFrom_apart hbody.2.1 (pairwise_cons.mpr ⟨fun x hx => (hlt x hx).1, hsorted⟩)
        (fun x hx => ?_) (mem_cons_of_mem _ hmem)
      rcases mem_cons.mp hx with rfl | hx
      · exact hbody.1
      · exact (hlt x hx).2

/-! ## Chunks stay within a section -/

theorem groupSpans_within {maxChars w floor : ℕ} (hmax : 0 < maxChars) {region : Span}
    {group : List Span} (h : Covers text region group) :
    ∀ x ∈ groupSpans lower text maxChars w floor group, region.1 ≤ x.1 ∧ x.2 ≤ region.2 := by
  obtain ⟨hspread, -⟩ := packedSpans_spread hmax h.1 h.2
  have hwidens := @widens_applyOverlap text lower _ w _ _ _ _ hspread le_rfl
  intro x hx
  rw [groupSpans_eq] at hx
  obtain ⟨s, hs, hend, -⟩ := hwidens.mem hx
  exact ⟨hwidens.floor_le x hx, hend ▸ (hspread.within s hs).2.2⟩

theorem groupsFor_heading (hbody : tighten text 0 text.length = some body)
    (maxChars : ℕ) : groupsFor text .heading maxChars =
      (sectionSpans text body).map fun s => paragraphSpans text s.1 s.2 := by
  unfold groupsFor
  rw [hbody]

/-- With the heading strategy, a chunk ends before a heading line of the body, or starts no earlier
than its first `#`. -/
theorem headings_uncrossed (lower : String → String) (text : List Char)
    {maxChars overlapChars : ℤ} {minChars : Option ℤ} {body : Span} {p stop : ℕ}
    (h : ValidGeometry .heading maxChars overlapChars minChars)
    (hbody : tighten text 0 text.length = some body) (hp : body.1 ≤ p)
    (hheading : headingLine text body.2 p = some stop) :
    ∃ chunks, splitText lower text .heading maxChars overlapChars minChars = .ok chunks ∧
      ∀ c ∈ chunks, c.charEnd ≤ p ∨ runEnd isBlank text p body.2 ≤ c.charStart := by
  obtain ⟨chunks, hok, hmap, -, -⟩ := @splitText_chunks text lower _ _ _ _ h
  have hmax := h.max_pos
  have htight := (tighten_some le_rfl hbody).1
  refine ⟨chunks, hok, fun c hc => ?_⟩
  have hmem := mem_map_of_mem (f := fun c => (c.charStart, c.charEnd)) hc
  rw [hmap, extendedSpans, groupsFor_heading hbody] at hmem
  obtain ⟨group, hgroup, hx⟩ := mem_flatMap.mp hmem
  obtain ⟨s, hs, rfl⟩ := mem_map.mp hgroup
  have hsection := (sectionSpans_spread htight).2 s hs
  obtain ⟨hstart, hend⟩ := groupSpans_within (by omega) (paragraphSpans_spread hsection) _ hx
  rcases sectionSpans_apart htight hp hheading s hs with hbefore | hafter
  · exact .inl (hend.trans hbefore)
  · -- The section starts with a visible character, so behind the blanks of the heading.
    have hblanks := @blank_runEnd text _ blank_space p body.2
    exact .inr ((hblanks.le hsection.2.2.1 hafter).trans hstart)

/-- A heading between two paragraphs, whose chunk would otherwise reach back into the first. -/
theorem headings_uncrossed_plan : ∃ chunks,
    splitText String.toLower "Old plan.\n ## New\nNow.".toList .heading 30 9 none = .ok chunks ∧
      ∀ c ∈ chunks, c.charEnd ≤ 10 ∨ 11 ≤ c.charStart :=
  headings_uncrossed String.toLower "Old plan.\n ## New\nNow.".toList
    ⟨by decide, by decide, by decide, by decide, by simp⟩
    (show tighten "Old plan.\n ## New\nNow.".toList 0 22 = some (0, 22) by decide)
    (Nat.zero_le 10) (show headingLine "Old plan.\n ## New\nNow.".toList 22 10 = some 15 by
      decide)

end

/-! The edges of the chunks. A span is tight until it overlaps the one before; then it starts at a
sentence, which is visible, or behind a space, which may have more whitespace behind it. -/

section

variable {text : List Char} {lower : String → String}

def Chunk.Trimmed (c : Chunk) : Prop :=
  ∀ ch, ch ∈ c.text.head? ∨ ch ∈ c.text.getLast? → isSpace ch = false

def NoSentence (lower : String → String) (text : List Char) (windowStart hardStart : ℕ) : Prop :=
  ∀ found ∈ finditer (sentenceEnd text hardStart) windowStart hardStart,
    hardStart ≤ found.2 ∨ endsWithAbbreviation lower text found.1 = true

/-- Where `s` overlaps `previous` from a space on, a visible character follows that space. -/
def WordFollows (lower : String → String) (text : List Char) (w : ℕ) (previous s : Span) : Prop :=
  NoSentence lower text (max previous.1 (s.1 - w)) s.1 →
    ∀ space ∈ findSpace text (max previous.1 (s.1 - w)) (s.1 - max previous.1 (s.1 - w)),
      space + 1 < s.1 → Visible text (space + 1)

/-! ## Where an overlap starts -/

theorem sentenceEnd_stops {hi i stop : ℕ} (h : sentenceEnd text hi i = some stop)
    (hstop : stop < hi) : holdsAt isSpace text stop = false := by
  unfold sentenceEnd at h
  dsimp only at h
  split_ifs at h
  cases h
  exact runEnd_stops hstop

theorem Visible.lt_length {i : ℕ} (h : Visible text i) : i < text.length := by
  obtain ⟨c, hc, -⟩ := visible_iff.mp h
  exact (List.getElem?_eq_some_iff.mp hc).1

theorem snapToBoundary_visible_iff {windowStart hardStart : ℕ} (hhard : Visible text hardStart) :
    Visible text (snapToBoundary lower text windowStart hardStart) ↔
      (NoSentence lower text windowStart hardStart →
        ∀ space ∈ findSpace text windowStart (hardStart - windowStart),
          space + 1 < hardStart → Visible text (space + 1)) := by
  have hlength := hhard.lt_length
  unfold snapToBoundary
  by_cases hwindow : hardStart ≤ windowStart
  · -- The window is empty.
    rw [if_pos hwindow, Nat.sub_eq_zero_of_le hwindow]
    exact iff_of_true hhard fun _ _ hspace => absurd hspace (not_mem_none _)
  rw [if_neg hwindow]
  dsimp only
  split
  next found rest hfilter =>
    have hmem : found ∈ found :: rest := mem_cons_self
    rw [← hfilter, mem_filter] at hmem
    obtain ⟨hfound, hkept⟩ := hmem
    obtain ⟨hbefore, hsentence⟩ := of_decide_eq_true hkept
    have hmatches := matches_finditer (m := sentenceEnd text hardStart)
      (fun _ _ h => (sentenceEnd_spec h).1) windowStart hardStart
    have hstops := sentenceEnd_stops (hmatches.2 found hfound).2 hbefore
    refine iff_of_true (visible_of_not_space (by omega) hstops) fun hnone => ?_
    rcases hnone found hfound with hle | habbreviation
    · omega
    · rw [habbreviation] at hsentence
      cases hsentence
  next hfilter =>
    have hnone : NoSentence lower text windowStart hardStart := by
      intro found hfound
      have hdropped := filter_eq_nil_iff.mp hfilter found hfound
      by_contra hkept
      rw [not_or, not_le, Bool.not_eq_true] at hkept
      refine hdropped (decide_eq_true ⟨hkept.1, ?_⟩)
      rw [hkept.2]
      rfl
    rw [forall_prop_of_true hnone]
    cases findSpace text windowStart (hardStart - windowStart) with
    | none => exact iff_of_true hhard fun _ hspace => absurd hspace (not_mem_none _)
    | some space =>
      dsimp only
      split_ifs with hin
      · constructor
        · intro hvisible other hother _
          cases hother
          exact hvisible
        · exact fun hvisible => hvisible space rfl hin
      · refine iff_of_true hhard fun other hother hlt => ?_
        cases hother
        exact absurd hlt hin

/-! ## The chunks of a group -/

theorem overlapFrom_visible_iff {w : ℕ} (previous : Span) {rest : List Span}
    (hrest : ∀ s ∈ rest, Visible text s.1) :
    (∀ x ∈ overlapFrom lower text w previous rest, Visible text x.1) ↔
      (previous :: rest).IsChain (WordFollows lower text w) := by
  induction rest generalizing previous with
  | nil => exact iff_of_true (fun _ hx => absurd hx not_mem_nil) (.singleton _)
  | cons s rest ih =>
    obtain ⟨hs, hrest⟩ := forall_mem_cons.mp hrest
    rw [overlapFrom, forall_mem_cons, isChain_cons_cons, ih s hrest]
    exact and_congr_left' (snapToBoundary_visible_iff hs)

theorem group_visible_iff {maxChars floor w : ℕ} {group : List Span}
    (htight : ∀ s ∈ packedSpans lower text maxChars floor group, Tight text s) :
    (∀ x ∈ groupSpans lower text maxChars w floor group, Visible text x.1) ↔
      (packedSpans lower text maxChars floor group).IsChain (WordFollows lower text w) := by
  rw [groupSpans_eq]
  cases hspans : packedSpans lower text maxChars floor group with
  | nil => exact iff_of_true (fun _ hx => absurd hx not_mem_nil) .nil
  | cons first rest =>
    rw [hspans] at htight
    obtain ⟨hfirst, hrest⟩ := forall_mem_cons.mp htight
    rw [applyOverlap, forall_mem_cons]
    rw [overlapFrom_visible_iff first fun s hs => (hrest s hs).2.2.1]
    exact and_iff_right hfirst.2.2.1

/-! ## All chunks -/

theorem trimmed_iff {c : Chunk} (htext : c.text = slice text c.charStart c.charEnd)
    (hlength : c.charEnd ≤ text.length) (hlast : Visible text (c.charEnd - 1)) :
    c.Trimmed ↔ Visible text c.charStart := by
  have hextent := c.extent
  have hhead : c.text.head? = text[c.charStart]? := by
    rw [htext, slice, List.head?_drop, List.getElem?_take_of_lt hextent]
  have hfinal : c.text.getLast? = text[c.charEnd - 1]? := by
    rw [htext, slice, List.getLast?_drop, if_neg, List.getLast?_take, if_neg (by omega)]
    · rw [List.getElem?_eq_getElem (by omega), some_or]
    · rw [length_take]
      omega
  obtain ⟨last, hget, hspace⟩ := visible_iff.mp hlast
  unfold Chunk.Trimmed
  rw [hhead, hfinal, hget, visible_iff]
  constructor
  · intro h
    have hfirst := List.getElem?_eq_getElem (show c.charStart < text.length by omega)
    exact ⟨_, hfirst, h _ (.inl hfirst)⟩
  · rintro ⟨first, hfirst, hvisible⟩ ch (hch | hch)
    · obtain rfl := Option.some.inj (hfirst.symm.trans hch)
      exact hvisible
    · cases hch
      exact hspace

/-- The chunks are trimmed just when, wherever an overlap starts behind a space since no sentence
starts in its window, that space is the only whitespace there. -/
theorem splitText_trimmed_iff (lower : String → String) (text : List Char)
    {strategy : ChunkStrategy} {maxChars overlapChars : ℤ} {minChars : Option ℤ}
    (h : ValidGeometry strategy maxChars overlapChars minChars) :
    ∃ chunks, splitText lower text strategy maxChars overlapChars minChars = .ok chunks ∧
      ((∀ c ∈ chunks, c.Trimmed) ↔
        ∀ group ∈ groupsFor text strategy maxChars.toNat,
          (packedSpans lower text maxChars.toNat (chunkFloor maxChars minChars).toNat
            group).IsChain (WordFollows lower text overlapChars.toNat)) := by
  obtain ⟨chunks, hok, hmap, -, htext⟩ := @splitText_chunks text lower _ _ _ _ h
  obtain ⟨htight, -⟩ := @spans_spec text lower _ _ _ _ h
  refine ⟨chunks, hok, ?_⟩
  have hvisible : (∀ c ∈ chunks, c.Trimmed) ↔
      ∀ x ∈ extendedSpans lower text strategy maxChars overlapChars minChars,
        Visible text x.1 := by
    refine chunks_forall_iff h hmap fun c hc b hb hend => ?_
    obtain ⟨-, hlength, -, hlast⟩ := hb
    rw [← hend] at hlength hlast
    exact trimmed_iff (htext c hc) hlength hlast
  rw [hvisible, extendedSpans, forall_mem_flatMap]
  refine forall₂_congr fun group hgroup => group_visible_iff fun s hs => ?_
  exact htight s (mem_flatMap.mpr ⟨group, hgroup, hs⟩)

theorem splitText_trimmed_acme : ∃ chunks,
    splitText String.toLower "Acme won. It rose.".toList .paragraph 10 4 none = .ok chunks ∧
      ((∀ c ∈ chunks, c.Trimmed) ↔
        ∀ group ∈ groupsFor "Acme won. It rose.".toList .paragraph 10,
          (packedSpans String.toLower "Acme won. It rose.".toList 10 2 group).IsChain
            (WordFollows String.toLower "Acme won. It rose.".toList 4)) :=
  splitText_trimmed_iff String.toLower "Acme won. It rose.".toList
    ⟨by decide, by decide, by decide, by decide, by simp⟩

/-- The overlap of the second paragraph starts behind the first of two spaces. -/
theorem second_space_first : ValidGeometry .paragraph 6 5 none ∧ ∃ chunks,
    splitText String.toLower "ab  c\n\nd".toList .paragraph 6 5 none = .ok chunks ∧
      ¬ ∀ c ∈ chunks, c.Trimmed := by
  refine ⟨⟨by decide, by decide, by decide, by decide, by simp⟩,
    [⟨0, "ab  c".toList, 0, 5, by decide, by decide⟩,
      ⟨1, " c\n\nd".toList, 3, 8, by decide, by decide⟩], by decide, ?_⟩
  intro hall
  have hspace := hall _ (mem_cons_of_mem _ mem_cons_self) ' ' (.inl (by decide))
  revert hspace
  decide

end

end OmniSense.Retrieval
