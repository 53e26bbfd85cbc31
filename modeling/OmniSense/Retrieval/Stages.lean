import OmniSense.Retrieval.Splitter
import Mathlib.Data.List.Forall2

/-! What each stage of the splitter does to the text: its spans run from the first to the last
visible character of what it was given, and leave out whitespace and, behind a sentence, closers. -/

namespace OmniSense.Retrieval
open Library List

variable {text : List Char}

def Visible (text : List Char) (i : ℕ) : Prop := holdsAt (fun c => !isSpace c) text i = true

def Blank (text : List Char) (a b : ℕ) : Prop := ∀ i, a ≤ i → i < b → ¬ Visible text i

def CloserGap (text : List Char) (a b : ℕ) : Prop := holdsAt isCloser text a = true ∨ Blank text a b

def Tight (text : List Char) (s : Span) : Prop :=
  s.1 < s.2 ∧ s.2 ≤ text.length ∧ Visible text s.1 ∧ Visible text (s.2 - 1)

variable (c : Char) {found : List Span} {G : ℕ → ℕ → Prop} {i : ℕ} {s : Span}

theorem visible_iff : Visible text i ↔ ∃ c, text[i]? = some c ∧ isSpace c = false := by
  unfold Visible holdsAt
  cases text[i]? <;> simp

theorem visible_of_not_space (hi : i < text.length) (h : holdsAt isSpace text i = false) :
    Visible text i := by
  have hget := List.getElem?_eq_getElem hi
  exact visible_iff.mpr ⟨text[i], hget, by simpa [holdsAt, hget] using h⟩

variable {p : Char → Bool}

theorem visible_of (hp : ∀ c, p c = true → isSpace c = false)
    (h : holdsAt p text i = true) : Visible text i := by
  obtain ⟨c, hc, hpc⟩ := (Option.any_eq_true ..).mp h
  exact visible_iff.mpr ⟨c, hc, hp c hpc⟩

theorem not_visible_of (hp : ∀ c, p c = true → isSpace c = true)
    (h : holdsAt p text i = true) : ¬ Visible text i := by
  intro hvisible
  obtain ⟨c, hc, hspace⟩ := visible_iff.mp hvisible
  have hpc : p c = true := by simpa [holdsAt, hc] using h
  rw [hp c hpc] at hspace
  cases hspace

theorem closer_not_space (h : isCloser c = true) : isSpace c = false := by
  have hmem := of_decide_eq_true h
  simp only [mem_cons, not_mem_nil, or_false] at hmem
  rcases hmem with rfl | rfl | rfl | rfl | rfl | rfl | rfl <;> decide

theorem final_not_space (h : isSentenceFinal c = true) : isSpace c = false := by
  simp only [isSentenceFinal, Bool.or_eq_true, beq_iff_eq] at h
  rcases h with (rfl | rfl) | rfl <;> decide

theorem newline_space (h : (c == '\n') = true) : isSpace c = true := by
  obtain rfl := beq_iff_eq.mp h
  decide

theorem blank_space (h : isBlank c = true) : isSpace c = true := by
  simp only [isBlank, Bool.or_eq_true, beq_iff_eq] at h
  rcases h with rfl | rfl <;> decide

theorem Blank.trans {a b c : ℕ} (h : Blank text a b) (h' : Blank text b c) : Blank text a c := by
  intro i hi hi'
  by_cases hb : i < b
  · exact h i hi hb
  · exact h' i (by omega) hi'

theorem Blank.refl (a : ℕ) : Blank text a a := fun i h h' => absurd h' (by omega)

theorem Blank.le {a b i : ℕ} (h : Blank text a b) (hi : Visible text i) (ha : a ≤ i) : b ≤ i := by
  by_contra hlt
  exact h i ha (by omega) hi

theorem CloserGap.blank {a b c : ℕ} (h : CloserGap text a b) (h' : Blank text b c) :
    CloserGap text a c := by
  rcases h with h | h
  · exact .inl h
  · exact .inr (h.trans h')

theorem blank_runEnd (hp : ∀ c, p c = true → isSpace c = true) (i hi : ℕ) :
    Blank text i (runEnd p text i hi) :=
  fun _ hk hk' => not_visible_of hp (holdsAt_of_lt_runEnd hk hk')

/-! ## Trimming -/

theorem tighten_some {a b : ℕ} (hb : b ≤ text.length) (h : tighten text a b = some s) :
    Tight text s ∧ a ≤ s.1 ∧ s.2 ≤ b ∧ Blank text a s.1 ∧ Blank text s.2 b := by
  unfold tighten at h
  obtain ⟨hle, hlo, hrun, hstop⟩ := @trimEnd_spec _ isSpace text
    (runEnd isSpace text a b) b
  have hstart := le_runEnd isSpace text a b
  dsimp only at h
  split_ifs at h with hlt
  cases h
  have hfirst : Visible text (runEnd isSpace text a b) :=
    visible_of_not_space (by omega) (runEnd_stops (by omega))
  have hlast := visible_of_not_space (by omega) (hstop hlt)
  refine ⟨⟨hlt, by omega, hfirst, hlast⟩, hstart, hle, blank_runEnd (fun _ h => h) _ _, ?_⟩
  intro i hi hi'
  exact not_visible_of (fun _ h => h) (hrun i hi hi')

theorem tighten_none {a b : ℕ} (h : tighten text a b = none) : Blank text a b := by
  unfold tighten at h
  obtain ⟨-, -, hrun, -⟩ := trimEnd_spec (runEnd isSpace text a b) b
  dsimp only at h
  split_ifs at h with hlt
  intro i hi hi'
  by_cases hstart : i < runEnd isSpace text a b
  · exact blank_runEnd (fun _ h => h) a b i hi hstart
  · exact not_visible_of (fun _ h => h) (hrun i (by omega) hi')

/-! ## Pieces -/

/-- The cuts of `[cursor, hi)`: each gap is blank, or a `G` right behind a visible character. -/
def Cuts (text : List Char) (G : ℕ → ℕ → Prop) (hi : ℕ) : ℕ → List Span → Prop
  | _, [] => True
  | cursor, (start, stop) :: found =>
    cursor ≤ start ∧ start ≤ stop ∧ stop < hi ∧
      (Blank text start stop ∨ cursor < start ∧ Visible text (start - 1) ∧ G start stop) ∧
      Cuts text G hi stop found

theorem pieces_tight {hi cursor : ℕ} (hhi : hi ≤ text.length) (h : Cuts text G hi cursor found) :
    ∀ s ∈ pieces text hi cursor found, Tight text s := by
  induction found generalizing cursor with
  | nil =>
    intro s hs
    exact (tighten_some hhi (Option.mem_toList.mp hs)).1
  | cons cut found ih =>
    obtain ⟨-, hle, hstop, -, hrest⟩ := h
    intro s hs
    rcases mem_append.mp hs with hs | hs
    · exact (tighten_some (by omega) (Option.mem_toList.mp hs)).1
    · exact ih hrest s hs

theorem pieces_spread (hG : ∀ a b, Blank text a b → G a b)
    (hGB : ∀ a b c, G a b → Blank text b c → G a c) {hi cursor : ℕ}
    (hhi : hi ≤ text.length) (hlast : Visible text (hi - 1)) (hcursor : cursor < hi)
    (h : Cuts text G hi cursor found) :
    ∃ m, cursor ≤ m ∧ Blank text cursor m ∧ Spread G m (pieces text hi cursor found) hi := by
  induction found generalizing cursor with
  | nil =>
    unfold pieces
    cases ht : tighten text cursor hi with
    | none => exact absurd hlast (tighten_none ht _ (by omega) (by omega))
    | some s =>
      obtain ⟨⟨hlt, -⟩, hle, hend, hblank, hblank'⟩ := tighten_some hhi ht
      have hreach : hi - 1 < s.2 := by
        by_contra hout
        exact hblank' _ (by omega) (by omega) hlast
      obtain rfl : s.2 = hi := by omega
      exact ⟨s.1, hle, hblank, .one hlt⟩
  | cons cut found ih =>
    obtain ⟨start, stop⟩ := cut
    obtain ⟨hle, hle', hstop, hgap, hrest⟩ := h
    obtain ⟨m, hm, hblankm, hspread⟩ := ih hstop hrest
    unfold pieces
    cases ht : tighten text cursor start with
    | none =>
      have hblank := tighten_none ht
      rcases hgap with hgap | ⟨hlt, hvisible, -⟩
      · exact ⟨m, by omega, (hblank.trans hgap).trans hblankm, hspread⟩
      · exact absurd hvisible (hblank _ (by omega) (by omega))
    | some s =>
      obtain ⟨⟨hlt, -⟩, hle₁, hend, hblank, hblank'⟩ := tighten_some (by omega) ht
      refine ⟨s.1, hle₁, hblank, .cons hlt (by omega) ?_ hspread⟩
      rcases hgap with hgap | ⟨hlt', hvisible, hgap⟩
      · exact hG _ _ ((hblank'.trans hgap).trans hblankm)
      · have hreach : start - 1 < s.2 := by
          by_contra hout
          exact hblank' _ (by omega) (by omega) hvisible
        obtain rfl : s.2 = start := by omega
        exact hGB _ _ _ hgap hblankm

theorem pieces_whole (hG : ∀ a b, Blank text a b → G a b)
    (hGB : ∀ a b c, G a b → Blank text b c → G a c)
    (hs : Tight text s) (h : Cuts text G s.2 s.1 found) :
    Spread G s.1 (pieces text s.2 s.1 found) s.2 ∧
      ∀ x ∈ pieces text s.2 s.1 found, Tight text x := by
  obtain ⟨hlt, hlen, hfirst, hlast⟩ := hs
  obtain ⟨m, hm, hblank, hspread⟩ := pieces_spread hG hGB hlen hlast hlt h
  have hle := hblank.le hfirst le_rfl
  obtain rfl : m = s.1 := by omega
  exact ⟨hspread, pieces_tight hlen h⟩

theorem blank_gap (a b : ℕ) (h : Blank text a b) : CloserGap text a b := .inr h

theorem blank_trans (a b c : ℕ) (h : Blank text a b) (h' : Blank text b c) : Blank text a c :=
  h.trans h'

/-! ## Paragraphs and sections -/

theorem paragraphBreak_spec {hi i stop : ℕ} (h : paragraphBreak text hi i = some stop) :
    i < stop ∧ stop ≤ hi ∧ Blank text i stop := by
  unfold paragraphBreak at h
  dsimp only at h
  split_ifs at h with hmatch
  cases h
  obtain ⟨hi₁, hnewline, hj, hnewline'⟩ := hmatch
  have hle := le_runEnd isBlank text (i + 1) hi
  have hle' := le_runEnd isSpace text (runEnd isBlank text (i + 1) hi + 1) hi
  have hone : ∀ k, holdsAt (· == '\n') text k = true → Blank text k (k + 1) := by
    intro k hk i hi hi'
    obtain rfl : i = k := by omega
    exact not_visible_of newline_space hk
  refine ⟨by omega, runEnd_le (by omega), ?_⟩
  have hfirst := (hone i hnewline).trans (blank_runEnd blank_space (i + 1) hi)
  exact (hfirst.trans (hone _ hnewline')).trans (blank_runEnd (fun _ h => h) _ hi)

theorem paragraph_cuts {hi cursor : ℕ} (hlast : Visible text (hi - 1))
    (h : Matches (paragraphBreak text hi) cursor found) :
    Cuts text (Blank text) hi cursor found := by
  induction found generalizing cursor with
  | nil => trivial
  | cons s found ih =>
    obtain ⟨hle, hmatch, -, -⟩ := Matches.cons_iff.mp h
    obtain ⟨hlt, hstop, hblank⟩ := paragraphBreak_spec hmatch
    have hend : s.2 ≠ hi := by
      rintro rfl
      exact hblank _ (by omega) (by omega) hlast
    exact ⟨hle, hlt.le, by omega, .inl hblank, ih h.tail⟩

theorem paragraphSpans_spread (hs : Tight text s) :
    Spread (Blank text) s.1 (paragraphSpans text s.1 s.2) s.2 ∧
      ∀ x ∈ paragraphSpans text s.1 s.2, Tight text x := by
  have hfound := matches_finditer (m := paragraphBreak text s.2)
    (fun _ _ h => (paragraphBreak_spec h).1) s.1 s.2
  exact pieces_whole (fun _ _ h => h) blank_trans hs (paragraph_cuts hs.2.2.2 hfound)

theorem headingLine_spec {hi i stop : ℕ} (h : headingLine text hi i = some stop) :
    i < stop ∧ i < hi := by
  unfold headingLine at h
  dsimp only at h
  split_ifs at h with hmatch
  cases h
  have h₁ := le_runEnd isBlank text i hi
  omega

theorem sectionsFrom_eq (hi start : ℕ) (starts : List ℕ) :
    sectionsFrom text hi (start :: starts) =
      pieces text hi start (starts.map fun cut => (cut, cut)) := by
  -- Sections are the pieces between boundaries that leave no gap.
  induction starts generalizing start with
  | nil => rfl
  | cons next starts ih => rw [sectionsFrom, ih, map_cons, pieces]

theorem boundary_cuts {hi cursor : ℕ} {starts : List ℕ} (hlo : ∀ x ∈ starts, cursor ≤ x)
    (hhi : ∀ x ∈ starts, x < hi) (hsorted : starts.Pairwise (· ≤ ·)) :
    Cuts text (Blank text) hi cursor (starts.map fun cut => (cut, cut)) := by
  induction starts generalizing cursor with
  | nil => trivial
  | cons x starts ih =>
    obtain ⟨hhead, htail⟩ := pairwise_cons.mp hsorted
    exact ⟨hlo x (by simp), le_rfl, hhi x (by simp), .inl (.refl x),
      ih hhead (fun y hy => hhi y (by simp [hy])) htail⟩

theorem headings_spec (text : List Char) (body : Span) :
    (∀ x ∈ (finditer (headingLine text body.2) body.1 body.2).map Prod.fst,
        body.1 ≤ x ∧ x < body.2) ∧
      ((finditer (headingLine text body.2) body.1 body.2).map Prod.fst).Pairwise (· ≤ ·) := by
  obtain ⟨hsorted, hfound⟩ := matches_finditer (m := headingLine text body.2)
    (fun _ _ h => (headingLine_spec h).1) body.1 body.2
  constructor
  · intro x hx
    obtain ⟨s, hs, rfl⟩ := mem_map.mp hx
    obtain ⟨hle, hmatch⟩ := hfound s hs
    exact ⟨hle, (headingLine_spec hmatch).2⟩
  · refine pairwise_map.mpr (hsorted.imp_of_mem fun {a b} ha _ hab => ?_)
    have := (headingLine_spec (hfound a ha).2).1
    omega

theorem sectionSpans_spread {body : Span} (hbody : Tight text body) :
    Spread (Blank text) body.1 (sectionSpans text body) body.2 ∧
      ∀ x ∈ sectionSpans text body, Tight text x := by
  obtain ⟨hlo, hsorted⟩ := headings_spec text body
  unfold sectionSpans
  split
  next => exact ⟨.one hbody.1, by simpa using hbody⟩
  next start starts heq =>
    rw [heq] at hlo hsorted
    obtain ⟨hhead, htail⟩ := pairwise_cons.mp hsorted
    split_ifs with hstart
    · obtain rfl : start = body.1 := le_antisymm hstart (hlo start (by simp)).1
      rw [sectionsFrom_eq]
      exact pieces_whole (fun _ _ h => h) blank_trans hbody
        (boundary_cuts hhead (fun x hx => (hlo x (by simp [hx])).2) htail)
    · rw [sectionsFrom_eq]
      exact pieces_whole (fun _ _ h => h) blank_trans hbody
        (boundary_cuts (fun x hx => (hlo x hx).1) (fun x hx => (hlo x hx).2) hsorted)

/-! ## Sentences and hard cuts -/

theorem sentenceEnd_spec {hi i stop : ℕ} (h : sentenceEnd text hi i = some stop) :
    i < stop ∧ stop ≤ hi ∧ ¬ Visible text (stop - 1) ∧ Visible text (i - 1) ∧
      CloserGap text i stop := by
  unfold sentenceEnd at h
  dsimp only at h
  split_ifs at h with hmatch
  cases h
  obtain ⟨-, hfinal, hlt⟩ := hmatch
  have hi' : i ≤ hi := by
    by_contra hout
    have hj : runEnd isCloser text i hi = i := runEnd_of_le (by omega)
    have hk : runEnd isSpace text i hi = i := runEnd_of_le (by omega)
    rw [hj, hk] at hlt
    exact absurd hlt (lt_irrefl i)
  have hle := le_runEnd isCloser text i hi
  have hle' := @runEnd_le _ isCloser text _ _ hi'
  have hblank := @blank_runEnd text isSpace (fun _ h => h)
    (runEnd isCloser text i hi) hi
  refine ⟨by omega, runEnd_le hle', hblank _ (by omega) (by omega),
    visible_of final_not_space hfinal, ?_⟩
  by_cases hcloser : i < runEnd isCloser text i hi
  · exact .inl (holdsAt_of_lt_runEnd le_rfl hcloser)
  · obtain heq : runEnd isCloser text i hi = i := by omega
    rw [heq] at hblank ⊢
    exact .inr hblank

section

variable {lower : String → String}

theorem sentence_cuts {hi cursor : ℕ} {found : List Span} (hlast : Visible text (hi - 1))
    (h : Matches (sentenceEnd text hi) cursor found) :
    ∃ cuts, sentencesFrom lower text hi cursor found = pieces text hi cursor cuts ∧
      Cuts text (CloserGap text) hi cursor cuts := by
  induction found generalizing cursor with
  | nil => exact ⟨[], rfl, trivial⟩
  | cons s found ih =>
    obtain ⟨hle, hmatch, -, hrest⟩ := Matches.cons_iff.mp h
    obtain ⟨hlt, hstop, hspace, hvisible, hgap⟩ := sentenceEnd_spec hmatch
    rw [sentencesFrom]
    split_ifs with hskip
    · exact ih hrest
    · obtain ⟨cuts, heq, hcuts⟩ := ih h.tail
      have hend : s.2 ≠ hi := by
        rintro rfl
        exact hspace hlast
      refine ⟨s :: cuts, by rw [heq, pieces], hle, hlt.le, by omega, ?_, hcuts⟩
      exact .inr ⟨by omega, hvisible, hgap⟩

variable {s : Span} {maxChars : ℕ}

theorem sentenceSpans_spread (hs : Tight text s) :
    Spread (CloserGap text) s.1 (sentenceSpans lower text s.1 s.2) s.2 ∧
      ∀ x ∈ sentenceSpans lower text s.1 s.2, Tight text x := by
  have hfound := matches_finditer (m := sentenceEnd text s.2)
    (fun _ _ h => (sentenceEnd_spec h).1) s.1 s.2
  obtain ⟨cuts, heq, hcuts⟩ := sentence_cuts hs.2.2.2 hfound
  unfold sentenceSpans
  rw [heq]
  exact pieces_whole blank_gap (fun _ _ _ => CloserGap.blank) hs hcuts

theorem cutPoint_spec {maxChars : ℕ} (hmax : 0 < maxChars) (cursor : ℕ) :
    cursor < cutPoint text maxChars cursor ∧ cutPoint text maxChars cursor ≤ cursor + maxChars := by
  unfold cutPoint
  dsimp only
  split
  next pivot hfind =>
    have hmem := mem_of_find?_eq_some hfind
    rw [mem_reverse, mem_range'_1] at hmem
    split_ifs <;> omega
  next => omega

theorem hardCut_cuts {maxChars hi : ℕ} (hmax : 0 < maxChars) (fuel cursor : ℕ) :
    ∃ cuts, hardCutFrom text maxChars hi fuel cursor = pieces text hi cursor cuts ∧
      Cuts text (Blank text) hi cursor cuts := by
  induction fuel generalizing cursor with
  | zero => exact ⟨[], rfl, trivial⟩
  | succ fuel ih =>
    rw [hardCutFrom]
    split_ifs with hlong
    · obtain ⟨hlt, hle⟩ := cutPoint_spec hmax cursor
      obtain ⟨cuts, heq, hcuts⟩ := ih (cutPoint text maxChars cursor)
      refine ⟨(cutPoint text maxChars cursor, cutPoint text maxChars cursor) :: cuts,
        by rw [heq, pieces], hlt.le, le_rfl, by omega, .inl (.refl _), hcuts⟩
    · exact ⟨[], rfl, trivial⟩

theorem hardCut_spread (hmax : 0 < maxChars) (hs : Tight text s) :
    Spread (CloserGap text) s.1 (hardCut text s.1 s.2 maxChars) s.2 ∧
      ∀ x ∈ hardCut text s.1 s.2 maxChars, Tight text x := by
  unfold hardCut
  obtain ⟨cuts, heq, hcuts⟩ := hardCut_cuts hmax (s.2 - s.1) s.1
  rw [heq]
  obtain ⟨hspread, htight⟩ := pieces_whole (fun _ _ h => h) blank_trans hs hcuts
  exact ⟨hspread.mono blank_gap, htight⟩

/-! ## Units and chunks -/

theorem sentenceUnits_spread (hmax : 0 < maxChars) (hs : Tight text s) :
    Spread (CloserGap text) s.1 (sentenceUnits text maxChars s) s.2 ∧
      ∀ x ∈ sentenceUnits text maxChars s, Tight text x := by
  unfold sentenceUnits
  split_ifs
  · exact ⟨.one hs.1, by simpa using hs⟩
  · exact hardCut_spread hmax hs

theorem blockUnits_spread (hmax : 0 < maxChars) (hs : Tight text s) :
    Spread (CloserGap text) s.1 (blockUnits lower text maxChars s) s.2 ∧
      ∀ x ∈ blockUnits lower text maxChars s, Tight text x := by
  unfold blockUnits
  split_ifs
  · exact ⟨.one hs.1, by simpa using hs⟩
  · obtain ⟨hspread, htight⟩ := sentenceSpans_spread hs
    refine ⟨hspread.flatMap fun x hx => (sentenceUnits_spread hmax (htight x hx)).1, ?_⟩
    intro x hx
    obtain ⟨y, hy, hxy⟩ := mem_flatMap.mp hx
    exact (sentenceUnits_spread hmax (htight y hy)).2 x hxy

theorem unitSpans_spread {maxChars lo hi : ℕ} (hmax : 0 < maxChars) {blocks : List Span}
    (h : Spread (Blank text) lo blocks hi) (htight : ∀ s ∈ blocks, Tight text s) :
    Spread (CloserGap text) lo (unitSpans lower text blocks maxChars) hi ∧
      ∀ x ∈ unitSpans lower text blocks maxChars, Tight text x := by
  have hgap := h.mono blank_gap
  refine ⟨hgap.flatMap fun s hs => (blockUnits_spread hmax (htight s hs)).1, ?_⟩
  intro x hx
  obtain ⟨y, hy, hxy⟩ := mem_flatMap.mp hx
  exact (blockUnits_spread hmax (htight y hy)).2 x hxy

theorem coalesce_tight {joins : Span → Span → Bool} {G : ℕ → ℕ → Prop} {lo hi : ℕ} {first : Span}
    {rest : List Span} (h : Spread G lo (first :: rest) hi)
    (htight : ∀ s ∈ first :: rest, Tight text s) :
    ∀ s ∈ coalesce joins first rest, Tight text s := by
  intro s hs
  have hlt := (h.coalesce).within s hs
  obtain ⟨a, ha, b, hb, rfl⟩ := mem_coalesce hs
  obtain ⟨-, -, hfirst, -⟩ := htight a ha
  obtain ⟨-, hlen, -, hlast⟩ := htight b hb
  exact ⟨hlt.2.1, hlen, hfirst, hlast⟩

theorem pack_spread {maxChars lo hi : ℕ} {G : ℕ → ℕ → Prop} {units : List Span}
    (h : Spread G lo units hi) (htight : ∀ s ∈ units, Tight text s) :
    Spread G lo (pack units maxChars) hi ∧ ∀ s ∈ pack units maxChars, Tight text s := by
  cases units with
  | nil => exact absurd rfl h.ne_nil
  | cons first rest => exact ⟨h.coalesce, coalesce_tight h htight⟩

theorem mergeRunts_spread {minChars lo hi : ℕ} {G : ℕ → ℕ → Prop} {spans : List Span}
    (h : Spread G lo spans hi) (htight : ∀ s ∈ spans, Tight text s) :
    Spread G lo (mergeRunts spans minChars) hi ∧ ∀ s ∈ mergeRunts spans minChars, Tight text s := by
  cases spans with
  | nil => exact absurd rfl h.ne_nil
  | cons first rest => exact ⟨h.coalesce, coalesce_tight h htight⟩

theorem packedSpans_spread {maxChars floor lo hi : ℕ} (hmax : 0 < maxChars) {group : List Span}
    (h : Spread (Blank text) lo group hi) (htight : ∀ s ∈ group, Tight text s) :
    Spread (CloserGap text) lo (packedSpans lower text maxChars floor group) hi ∧
      ∀ x ∈ packedSpans lower text maxChars floor group, Tight text x := by
  obtain ⟨hunits, htight'⟩ := unitSpans_spread hmax h htight
  obtain ⟨hpacked, htight''⟩ := pack_spread hunits htight'
  exact mergeRunts_spread hpacked htight''

end

/-! ## Groups -/

def Covers (text : List Char) (region : Span) (group : List Span) : Prop :=
  Spread (Blank text) region.1 group region.2 ∧ ∀ s ∈ group, Tight text s

theorem groupsFor_covers {body : Span} (h : tighten text 0 text.length = some body)
    (strategy : ChunkStrategy) (maxChars : ℕ) :
    ∃ regions, Spread (Blank text) body.1 regions body.2 ∧
      List.Forall₂ (Covers text) regions (groupsFor text strategy maxChars) := by
  have hbody := (tighten_some le_rfl h).1
  have hone : ∀ group, Covers text body group → ∃ regions,
      Spread (Blank text) body.1 regions body.2 ∧ List.Forall₂ (Covers text) regions [group] :=
    fun group hgroup => ⟨[body], .one hbody.1, .cons hgroup .nil⟩
  unfold groupsFor
  simp only [h]
  split
  · split_ifs
    · exact hone _ ⟨.one hbody.1, by simpa using hbody⟩
    · exact hone _ (paragraphSpans_spread hbody)
  · obtain ⟨hspread, htight⟩ := sectionSpans_spread hbody
    refine ⟨sectionSpans text body, hspread, ?_⟩
    rw [List.forall₂_map_right_iff]
    exact List.forall₂_same.mpr fun s hs => paragraphSpans_spread (htight s hs)
  · exact hone _ (paragraphSpans_spread hbody)

end OmniSense.Retrieval
