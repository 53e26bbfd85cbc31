import OmniSense.Retrieval.Stages

/-! The chunks of a text: numbered, true to the text, ascending, and overlapping no further than
they may. -/

namespace OmniSense.Retrieval
open Library List

variable {text : List Char} {lower : String → String}

/-! ## Overlap -/

theorem snapToBoundary_spec {windowStart hardStart : ℕ} (h : windowStart < hardStart) :
    windowStart < snapToBoundary lower text windowStart hardStart ∧
      snapToBoundary lower text windowStart hardStart ≤ hardStart := by
  unfold snapToBoundary
  rw [if_neg (by omega)]
  dsimp only
  split
  next found rest heq =>
    have hmem : found ∈ found :: rest := mem_cons_self
    rw [← heq, mem_filter] at hmem
    obtain ⟨hfound, hkept⟩ := hmem
    have hmatches := matches_finditer (m := sentenceEnd text hardStart)
      (fun _ _ h => (sentenceEnd_spec h).1) windowStart hardStart
    obtain ⟨hle, hmatch⟩ := hmatches.2 found hfound
    have hlt := (sentenceEnd_spec hmatch).1
    have hbefore : found.2 < hardStart := by
      have := of_decide_eq_true hkept
      exact this.1
    omega
  next =>
    split
    next space hfind =>
      have hmem := mem_range'_1.mp (mem_of_find?_eq_some hfind)
      split_ifs <;> omega
    next => omega

theorem overlapStart_spec {w : ℕ} {previous s : Span} (h : previous.1 < s.1) :
    previous.1 < overlapStart lower text w previous s ∧ overlapStart lower text w previous s ≤ s.1 ∧
      s.1 ≤ overlapStart lower text w previous s + w := by
  unfold overlapStart
  by_cases hw : max previous.1 (s.1 - w) < s.1
  · obtain ⟨hlt, hle⟩ := @snapToBoundary_spec text lower _ _ hw
    omega
  · unfold snapToBoundary
    rw [if_pos (by omega)]
    omega

theorem overlapStart_zero (previous s : Span) : overlapStart lower text 0 previous s = s.1 := by
  exact if_pos (by omega)

theorem overlapFrom_zero (previous : Span) (rest : List Span) :
    overlapFrom lower text 0 previous rest = rest := by
  induction rest generalizing previous with
  | nil => rfl
  | cons s rest ih => rw [overlapFrom, overlapStart_zero, ih]

theorem groupSpans_eq (maxChars overlapChars floor : ℕ) (group : List Span) :
    groupSpans lower text maxChars overlapChars floor group =
      applyOverlap lower text (packedSpans lower text maxChars floor group) overlapChars := by
  unfold groupSpans
  split_ifs with hzero
  · subst hzero
    unfold applyOverlap
    split
    next heq => exact heq
    next heq => rw [overlapFrom_zero, heq]
  · rfl

theorem widens_overlapFrom {G : ℕ → ℕ → Prop} {w lo hi : ℕ} {previous : Span} {rest : List Span}
    (h : Spread G lo (previous :: rest) hi) :
    Widens w (previous.1 + 1) rest (overlapFrom lower text w previous rest) := by
  induction rest generalizing previous lo with
  | nil => trivial
  | cons s rest ih =>
    cases h with
    | cons hlt hle _ hrest =>
      obtain ⟨hs, -⟩ := hrest.head rfl
      obtain ⟨h₁, h₂, h₃⟩ := @overlapStart_spec text lower w (lo, _) s (by simp only; omega)
      exact ⟨rfl, h₁, h₂, h₃, ih hrest⟩

theorem widens_applyOverlap {G : ℕ → ℕ → Prop} {w lo hi p : ℕ} {spans : List Span}
    (h : Spread G lo spans hi) (hp : p ≤ lo) :
    Widens w p spans (applyOverlap lower text spans w) := by
  cases spans with
  | nil => trivial
  | cons first rest =>
    obtain ⟨hfirst, -⟩ := h.head rfl
    exact ⟨rfl, by omega, le_rfl, by omega, widens_overlapFrom h⟩

/-! ## All groups -/

section

variable {maxChars floor w : ℕ}

theorem groups_widen (hmax : 0 < maxChars) {lo hi p : ℕ} {regions : List Span}
    {groups : List (List Span)} (hregions : Spread (Blank text) lo regions hi)
    (h : List.Forall₂ (Covers text) regions groups) (hp : p ≤ lo) :
    Spread (CloserGap text) lo (groups.flatMap (packedSpans lower text maxChars floor)) hi ∧
      (∀ s ∈ groups.flatMap (packedSpans lower text maxChars floor), Tight text s) ∧
      Widens w p (groups.flatMap (packedSpans lower text maxChars floor))
        (groups.flatMap (groupSpans lower text maxChars w floor)) := by
  induction hregions generalizing groups p with
  | one hlt =>
    obtain ⟨group, rest, hgroup, hrest, rfl⟩ := List.forall₂_cons_left_iff.mp h
    obtain rfl := List.forall₂_nil_left_iff.mp hrest
    obtain ⟨hspread, htight⟩ := packedSpans_spread hmax
      hgroup.1 hgroup.2
    simp only [flatMap_cons, flatMap_nil, append_nil, groupSpans_eq]
    exact ⟨hspread, htight, widens_applyOverlap hspread hp⟩
  | @cons lo e m hi regions hlt hle hgap hregions ih =>
    obtain ⟨group, rest, hgroup, hrest, rfl⟩ := List.forall₂_cons_left_iff.mp h
    obtain ⟨hspread, htight⟩ := packedSpans_spread hmax
      hgroup.1 hgroup.2
    obtain ⟨hspread', htight', hwidens⟩ := ih hrest le_rfl
    simp only [flatMap_cons, groupSpans_eq] at hwidens ⊢
    refine ⟨hspread.append hle (.inr hgap) hspread', ?_, ?_⟩
    · intro s hs
      rcases mem_append.mp hs with hs | hs
      · exact htight s hs
      · exact htight' s hs
    · refine (widens_applyOverlap hspread hp).append (fun s hs => ?_) (by omega) hwidens
      have := hspread.within s hs
      simp only at this
      omega

/-- `split_text` refuses nothing here. -/
structure ValidGeometry (strategy : ChunkStrategy) (maxChars overlapChars : ℤ)
    (minChars : Option ℤ) : Prop where
  implemented : strategy ≠ .speakerTurn
  max_pos : 1 ≤ maxChars
  overlap_nonneg : 0 ≤ overlapChars
  overlap_lt : overlapChars < maxChars
  min_nonneg : ∀ m ∈ minChars, 0 ≤ m

def unextendedSpans (lower : String → String) (text : List Char) (strategy : ChunkStrategy)
    (maxChars : ℤ) (minChars : Option ℤ) : List Span :=
  (groupsFor text strategy maxChars.toNat).flatMap
    (packedSpans lower text maxChars.toNat (chunkFloor maxChars minChars).toNat)

def extendedSpans (lower : String → String) (text : List Char) (strategy : ChunkStrategy)
    (maxChars overlapChars : ℤ) (minChars : Option ℤ) : List Span :=
  (groupsFor text strategy maxChars.toNat).flatMap
    (groupSpans lower text maxChars.toNat overlapChars.toNat (chunkFloor maxChars minChars).toNat)

end

/-! ## Chunks -/

section

variable {strategy : ChunkStrategy} {maxChars overlapChars : ℤ} {minChars : Option ℤ}

theorem ValidGeometry.floor_nonneg (h : ValidGeometry strategy maxChars overlapChars minChars) :
    0 ≤ chunkFloor maxChars minChars := by
  have hmax := h.max_pos
  cases hm : minChars with
  | none => exact Int.ediv_nonneg (by omega) (by omega)
  | some m => exact h.min_nonneg m hm

theorem splitText_eq (h : ValidGeometry strategy maxChars overlapChars minChars) :
    splitText lower text strategy maxChars overlapChars minChars =
      makeChunks text (extendedSpans lower text strategy maxChars overlapChars minChars) := by
  have hoverlap := h.overlap_nonneg
  have hlt := h.overlap_lt
  have hfloor := h.floor_nonneg
  have h₁ : ¬ maxChars < 1 := by omega
  have h₂ : ¬ overlapChars < 0 := by omega
  have h₃ : ¬ maxChars ≤ overlapChars := by omega
  have h₄ : ¬ chunkFloor maxChars minChars < 0 := by omega
  unfold splitText extendedSpans
  simp only [if_neg h₁, if_neg h₂, if_neg h₃, if_neg h₄, if_neg h.implemented]

theorem groupsFor_none (h : tighten text 0 text.length = none) (strategy : ChunkStrategy) (n : ℕ) :
    groupsFor text strategy n = [] := by
  unfold groupsFor
  rw [h]

theorem spans_spec (h : ValidGeometry strategy maxChars overlapChars minChars) :
    (∀ s ∈ unextendedSpans lower text strategy maxChars minChars, Tight text s) ∧
      (unextendedSpans lower text strategy maxChars minChars).Pairwise (fun a b => a.2 ≤ b.1) ∧
      Widens overlapChars.toNat 0 (unextendedSpans lower text strategy maxChars minChars)
        (extendedSpans lower text strategy maxChars overlapChars minChars) := by
  have hmax := h.max_pos
  unfold unextendedSpans extendedSpans
  cases hbody : tighten text 0 text.length with
  | none =>
    rw [groupsFor_none hbody]
    exact ⟨by simp, .nil, trivial⟩
  | some body =>
    obtain ⟨regions, hregions, hgroups⟩ := groupsFor_covers hbody strategy maxChars.toNat
    obtain ⟨hspread, htight, hwidens⟩ := @groups_widen _ lower
      maxChars.toNat (chunkFloor maxChars minChars).toNat overlapChars.toNat (by omega) _ _ 0 _ _
      hregions hgroups (Nat.zero_le _)
    exact ⟨htight, hspread.disjoint, hwidens⟩

theorem slice_visible {a b i : ℕ} (ha : a ≤ i) (hb : i < b) (h : Visible text i) :
    ¬ (slice text a b).all isSpace := by
  obtain ⟨c, hc, hspace⟩ := visible_iff.mp h
  have hmem : c ∈ slice text a b := by
    refine mem_of_getElem? (i := i - a) ?_
    rw [slice, List.getElem?_drop, List.getElem?_take_of_lt (by omega), Nat.add_sub_cancel' ha, hc]
  intro hall
  rw [all_eq_true.mp hall c hmem] at hspace
  cases hspace

theorem chunk_make_ok {index a b : ℕ} {t : List Char} (hextent : a < b)
    (hvisible : ¬ t.all isSpace) :
    Chunk.make index t a b = .ok ⟨index, t, a, b, hextent, hvisible⟩ := by
  rw [Chunk.make, dif_pos hextent, dif_neg hvisible]

theorem makeChunks_ok {spans : List Span} (index : ℕ)
    (h : ∀ s ∈ spans, s.1 < s.2 ∧ ¬ (slice text s.1 s.2).all isSpace) :
    ∃ chunks, ((spans.zipIdx index).mapM fun s =>
        Chunk.make s.2 (slice text s.1.1 s.1.2) s.1.1 s.1.2) = .ok chunks ∧
      chunks.map (fun c => (c.charStart, c.charEnd)) = spans ∧
      chunks.map Chunk.index = List.range' index chunks.length ∧
      ∀ c ∈ chunks, c.text = slice text c.charStart c.charEnd := by
  -- No span is refused when it reaches over a visible character.
  induction spans generalizing index with
  | nil => exact ⟨[], rfl, rfl, rfl, by simp⟩
  | cons s spans ih =>
    obtain ⟨hextent, hvisible⟩ := h s mem_cons_self
    obtain ⟨chunks, hchunks, hspans, hindex, htext⟩ :=
      ih (index + 1) fun x hx => h x (mem_cons_of_mem _ hx)
    refine ⟨⟨index, _, s.1, s.2, hextent, hvisible⟩ :: chunks, ?_, ?_, ?_, ?_⟩
    · rw [zipIdx_cons, mapM_cons, chunk_make_ok hextent hvisible, hchunks]
      rfl
    · rw [map_cons, hspans]
    · rw [map_cons, hindex, length_cons, List.range'_succ]
    · exact forall_mem_cons.mpr ⟨rfl, htext⟩

theorem splitText_chunks (h : ValidGeometry strategy maxChars overlapChars minChars) :
    ∃ chunks, splitText lower text strategy maxChars overlapChars minChars = .ok chunks ∧
      chunks.map (fun c => (c.charStart, c.charEnd)) =
        extendedSpans lower text strategy maxChars overlapChars minChars ∧
      chunks.map Chunk.index = List.range chunks.length ∧
      ∀ c ∈ chunks, c.text = slice text c.charStart c.charEnd := by
  obtain ⟨htight, -, hwidens⟩ := spans_spec h
  have hspans : ∀ s ∈ extendedSpans lower text strategy maxChars overlapChars minChars,
      s.1 < s.2 ∧ ¬ (slice text s.1 s.2).all isSpace := by
    intro s hs
    obtain ⟨b, hb, hend, hstart⟩ := hwidens.mem hs
    obtain ⟨hlt, -, hvisible, -⟩ := htight b hb
    exact ⟨by omega, slice_visible hstart (by omega) hvisible⟩
  obtain ⟨chunks, hchunks, hmap, hindex, htext⟩ := makeChunks_ok 0 hspans
  refine ⟨chunks, ?_, hmap, by rw [hindex, range_eq_range'], htext⟩
  rw [splitText_eq h]
  exact hchunks

theorem chunks_forall_iff (h : ValidGeometry strategy maxChars overlapChars minChars)
    {chunks : List Chunk} {P : Chunk → Prop} {Q : Span → Prop}
    (hmap : chunks.map (fun c => (c.charStart, c.charEnd)) =
      extendedSpans lower text strategy maxChars overlapChars minChars)
    (hiff : ∀ c ∈ chunks, ∀ b : Span, Tight text b → c.charEnd = b.2 →
      (P c ↔ Q (c.charStart, c.charEnd))) :
    (∀ c ∈ chunks, P c) ↔
      ∀ x ∈ extendedSpans lower text strategy maxChars overlapChars minChars, Q x := by
  obtain ⟨htight, -, hwidens⟩ := @spans_spec text lower _ _ _ _ h
  rw [← hmap, forall_mem_map]
  refine forall₂_congr fun c hc => ?_
  have hmem := mem_map_of_mem (f := fun c => (c.charStart, c.charEnd)) hc
  rw [hmap] at hmem
  obtain ⟨b, hb, hend, -⟩ := hwidens.mem hmem
  exact hiff c hc b (htight b hb) hend

theorem extendedSpans_disjoint (h : ValidGeometry strategy maxChars 0 minChars) :
    (extendedSpans lower text strategy maxChars 0 minChars).Pairwise fun a b => a.2 ≤ b.1 := by
  have hsame : extendedSpans lower text strategy maxChars 0 minChars =
      unextendedSpans lower text strategy maxChars minChars := rfl
  obtain ⟨-, hdisjoint, -⟩ := spans_spec h
  rw [hsame]
  exact hdisjoint

/-- Every text is cut without an error. The chunks are numbered, equal their slices, ascend at both
ends, and reach back at most `overlap_chars`, but not to the start of the chunk before. -/
theorem splitText_well_formed (lower : String → String) (text : List Char)
    (h : ValidGeometry strategy maxChars overlapChars minChars) :
    ∃ chunks, splitText lower text strategy maxChars overlapChars minChars = .ok chunks ∧
      chunks.map Chunk.index = List.range chunks.length ∧
      (∀ c ∈ chunks, c.text = slice text c.charStart c.charEnd ∧ c.charStart < c.charEnd ∧
        c.charEnd ≤ text.length ∧ ¬ c.text.all isSpace) ∧
      chunks.Pairwise (fun a b => a.charStart < b.charStart ∧ a.charEnd < b.charEnd) ∧
      (unextendedSpans lower text strategy maxChars minChars).length = chunks.length ∧
      (∀ (k : ℕ) s c, (unextendedSpans lower text strategy maxChars minChars)[k]? = some s →
        chunks[k]? = some c →
        c.charEnd = s.2 ∧ c.charStart ≤ s.1 ∧ (s.1 : ℤ) ≤ c.charStart + overlapChars) ∧
      (∀ (k : ℕ) s c, (unextendedSpans lower text strategy maxChars minChars)[k]? = some s →
        chunks[k + 1]? = some c → s.1 < c.charStart) ∧
      (overlapChars = 0 → chunks.Pairwise fun a b => a.charEnd ≤ b.charStart) := by
  obtain ⟨chunks, hok, hmap, hindex, htext⟩ := splitText_chunks h
  obtain ⟨htight, hdisjoint, hwidens⟩ := spans_spec h
  have hget : ∀ (k : ℕ) (c : Chunk), chunks[k]? = some c →
      (extendedSpans lower text strategy maxChars overlapChars minChars)[k]? =
        some (c.charStart, c.charEnd) := by
    intro k c hc
    rw [← hmap, List.getElem?_map, hc]
    rfl
  have hascending := hwidens.ascending (fun s hs => (htight s hs).1) hdisjoint
  refine ⟨chunks, hok, hindex, fun c hc => ?_, ?_, ?_, ?_, ?_, ?_⟩
  · have hmem := mem_map_of_mem (f := fun c => (c.charStart, c.charEnd)) hc
    rw [hmap] at hmem
    obtain ⟨s, hs, hend, -⟩ := hwidens.mem hmem
    have hlen := (htight s hs).2.1
    exact ⟨htext c hc, c.extent, by simp only at hend; omega, c.visible⟩
  · rw [← hmap] at hascending
    exact pairwise_map.mp hascending
  · rw [← hwidens.length, ← hmap, length_map]
  · intro k s c hs hc
    obtain ⟨hend, hle, hw⟩ := hwidens.get hs (hget k c hc)
    have hnonneg := h.overlap_nonneg
    exact ⟨hend, hle, by simp only at hw; omega⟩
  · intro k s c hs hc
    exact hwidens.after hs (hget (k + 1) c hc)
  · rintro rfl
    have hpairs := @extendedSpans_disjoint text lower _ _ _ h
    rw [← hmap] at hpairs
    exact pairwise_map.mp hpairs

theorem splitText_nil_iff {chunks : List Chunk} (h : ValidGeometry strategy maxChars overlapChars minChars)
    (hchunks : splitText lower text strategy maxChars overlapChars minChars = .ok chunks) :
    chunks = [] ↔ text.all isSpace = true := by
  obtain ⟨cut, hcut, hspans, _, htext⟩ := @splitText_chunks text lower _ _ _ _ h
  obtain rfl : cut = chunks := Except.ok.inj (hcut.symm.trans hchunks)
  constructor
  · rintro rfl
    cases hbody : tighten text 0 text.length with
    | none =>
      have hblank := tighten_none hbody
      refine all_eq_true.mpr fun c hc => ?_
      obtain ⟨i, hi⟩ := mem_iff_getElem?.mp hc
      by_contra hspace
      have hvisible := visible_iff.mpr ⟨c, hi, Bool.eq_false_iff.mpr hspace⟩
      exact hblank i (Nat.zero_le i) (List.getElem?_eq_some_iff.mp hi).1 hvisible
    | some body =>
      -- The text has a body, whose groups have spans.
      have hmax := h.max_pos
      obtain ⟨regions, hregions, hgroups⟩ := groupsFor_covers hbody strategy maxChars.toNat
      obtain ⟨hspread, -, hwidens⟩ := @groups_widen _ lower maxChars.toNat
        (chunkFloor maxChars minChars).toNat overlapChars.toNat (by omega) _ _ 0 _ _ hregions
        hgroups (Nat.zero_le _)
      have hlength := hwidens.length
      have hnone : extendedSpans lower text strategy maxChars overlapChars minChars = [] :=
        hspans.symm
      unfold extendedSpans at hnone
      rw [hnone] at hlength
      exact absurd (length_eq_zero_iff.mp hlength.symm) hspread.ne_nil
  · intro hall
    refine eq_nil_iff_forall_not_mem.mpr fun chunk hchunk => chunk.visible ?_
    rw [htext chunk hchunk]
    refine all_eq_true.mpr fun c hc => all_eq_true.mp hall c ?_
    exact mem_of_mem_take (mem_of_mem_drop hc)

end

theorem splitText_well_formed_acme : ∃ chunks,
    splitText String.toLower "Acme won. It rose.".toList .paragraph 10 4 none = .ok chunks ∧
      chunks.map Chunk.index = List.range chunks.length :=
  let ⟨chunks, hok, hindex, _⟩ := splitText_well_formed String.toLower "Acme won. It rose.".toList
    (⟨by decide, by decide, by decide, by decide, by simp⟩ : ValidGeometry .paragraph 10 4 none)
  ⟨chunks, hok, hindex⟩

end OmniSense.Retrieval
