import OmniSense.Retrieval.Geometry
import Mathlib.Data.List.Chain

/-! Which characters the chunks keep. The sentence spans leave out the closers behind a sentence, so
they are lost where a chunk ends there and the overlap of the next one does not reach them. -/

namespace OmniSense.Retrieval
open Library List

variable {text : List Char} {lower : String → String}

/-- The overlap of `next` reaches a closer right behind `closed`. -/
def Reaches (lower : String → String) (text : List Char) (w : ℕ) (closed next : Span) : Prop :=
  holdsAt isCloser text closed.2 = true → overlapStart lower text w closed next ≤ closed.2

theorem Reaches.congr {w : ℕ} {closed a b : Span} (h : Reaches lower text w closed a)
    (heq : a.1 = b.1) : Reaches lower text w closed b := by
  unfold Reaches overlapStart at *
  rw [← heq]
  exact h

/-- Wherever a chunk is closed, since the unit `next` does not fit and opens no runt, the overlap
reaches the closers behind it. -/
def ClosersKept (lower : String → String) (text : List Char) (maxChars w floor : ℕ)
    (units : List Span) : Prop :=
  ∀ filled next rest, units = filled ++ next :: rest →
    ∀ current ∈ (pack filled maxChars).getLast?, maxChars < next.2 - current.1 →
    ∀ opened ∈ (pack (next :: rest) maxChars).head?, floor ≤ opened.2 - opened.1 →
    ∀ closed ∈ (mergeRunts (pack filled maxChars) floor).getLast?,
      Reaches lower text w closed next

/-! ## Where chunks are closed -/

theorem packed_append {maxChars : ℕ} {filled rest : List Span} {next current : Span}
    (hcurrent : current ∈ (pack filled maxChars).getLast?) (hfull : maxChars < next.2 - current.1) :
    pack (filled ++ next :: rest) maxChars =
      pack filled maxChars ++ pack (next :: rest) maxChars := by
  cases filled with
  | nil => cases hcurrent
  | cons u us => exact coalesce_append hcurrent (decide_eq_false (by omega))

theorem runts_append {floor : ℕ} {spans rest : List Span} {opened closed : Span}
    (hclosed : closed ∈ (mergeRunts spans floor).getLast?) (hlong : floor ≤ opened.2 - opened.1) :
    mergeRunts (spans ++ opened :: rest) floor =
      mergeRunts spans floor ++ mergeRunts (opened :: rest) floor := by
  cases spans with
  | nil => cases hclosed
  | cons s spans => exact coalesce_append hclosed (decide_eq_false (by omega))

theorem isChain_packed_iff {maxChars floor w : ℕ} (units : List Span) :
    (mergeRunts (pack units maxChars) floor).IsChain (Reaches lower text w) ↔
      ClosersKept lower text maxChars w floor units := by
  constructor
  · intro hchain filled next rest heq current hcurrent hfull opened hopened hlong closed hclosed
    obtain ⟨packs, hpacks⟩ := List.head?_eq_some_iff.mp hopened
    obtain ⟨first, merged, hmerged, hfirst⟩ := coalesce_eq_cons opened packs
    obtain ⟨first', merged', hpack, hfirst'⟩ := coalesce_eq_cons next rest
    have hstart : first.1 = next.1 := by
      obtain ⟨rfl, -⟩ := List.cons.inj (hpacks.symm.trans hpack)
      exact hfirst.trans hfirst'
    obtain ⟨before, hbefore⟩ := List.getLast?_eq_some_iff.mp hclosed
    have hrunts : mergeRunts (opened :: packs) floor = first :: merged := hmerged
    rw [heq, packed_append hcurrent hfull, hpacks, runts_append hclosed hlong, hbefore, hrunts,
      append_assoc, singleton_append, isChain_append_cons_cons] at hchain
    exact hchain.2.1.congr hstart
  · intro hkept
    rw [isChain_iff_forall_rel_of_append_cons_cons]
    intro closed b left right heq
    cases units with
    | nil => cases left <;> cases heq
    | cons u us =>
      obtain ⟨p, ps, hpack, -⟩ := coalesce_eq_cons u us
      have hmerge : coalesce (fun _ s => decide (s.2 - s.1 < floor)) p ps =
          (left ++ [closed]) ++ b :: right := by
        have hpack' : pack (u :: us) maxChars = p :: ps := hpack
        rw [hpack'] at heq
        rw [append_assoc]
        exact heq
      obtain ⟨part, q, rs, rfl, hleft, hright, -, -, hlong⟩ :=
        coalesce_eq_append hmerge (by simp) (by simp)
      obtain ⟨us, v, vs, rfl, hfilled, hopened, current, hcurrent, hfull⟩ :=
        @coalesce_eq_append _ _ _ (p :: part) _ hpack (by simp) (by simp)
      obtain ⟨first, merged, hb, hfirst⟩ := coalesce_eq_cons q rs
      obtain ⟨first', merged', hq, hfirst'⟩ := coalesce_eq_cons v vs
      have hstart : v.1 = b.1 := by
        obtain ⟨rfl, -⟩ := List.cons.inj (hright.symm.trans hb)
        obtain ⟨rfl, -⟩ := List.cons.inj (hopened.symm.trans hq)
        rw [hfirst, hfirst']
      refine Reaches.congr (hkept (u :: us) v vs rfl current ?_ ?_ q ?_ ?_ closed ?_) hstart
      · exact (congrArg List.getLast? hfilled).trans hcurrent
      · have := of_decide_eq_false hfull
        omega
      · exact congrArg List.head? hopened
      · have := of_decide_eq_false hlong
        omega
      · have hpacked : pack (u :: us) maxChars = p :: part := hfilled
        have hruns : mergeRunts (p :: part) floor = left ++ [closed] := hleft
        rw [hpacked, hruns]
        simp

/-! ## What the chunks of a group keep -/

def Covered (spans : List Span) (i : ℕ) : Prop := ∃ s ∈ spans, s.1 ≤ i ∧ i < s.2

theorem overlapFrom_covers {w lo hi : ℕ} {previous : Span} {rest : List Span}
    (h : Spread (CloserGap text) lo (previous :: rest) hi) :
    (∀ i, previous.2 ≤ i → i < hi → Visible text i →
        Covered (overlapFrom lower text w previous rest) i) ↔
      (previous :: rest).IsChain (Reaches lower text w) := by
  induction rest generalizing previous lo with
  | nil =>
    cases h with
    | one => simp; omega
    | cons _ _ _ hrest => exact absurd rfl hrest.ne_nil
  | cons s rest ih =>
    cases h with
    | @cons _ e m _ _ hlt hle hgap hrest =>
      obtain ⟨hs, hs'⟩ := hrest.head rfl
      have hwidens := @widens_overlapFrom text lower _ w _ _ _ _ hrest
      obtain ⟨h₁, h₂, -⟩ := @overlapStart_spec text lower w (lo, e) s (by simp only; omega)
      rw [isChain_cons_cons, ← ih hrest, overlapFrom]
      constructor
      · intro hcovered
        refine ⟨fun hcloser => ?_, fun i hi hi' hvisible => ?_⟩
        · have hlt' := hrest.lt
          obtain ⟨x, hx, hxe, -⟩ := hcovered e le_rfl (by omega)
            (visible_of closer_not_space hcloser)
          rcases mem_cons.mp hx with rfl | hx
          · exact hxe
          · have := hwidens.floor_le x hx
            omega
        · obtain ⟨x, hx, hxi, hxi'⟩ := hcovered i (by simp only; omega) hi' hvisible
          rcases mem_cons.mp hx with rfl | hx
          · simp only at hxi'
            omega
          · exact ⟨x, hx, hxi, hxi'⟩
      · rintro ⟨hreach, hcovered⟩ i hi hi' hvisible
        simp only at hi
        by_cases hin : i < s.2
        · refine ⟨_, mem_cons_self, ?_, hin⟩
          by_cases hgap' : m ≤ i
          · exact h₂.trans (hs ▸ hgap')
          · rcases hgap with hcloser | hblank
            · exact (hreach hcloser).trans hi
            · exact absurd hvisible (hblank i hi (by omega))
        · obtain ⟨x, hx, hxi⟩ := hcovered i (by omega) hi' hvisible
          exact ⟨x, mem_cons_of_mem _ hx, hxi⟩

theorem group_covers_iff {maxChars w floor : ℕ} (hmax : 0 < maxChars) {region : Span}
    {group : List Span} (h : Covers text region group) :
    (∀ i, region.1 ≤ i → i < region.2 → Visible text i →
        Covered (groupSpans lower text maxChars w floor group) i) ↔
      ClosersKept lower text maxChars w floor (unitSpans lower text group maxChars) := by
  obtain ⟨hspread, -⟩ := packedSpans_spread hmax h.1 h.2
  rw [groupSpans_eq, ← isChain_packed_iff]
  have hpacked : packedSpans lower text maxChars floor group =
    mergeRunts (pack (unitSpans lower text group maxChars) maxChars) floor := rfl
  rw [← hpacked]
  cases hspans : packedSpans lower text maxChars floor group with
  | nil => exact absurd hspans hspread.ne_nil
  | cons first rest =>
    rw [hspans] at hspread
    obtain ⟨hfirst, hlt⟩ := hspread.head rfl
    rw [← overlapFrom_covers hspread]
    constructor
    · intro hcovered i hi hi' hvisible
      obtain ⟨x, hx, hxi, hxi'⟩ := hcovered i (by omega) hi' hvisible
      rcases mem_cons.mp hx with rfl | hx
      · omega
      · exact ⟨x, hx, hxi, hxi'⟩
    · intro hcovered i hi hi' hvisible
      by_cases hin : i < first.2
      · exact ⟨first, mem_cons_self, by omega, hin⟩
      · obtain ⟨x, hx, hxi⟩ := hcovered i (by omega) hi' hvisible
        exact ⟨x, mem_cons_of_mem _ hx, hxi⟩

theorem groups_cover_iff {maxChars w floor : ℕ} (hmax : 0 < maxChars) {lo hi : ℕ}
    {regions : List Span} {groups : List (List Span)}
    (hregions : Spread (Blank text) lo regions hi) (h : List.Forall₂ (Covers text) regions groups) :
    (∀ i, lo ≤ i → i < hi → Visible text i →
        Covered (groups.flatMap (groupSpans lower text maxChars w floor)) i) ↔
      ∀ group ∈ groups,
        ClosersKept lower text maxChars w floor (unitSpans lower text group maxChars) := by
  induction hregions generalizing groups with
  | one hlt =>
    obtain ⟨group, rest, hgroup, hrest, rfl⟩ := List.forall₂_cons_left_iff.mp h
    obtain rfl := List.forall₂_nil_left_iff.mp hrest
    simpa using group_covers_iff hmax hgroup
  | @cons lo e m hi regions hlt hle hgap hregions ih =>
    obtain ⟨group, rest, hgroup, hrest, rfl⟩ := List.forall₂_cons_left_iff.mp h
    have hleft : ∀ x ∈ groupSpans lower text maxChars w floor group, x.2 ≤ e := by
      intro x hx
      obtain ⟨hspread, -⟩ := packedSpans_spread hmax hgroup.1
        hgroup.2
      rw [groupSpans_eq] at hx
      obtain ⟨s, hs, hend, -⟩ := (widens_applyOverlap hspread le_rfl).mem hx
      exact hend ▸ (hspread.within s hs).2.2
    have hright : ∀ x ∈ rest.flatMap (groupSpans lower text maxChars w floor), m ≤ x.1 :=
      (groups_widen hmax hregions hrest le_rfl).2.2.floor_le
    have hregion := hregions.lt
    rw [forall_mem_cons, ← group_covers_iff hmax hgroup, ← ih hrest, flatMap_cons]
    constructor
    · intro hcovered
      refine ⟨fun i hi hi' hvisible => ?_, fun i hi hi' hvisible => ?_⟩
      · simp only at hi hi'
        obtain ⟨x, hx, hxi, hxi'⟩ := hcovered i hi (by omega) hvisible
        rcases mem_append.mp hx with hx | hx
        · exact ⟨x, hx, hxi, hxi'⟩
        · have := hright x hx
          omega
      · obtain ⟨x, hx, hxi, hxi'⟩ := hcovered i (by omega) hi' hvisible
        rcases mem_append.mp hx with hx | hx
        · have := hleft x hx
          omega
        · exact ⟨x, hx, hxi, hxi'⟩
    · rintro ⟨hgroupCovered, hrestCovered⟩ i hi hi' hvisible
      by_cases hin : i < e
      · obtain ⟨x, hx, hxi⟩ := hgroupCovered i hi hin hvisible
        exact ⟨x, mem_append_left _ hx, hxi⟩
      · have hm := hgap.le hvisible (by omega)
        obtain ⟨x, hx, hxi⟩ := hrestCovered i hm hi' hvisible
        exact ⟨x, mem_append_right _ hx, hxi⟩

/-- The chunks keep every character that is not whitespace just when, wherever a chunk is closed
right before a closer, the overlap of the next one reaches that closer. -/
theorem splitText_covers_iff (lower : String → String) (text : List Char)
    {strategy : ChunkStrategy} {maxChars overlapChars : ℤ} {minChars : Option ℤ}
    (h : ValidGeometry strategy maxChars overlapChars minChars) :
    ∃ chunks, splitText lower text strategy maxChars overlapChars minChars = .ok chunks ∧
      ((∀ (i : ℕ) ch, text[i]? = some ch → isSpace ch = false →
          ∃ c ∈ chunks, c.charStart ≤ i ∧ i < c.charEnd) ↔
        ∀ group ∈ groupsFor text strategy maxChars.toNat,
          ClosersKept lower text maxChars.toNat overlapChars.toNat
            (chunkFloor maxChars minChars).toNat (unitSpans lower text group maxChars.toNat)) := by
  obtain ⟨chunks, hok, hmap, -, -⟩ := @splitText_chunks text lower _ _ _ _ h
  have hmax := h.max_pos
  have hcovered : (∀ (i : ℕ) ch, text[i]? = some ch → isSpace ch = false →
      ∃ c ∈ chunks, c.charStart ≤ i ∧ i < c.charEnd) ↔ ∀ i, Visible text i →
        Covered (extendedSpans lower text strategy maxChars overlapChars minChars) i := by
    have hspans : ∀ i, (∃ c ∈ chunks, c.charStart ≤ i ∧ i < c.charEnd) ↔
        Covered (extendedSpans lower text strategy maxChars overlapChars minChars) i := by
      simp [Covered, ← hmap]
    simp only [hspans, visible_iff]
    constructor
    · rintro hall i ⟨ch, hch, hspace⟩
      exact hall i ch hch hspace
    · intro hall i ch hch hspace
      exact hall i ⟨ch, hch, hspace⟩
  refine ⟨chunks, hok, hcovered.trans ?_⟩
  cases hbody : tighten text 0 text.length with
  | none =>
    have hblank := tighten_none hbody
    have hnone : ∀ i, ¬ Visible text i := by
      intro i hvisible
      obtain ⟨ch, hch, -⟩ := visible_iff.mp hvisible
      exact hblank i (Nat.zero_le i) (List.getElem?_eq_some_iff.mp hch).1 hvisible
    simp [hnone, groupsFor_none hbody]
  | some body =>
    obtain ⟨regions, hregions, hgroups⟩ := groupsFor_covers hbody strategy maxChars.toNat
    obtain ⟨-, -, -, hblank, hblank'⟩ := tighten_some le_rfl hbody
    rw [← groups_cover_iff (by omega) hregions hgroups]
    constructor
    · exact fun hall i _ _ hvisible => hall i hvisible
    · intro hall i hvisible
      obtain ⟨ch, hch, -⟩ := visible_iff.mp hvisible
      have hlen := (List.getElem?_eq_some_iff.mp hch).1
      refine hall i ?_ ?_ hvisible
      · exact hblank.le hvisible (Nat.zero_le i)
      · by_contra hout
        exact hblank' i (by omega) hlen hvisible

theorem splitText_covers_acme : ∃ chunks,
    splitText String.toLower "Acme won. It rose.".toList .paragraph 10 4 none = .ok chunks ∧
      ((∀ (i : ℕ) ch, "Acme won. It rose.".toList[i]? = some ch → isSpace ch = false →
          ∃ c ∈ chunks, c.charStart ≤ i ∧ i < c.charEnd) ↔
        ∀ group ∈ groupsFor "Acme won. It rose.".toList .paragraph 10,
          ClosersKept String.toLower "Acme won. It rose.".toList 10 4 2
            (unitSpans String.toLower "Acme won. It rose.".toList group 10)) :=
  splitText_covers_iff String.toLower "Acme won. It rose.".toList
    ⟨by decide, by decide, by decide, by decide, by simp⟩

/-- The bracket behind the first sentence is in neither chunk. -/
theorem closing_bracket_lost : ValidGeometry .paragraph 12 0 none ∧ ∃ chunks,
    splitText String.toLower "(Acme won.) It rose.".toList .paragraph 12 0 none = .ok chunks ∧
      ¬ ∀ (i : ℕ) ch, "(Acme won.) It rose.".toList[i]? = some ch → isSpace ch = false →
        ∃ c ∈ chunks, c.charStart ≤ i ∧ i < c.charEnd := by
  refine ⟨⟨by decide, by decide, by decide, by decide, by simp⟩,
    [⟨0, "(Acme won.".toList, 0, 10, by decide, by decide⟩,
      ⟨1, "It rose.".toList, 12, 20, by decide, by decide⟩], by decide +kernel, ?_⟩
  intro hall
  have hbracket := hall 10 ')' (by decide) (by decide)
  revert hbracket
  decide

end OmniSense.Retrieval
