import OmniSense.Retrieval.Geometry
import OmniSense.Library.Effect
import Mathlib.Data.List.Chain

/-! How long the chunks are. Units and packs keep to the geometry; a runt is folded into the chunk
before it with the whitespace between, however much that is and however many runts follow. -/

namespace OmniSense.Retrieval
open Library List

variable {text : List Char} {lower : String → String}

abbrev Run := Span × List Span

@[grind =] def splitRunts (floor : ℕ) : List Span → List Span × List Run
  | [] => ([], [])
  | s :: rest =>
    let split := splitRunts floor rest
    if s.2 - s.1 < floor then (s :: split.1, split.2) else ([], (s, split.1) :: split.2)

def runsOf (floor : ℕ) : List Span → List Run
  | [] => []
  | first :: rest => (first, (splitRunts floor rest).1) :: (splitRunts floor rest).2

/-- What runts bring to a chunk that ends at `stop`, the whitespace before each of them included. -/
@[grind =] def brought : ℕ → List Span → ℕ
  | _, [] => 0
  | stop, s :: rest => (s.1 - stop) + (s.2 - s.1) + brought s.2 rest

/-- The runts bring at most the floor and what the span leaves of twice the target and the overlap,
of which it uses `used`, of its width. -/
def Room (maxChars w floor used : ℕ) (run : Run) : Prop :=
  brought run.1.2 run.2 ≤ floor + (2 * maxChars - (run.1.2 - run.1.1)) + (w - used)

def overlapUsed (lower : String → String) (text : List Char) (w : ℕ) (previous s : Span) : ℕ :=
  s.1 - overlapStart lower text w previous s

def RuntsFit (lower : String → String) (text : List Char) (maxChars w floor : ℕ) :
    List Run → Prop
  | [] => True
  | first :: rest =>
    Room maxChars w floor 0 first ∧
      (first :: rest).IsChain fun previous run =>
        Room maxChars w floor (overlapUsed lower text w previous.1 run.1) run

/-! ## Units and packs -/

theorem tighten_length {a b : ℕ} {s : Span} (h : tighten text a b = some s) : s.2 - s.1 ≤ b - a := by
  unfold tighten at h
  have hstart := le_runEnd isSpace text a b
  have hstop := (@trimEnd_spec _ isSpace text (runEnd isSpace text a b) b).1
  dsimp only at h
  split_ifs at h
  cases h
  omega

theorem hardCutFrom_length {maxChars hi : ℕ} (hmax : 0 < maxChars) (fuel cursor : ℕ)
    (hfuel : hi - cursor ≤ fuel) :
    ∀ s ∈ hardCutFrom text maxChars hi fuel cursor, s.2 - s.1 ≤ maxChars := by
  induction fuel generalizing cursor with
  | zero =>
    intro s hs
    have := tighten_length (Option.mem_toList.mp hs)
    omega
  | succ fuel ih =>
    obtain ⟨hlt, hle⟩ := @cutPoint_spec text maxChars hmax cursor
    intro s hs
    unfold hardCutFrom at hs
    split_ifs at hs with hlong
    · rcases mem_append.mp hs with hs | hs
      · have := tighten_length (Option.mem_toList.mp hs)
        omega
      · exact ih _ (by omega) s hs
    · have := tighten_length (Option.mem_toList.mp hs)
      omega

variable {maxChars : ℕ}

theorem unitSpans_length (hmax : 0 < maxChars) (group : List Span) :
    ∀ s ∈ unitSpans lower text group maxChars, s.2 - s.1 ≤ 2 * maxChars := by
  intro s hs
  obtain ⟨block, -, hs⟩ := mem_flatMap.mp hs
  unfold blockUnits at hs
  split_ifs at hs with hshort
  · obtain rfl := mem_singleton.mp hs
    omega
  · obtain ⟨sentence, -, hs⟩ := mem_flatMap.mp hs
    unfold sentenceUnits at hs
    split_ifs at hs with hwhole
    · obtain rfl := mem_singleton.mp hs
      exact hwhole
    · have := hardCutFrom_length hmax _ _ le_rfl s hs
      omega

theorem mem_pack {units : List Span} {s : Span} (hs : s ∈ pack units maxChars) :
    s ∈ units ∨ s.2 - s.1 ≤ maxChars := by
  cases units with
  | nil => cases hs
  | cons current rest =>
    change s ∈ coalesce _ current rest at hs
    -- A span that was extended was measured then.
    induction rest generalizing current with
    | nil => exact .inl (by simpa using hs)
    | cons next rest ih =>
      unfold coalesce at hs
      split_ifs at hs with hfits
      · rcases ih (current.1, next.2) hs with hmem | hshort
        · rcases mem_cons.mp hmem with rfl | hmem
          · exact .inr (of_decide_eq_true hfits)
          · exact .inl (mem_cons_of_mem _ (mem_cons_of_mem _ hmem))
        · exact .inr hshort
      · rcases mem_cons.mp hs with rfl | hs
        · exact .inl mem_cons_self
        · exact (ih next hs).imp (mem_cons_of_mem _) id

theorem pack_length (hmax : 0 < maxChars) (group : List Span) :
    ∀ s ∈ pack (unitSpans lower text group maxChars) maxChars, s.2 - s.1 ≤ 2 * maxChars := by
  intro s hs
  rcases mem_pack hs with hunit | hshort
  · exact unitSpans_length hmax group s hunit
  · omega

/-! ## Runs of runts -/

def Run.span (run : Run) : Span := (run.1.1, run.1.2 + brought run.1.2 run.2)

theorem coalesce_runts {G : ℕ → ℕ → Prop} {floor lo hi : ℕ} {current : Span} {rest : List Span}
    (h : Spread G lo (current :: rest) hi) :
    coalesce (fun _ next => decide (next.2 - next.1 < floor)) current rest =
      Run.span (current, (splitRunts floor rest).1) :: (splitRunts floor rest).2.map Run.span := by
  induction rest generalizing lo current with
  | nil => rfl
  | cons next rest ih =>
    cases h with
    | @cons _ e m _ _ hlt hle hgap hrest =>
      obtain ⟨hnext, hlt'⟩ := hrest.head rfl
      rw [splitRunts]
      by_cases hrunt : next.2 - next.1 < floor
      · have hjoined : Spread G lo ((lo, next.2) :: rest) hi := by
          cases hrest with
          | one => exact .one (by omega)
          | cons _ hle' hgap' hrest' => exact .cons (by simp only; omega) hle' hgap' hrest'
        rw [if_pos hrunt, coalesce_join (decide_eq_true hrunt), ih hjoined]
        refine congrArg (· :: _) (Prod.ext rfl ?_)
        -- The next span ends where its gap and its length say.
        change next.2 + brought next.2 _ = e + ((next.1 - e) + (next.2 - next.1) + brought next.2 _)
        dsimp only
        omega
      · rw [if_neg hrunt, coalesce_close (decide_eq_false hrunt), ih hrest]
        rfl

theorem mergeRunts_eq {G : ℕ → ℕ → Prop} {floor lo hi : ℕ} {spans : List Span}
    (h : Spread G lo spans hi) : mergeRunts spans floor = (runsOf floor spans).map Run.span := by
  cases spans with
  | nil => rfl
  | cons first rest => exact coalesce_runts h

theorem splitRunts_openers (floor : ℕ) (spans : List Span) :
    ∀ run ∈ (splitRunts floor spans).2, run.1 ∈ spans := by
  induction spans with
  | nil => exact fun _ hrun => absurd hrun not_mem_nil
  | cons s rest ih =>
    intro run hrun
    rw [splitRunts] at hrun
    split_ifs at hrun
    · exact mem_cons_of_mem _ (ih run hrun)
    · rcases mem_cons.mp hrun with rfl | hrun
      · exact mem_cons_self
      · exact mem_cons_of_mem _ (ih run hrun)

theorem runsOf_openers (floor : ℕ) (spans : List Span) :
    ∀ run ∈ runsOf floor spans, run.1 ∈ spans := by
  cases spans with
  | nil => exact fun _ hrun => absurd hrun not_mem_nil
  | cons first rest =>
    intro run hrun
    rcases mem_cons.mp hrun with rfl | hrun
    · exact mem_cons_self
    · exact mem_cons_of_mem _ (splitRunts_openers floor rest run hrun)

/-! ## The chunks of a group -/

section

variable {maxChars w floor : ℕ}

theorem room_iff {used : ℕ} {run : Run} (hused : used ≤ w)
    (hlength : run.1.2 - run.1.1 ≤ 2 * maxChars) :
    Room maxChars w floor used run ↔
      used + (run.1.2 - run.1.1) + brought run.1.2 run.2 ≤ 2 * maxChars + floor + w := by
  unfold Room
  omega

theorem overlapFrom_length_iff {lo hi : ℕ} {G : ℕ → ℕ → Prop} {previous : Run} {rest : List Run}
    (hspread : Spread G lo ((previous :: rest).map Run.span) hi)
    (hrest : ∀ run ∈ rest, run.1.1 < run.1.2 ∧ run.1.2 - run.1.1 ≤ 2 * maxChars) :
    (∀ x ∈ overlapFrom lower text w previous.span (rest.map Run.span),
        x.2 - x.1 ≤ 2 * maxChars + floor + w) ↔
      (previous :: rest).IsChain fun previous run =>
        Room maxChars w floor (overlapUsed lower text w previous.1 run.1) run := by
  induction rest generalizing previous lo with
  | nil => exact iff_of_true (fun _ hx => absurd hx not_mem_nil) (.singleton _)
  | cons run rest ih =>
    obtain ⟨⟨hlt, hlength⟩, hrest⟩ := forall_mem_cons.mp hrest
    rw [map_cons, map_cons] at hspread
    cases hspread with
    | @cons _ e m _ _ hlt' hle _ hspread' =>
      obtain ⟨hstart, -⟩ := hspread'.head rfl
      have hbefore : previous.1.1 < run.span.1 := by
        rw [hstart]
        omega
      obtain ⟨-, hle', hw⟩ := @overlapStart_spec text lower w previous.span _ hbefore
      have hsame : overlapStart lower text w previous.span run.span =
          overlapStart lower text w previous.1 run.1 := rfl
      have hfirst : run.span.1 = run.1.1 := rfl
      have hstop : run.span.2 = run.1.2 + brought run.1.2 run.2 := rfl
      rw [hsame, hfirst] at hle' hw
      have hused : overlapUsed lower text w previous.1 run.1 ≤ w := Nat.sub_le_iff_le_add'.mpr hw
      rw [map_cons, overlapFrom, forall_mem_cons, isChain_cons_cons,
        ih hspread' hrest, room_iff hused hlength, hsame, hstop]
      refine and_congr_left' ?_
      unfold overlapUsed
      omega

theorem group_length_iff (hmax : 0 < maxChars) {region : Span} {group : List Span}
    (h : Covers text region group) :
    (∀ x ∈ groupSpans lower text maxChars w floor group, x.2 - x.1 ≤ 2 * maxChars + floor + w) ↔
      RuntsFit lower text maxChars w floor
        (runsOf floor (pack (unitSpans lower text group maxChars) maxChars)) := by
  obtain ⟨hunits, htight⟩ := @unitSpans_spread text lower _ _ _ hmax _ h.1 h.2
  obtain ⟨hpacked, htight⟩ := @pack_spread text maxChars _ _ _ _ hunits htight
  have hmerged := (@mergeRunts_spread text floor _ _ _ _ hpacked htight).1
  have hruns : ∀ run ∈ runsOf floor (pack (unitSpans lower text group maxChars) maxChars),
      run.1.1 < run.1.2 ∧ run.1.2 - run.1.1 ≤ 2 * maxChars := by
    intro run hrun
    have hmem := runsOf_openers floor _ run hrun
    exact ⟨(hpacked.within _ hmem).2.1, pack_length hmax group _ hmem⟩
  rw [mergeRunts_eq hpacked] at hmerged
  rw [groupSpans_eq, packedSpans, mergeRunts_eq hpacked]
  generalize runsOf floor (pack (unitSpans lower text group maxChars) maxChars) = runs at *
  cases runs with
  | nil => exact absurd rfl hmerged.ne_nil
  | cons first rest =>
    obtain ⟨hfirst, hrest⟩ := forall_mem_cons.mp hruns
    have hlengths := @overlapFrom_length_iff text lower maxChars w floor _ _ _ _ _ hmerged hrest
    have hstop : first.span.2 = first.1.2 + brought first.1.2 first.2 := rfl
    have hstart : first.span.1 = first.1.1 := rfl
    rw [map_cons, applyOverlap, forall_mem_cons, RuntsFit, hlengths,
      room_iff (Nat.zero_le w) hfirst.2, hstop, hstart]
    refine and_congr_left' ?_
    omega

end

/-- The chunks keep to the bound just when the runts folded into each of them, with the whitespace
before them, bring at most `min_chars` and what the chunk leaves of the rest. -/
theorem splitText_length_iff (lower : String → String) (text : List Char)
    {strategy : ChunkStrategy} {maxChars overlapChars : ℤ} {minChars : Option ℤ}
    (h : ValidGeometry strategy maxChars overlapChars minChars) :
    ∃ chunks, splitText lower text strategy maxChars overlapChars minChars = .ok chunks ∧
      ((∀ c ∈ chunks,
          (c.text.length : ℤ) ≤ 2 * maxChars + chunkFloor maxChars minChars + overlapChars) ↔
        ∀ group ∈ groupsFor text strategy maxChars.toNat,
          RuntsFit lower text maxChars.toNat overlapChars.toNat
            (chunkFloor maxChars minChars).toNat
            (runsOf (chunkFloor maxChars minChars).toNat
              (pack (unitSpans lower text group maxChars.toNat) maxChars.toNat))) := by
  obtain ⟨chunks, hok, hmap, -, htext⟩ := @splitText_chunks text lower _ _ _ _ h
  have hmax := h.max_pos
  have hoverlap := h.overlap_nonneg
  have hfloor := h.floor_nonneg
  refine ⟨chunks, hok, ?_⟩
  have hlength : (∀ c ∈ chunks,
      (c.text.length : ℤ) ≤ 2 * maxChars + chunkFloor maxChars minChars + overlapChars) ↔
      ∀ x ∈ extendedSpans lower text strategy maxChars overlapChars minChars,
        x.2 - x.1 ≤
          2 * maxChars.toNat + (chunkFloor maxChars minChars).toNat + overlapChars.toNat := by
    refine chunks_forall_iff h hmap fun c hc b hb hend => ?_
    have hbound := hb.2.1
    rw [htext c hc, slice, length_drop, length_take]
    simp only at hend ⊢
    omega
  rw [hlength, extendedSpans, forall_mem_flatMap]
  cases hbody : tighten text 0 text.length with
  | none =>
    rw [groupsFor_none hbody]
    exact iff_of_true (fun _ hgroup => absurd hgroup not_mem_nil)
      fun _ hgroup => absurd hgroup not_mem_nil
  | some body =>
    obtain ⟨regions, -, hgroups⟩ := groupsFor_covers hbody strategy maxChars.toNat
    refine forall₂_congr fun group hgroup => ?_
    obtain ⟨region, -, hcovers⟩ := forall₂_mem_right hgroups group hgroup
    exact group_length_iff (by omega) hcovers

theorem splitText_length_acme : ∃ chunks,
    splitText String.toLower "Acme won. It rose.".toList .paragraph 10 4 none = .ok chunks ∧
      ((∀ c ∈ chunks, (c.text.length : ℤ) ≤ 2 * 10 + 2 + 4) ↔
        ∀ group ∈ groupsFor "Acme won. It rose.".toList .paragraph 10,
          RuntsFit String.toLower "Acme won. It rose.".toList 10 4 2
            (runsOf 2 (pack (unitSpans String.toLower "Acme won. It rose.".toList group 10) 10))) :=
  splitText_length_iff String.toLower "Acme won. It rose.".toList
    ⟨by decide, by decide, by decide, by decide, by simp⟩

/-- A runt is folded in over six newlines. -/
theorem far_runt_folded : ValidGeometry .paragraph 2 0 (some 2) ∧ ∃ chunks,
    splitText String.toLower "a\n\n\n\n\n\nb".toList .paragraph 2 0 (some 2) = .ok chunks ∧
      ¬ ∀ c ∈ chunks, (c.text.length : ℤ) ≤ 2 * 2 + chunkFloor 2 (some 2) + 0 := by
  refine ⟨⟨by decide, by decide, by decide, by decide, by decide⟩,
    [⟨0, "a\n\n\n\n\n\nb".toList, 0, 8, by decide, by decide⟩], by decide, ?_⟩
  intro hall
  have hbound := hall _ mem_cons_self
  revert hbound
  decide

end OmniSense.Retrieval
