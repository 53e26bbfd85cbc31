import Mathlib.Data.Finset.Lattice.Basic
import Mathlib.Data.Finset.Sort
import OmniSense.Temporal.Merge

/-! The history of one edge as an abstract ledger: claims are folded into epochs with total
operations, signal ids are sets and properties only their fingerprint. `mergeStep` refines
`Ledger.step`, so what holds of ledgers holds of `merge_assertions`. -/

namespace OmniSense.Temporal

open Library List

structure Claim where
  source : String
  interval : Interval
  observedAt : ℤ
  confidence : ℚ
  fingerprint : Fingerprint
  signals : Finset String
  deriving DecidableEq

def Assertion.view (a : Assertion) : Claim where
  source := a.source
  interval := a.interval
  observedAt := a.observedAt
  confidence := a.confidence
  fingerprint := a.fingerprint
  signals := a.signalIds.toFinset

@[ext]
structure Epoch where
  interval : Interval
  fingerprint : Fingerprint
  sources : List String
  signals : Finset String
  confidence : ℚ
  observedFirst : ℤ
  observedLast : ℤ
  supersededBy : Option String

def Accumulator.view (acc : Accumulator) : Epoch where
  interval := acc.interval
  fingerprint := acc.fingerprint
  sources := acc.sources
  signals := acc.signalIds.toFinset
  confidence := acc.confidence
  observedFirst := acc.observedFirst
  observedLast := acc.observedLast
  supersededBy := acc.supersededBy

structure Conflict where
  kind : ContradictionKind
  earlier : Claim
  later : Claim
  resolution : Resolution
  at_ : Option ℤ
  discardedTail : Option ℤ

def Contradiction.view (c : Contradiction) : Conflict :=
  ⟨c.kind, c.earlier.view, c.later.view, c.resolution, c.at_, c.discardedTail⟩

namespace Epoch

def of (c : Claim) : Epoch :=
  ⟨c.interval, c.fingerprint, [c.source], c.signals, c.confidence, c.observedAt, c.observedAt, none⟩

def absorb (e : Epoch) (c : Claim) : Epoch :=
  { e with
    interval := e.interval.hull c.interval
    sources := if c.source ∈ e.sources then e.sources else e.sources ++ [c.source]
    signals := e.signals ∪ c.signals
    confidence := max e.confidence c.confidence
    observedFirst := min e.observedFirst c.observedAt
    observedLast := max e.observedLast c.observedAt }

def cut (e : Epoch) (c : Claim) (h : e.interval.validFrom < c.interval.validFrom) : Epoch :=
  { e with
    interval := e.interval.truncate c.interval.validFrom c.interval.from_reasonable h
    supersededBy := some c.source }

def claim (e : Epoch) : Claim :=
  ⟨e.sources.headD "", e.interval, e.observedFirst, e.confidence, e.fingerprint, e.signals⟩

def Agrees (e : Epoch) (c : Claim) : Prop :=
  e.fingerprint = c.fingerprint ∧ (e.interval.overlaps c.interval ∨ e.interval.meets c.interval)

def Contests (e : Epoch) (c : Claim) : Prop :=
  e.fingerprint ≠ c.fingerprint ∧ e.interval.overlaps c.interval

instance (e : Epoch) (c : Claim) : Decidable (e.Agrees c) := inferInstanceAs (Decidable (_ ∧ _))
instance (e : Epoch) (c : Claim) : Decidable (e.Contests c) := inferInstanceAs (Decidable (_ ∧ _))

end Epoch

def Claim.Outranks (right left : Claim) : Prop :=
  (toLex (right.confidence, toLex (right.observedAt, left.source)) : RankKey) >
    toLex (left.confidence, toLex (left.observedAt, right.source))

instance (right left : Claim) : Decidable (right.Outranks left) :=
  inferInstanceAs (Decidable ((_ : RankKey) > _))

structure Ledger where
  epochs : List Epoch
  conflicts : List Conflict

namespace Ledger

def start : Ledger := ⟨[], []⟩

def conflict (last : Epoch) (c : Claim) : Conflict :=
  if last.interval.validFrom < c.interval.validFrom then
    ⟨.overlap, last.claim, c, .closedEarlier, some c.interval.validFrom,
      if last.interval.validTo = none ∨ ∃ d ∈ last.interval.validTo, ∃ e ∈ c.interval.validTo, d > e
        then last.interval.validTo else none⟩
  else if c.Outranks last.claim then
    ⟨.simultaneous, last.claim, c, .keptHigherConfidence, some c.interval.validFrom, none⟩
  else ⟨.simultaneous, c, last.claim, .keptHigherConfidence, some c.interval.validFrom, none⟩

def step (s : Ledger) (c : Claim) : Ledger :=
  match s.epochs with
  | [] => { s with epochs := [.of c] }
  | last :: older =>
    if last.Agrees c then { s with epochs := last.absorb c :: older }
    else if ¬last.Contests c then { s with epochs := .of c :: last :: older }
    else
      { conflicts := s.conflicts ++ [conflict last c]
        epochs :=
          if h : last.interval.validFrom < c.interval.validFrom then .of c :: last.cut c h :: older
          else if c.Outranks last.claim then .of c :: older
          else last :: older }

end Ledger

def Walk.view (s : Walk) : Ledger := ⟨s.resolved.map Accumulator.view, s.conflicts.map Contradiction.view⟩

/-! ## Refinement -/

structure Accumulator.Sound (acc : Accumulator) : Prop where
  fingerprint_eq : acc.fingerprint = acc.properties.fingerprint
  source_ne : ∃ source others, acc.sources = source :: others ∧ source ≠ ""
  first_reasonable : Reasonable acc.observedFirst
  confidence_range : 0 ≤ acc.confidence ∧ acc.confidence ≤ 1

def Walk.Sound (s : Walk) : Prop := ∀ acc ∈ s.resolved, acc.Sound

theorem Accumulator.of_sound (a : Assertion) : (Accumulator.of a).Sound :=
  ⟨rfl, ⟨a.source, [], rfl, a.source_ne⟩, a.observed_reasonable, a.confidence_range⟩

theorem appendNew_toFinset (seen xs : List String) :
    (appendNew seen xs).toFinset = seen.toFinset ∪ xs.toFinset := by
  ext y
  rw [Finset.mem_union, mem_toFinset, mem_toFinset, mem_toFinset, mem_appendNew]

variable {acc : Accumulator}

theorem Accumulator.absorb_refines (h : acc.Sound) (a : Assertion) :
    ∃ acc', acc.absorb a = .ok acc' ∧ acc'.Sound ∧ acc'.view = acc.view.absorb a.view := by
  have hmake : Interval.make (min acc.interval.validFrom a.interval.validFrom)
      (Interval.mergedEnd acc.interval.validTo a.interval.validTo)
      (acc.interval.precision.coarser a.interval.precision) =
        .ok (acc.interval.hull a.interval) := Interval.make_eq_ok (acc.interval.hull a.interval)
  obtain ⟨source, others, hs, hne⟩ := h.source_ne
  refine ⟨acc.absorbOver a (acc.interval.hull a.interval), by rw [absorb, hmake]; rfl,
    ⟨h.fingerprint_eq, ?_, ?_, ?_⟩, ?_⟩
  · change ∃ s o, appendNew acc.sources [a.source] = s :: o ∧ s ≠ ""
    rw [appendNew_singleton, hs]
    split_ifs
    · exact ⟨source, others, rfl, hne⟩
    · exact ⟨source, others ++ [a.source], rfl, hne⟩
  · exact h.first_reasonable.min a.observed_reasonable
  · exact ⟨h.confidence_range.1.trans (le_max_left _ _),
      max_le h.confidence_range.2 a.confidence_range.2⟩
  · simp only [Accumulator.view, absorbOver, Epoch.absorb, Assertion.view, appendNew_toFinset,
      appendNew_singleton]
    rfl

theorem Accumulator.asAssertion_refines (h : acc.Sound) :
    ∃ a, acc.asAssertion = .ok a ∧ a.view = acc.view.claim := by
  obtain ⟨source, others, hs, hne⟩ := h.source_ne
  refine ⟨⟨source, acc.interval, acc.observedFirst, acc.confidence, acc.properties,
    acc.signalIds.eraseDups, hne, h.first_reasonable, h.confidence_range⟩, ?_, ?_⟩
  · simp only [asAssertion, hs, Assertion.make, hne, dite_false, h.first_reasonable,
      h.confidence_range, and_self, dite_true]
  · have hset : acc.signalIds.eraseDups.toFinset = acc.signalIds.toFinset := by
      ext x
      simp only [mem_toFinset, mem_eraseDups]
    simp only [Assertion.view, Epoch.claim, Accumulator.view, hs, headD_cons, hset,
      Assertion.fingerprint, h.fingerprint_eq]

theorem Accumulator.truncateAt_refines (h : acc.Sound) (a : Assertion)
    (hlt : acc.interval.validFrom < a.interval.validFrom) (hov : acc.interval.overlaps a.interval) :
    ∃ acc', acc.truncateAt a.interval.validFrom a.source = .ok acc' ∧ acc'.Sound ∧
      acc'.view = acc.view.cut a.view hlt := by
  have hto := ((Interval.overlaps_iff _ _).mp hov).2
  have hclose := Interval.close_eq_truncate a.interval.from_reasonable hlt
    fun e he => (hto e he).le
  exact ⟨{ acc with
      interval := acc.interval.truncate _ a.interval.from_reasonable hlt
      supersededBy := some a.source }, by rw [truncateAt, hclose]; rfl,
    ⟨h.fingerprint_eq, h.source_ne, h.first_reasonable, h.confidence_range⟩, rfl⟩

theorem mergeStep_refines {s : Walk} (hs : s.Sound) (a : Assertion) :
    ∃ s', mergeStep s a = .ok s' ∧ s'.Sound ∧ s'.view = s.view.step a.view := by
  -- One iteration of the loop never raises and is one step of the ledger.
  obtain ⟨resolved, conflicts⟩ := s
  cases resolved with
  | nil => exact ⟨_, rfl, by simpa [Walk.Sound] using Accumulator.of_sound a, rfl⟩
  | cons last older =>
    have hlast : last.Sound := hs last (mem_cons_self ..)
    have holder : ∀ acc ∈ older, acc.Sound := fun acc h => hs acc (mem_cons_of_mem _ h)
    have hof := Accumulator.of_sound a
    have hstep : (Walk.view ⟨last :: older, conflicts⟩).step a.view =
        Ledger.step ⟨last.view :: older.map Accumulator.view, conflicts.map Contradiction.view⟩ a.view := rfl
    by_cases hfp : last.fingerprint = a.fingerprint
    · by_cases htouch : last.interval.overlaps a.interval ∨ last.interval.meets a.interval
      · obtain ⟨acc', hok, hsound, hview⟩ := last.absorb_refines hlast a
        have hagree : last.view.Agrees a.view := ⟨hfp, htouch⟩
        refine ⟨⟨acc' :: older, conflicts⟩, ?_, ?_, ?_⟩
        · simp only [mergeStep, hfp, htouch, if_true, hok]
          rfl
        · exact forall_mem_cons.mpr ⟨hsound, holder⟩
        · rw [hstep, Ledger.step]
          simp only [hagree, if_true, ← hview]
          rfl
      · have hagree : ¬last.view.Agrees a.view := fun h => htouch h.2
        have hcon : ¬last.view.Contests a.view := fun h => h.1 hfp
        refine ⟨⟨.of a :: last :: older, conflicts⟩, ?_, ?_, ?_⟩
        · simp only [mergeStep, hfp, htouch, if_true, if_false]
        · exact forall_mem_cons.mpr ⟨hof, hs⟩
        · rw [hstep, Ledger.step]
          simp only [hagree, hcon, not_false_eq_true, if_true, if_false]
          rfl
    · have hagree : ¬last.view.Agrees a.view := fun h => hfp h.1
      by_cases hov : last.interval.overlaps a.interval
      · have hcon : last.view.Contests a.view := ⟨hfp, hov⟩
        obtain ⟨left, hleft, hlview⟩ := last.asAssertion_refines hlast
        by_cases hlt : last.interval.validFrom < a.interval.validFrom
        · obtain ⟨acc', hok, hsound, hview⟩ := last.truncateAt_refines hlast a hlt hov
          have hltv : last.view.interval.validFrom < a.view.interval.validFrom := hlt
          refine ⟨⟨.of a :: acc' :: older, conflicts ++ [overlapContradiction last left a]⟩,
            ?_, ?_, ?_⟩
          · simp only [mergeStep, hfp, hov, not_true_eq_false, if_false, gt_iff_lt, hlt, if_true,
              hleft, hok]
            rfl
          · exact forall_mem_cons.mpr ⟨hof, forall_mem_cons.mpr ⟨hsound, holder⟩⟩
          · rw [hstep, Ledger.step]
            simp only [hagree, hcon, not_true_eq_false, if_false, hltv, dite_true,
              Ledger.conflict, if_true, ← hview, ← hlview, Walk.view, map_cons,
              map_append, map_nil, Contradiction.view]
            rfl
        · have hltv : ¬last.view.interval.validFrom < a.view.interval.validFrom := hlt
          have hrank : outranks a left ↔ a.view.Outranks last.view.claim := by
            rw [← hlview]
            rfl
          have hconf : (simultaneousContradiction left a).view =
              Ledger.conflict last.view a.view := by
            by_cases hr : outranks a left
            · simp only [simultaneousContradiction, rankSimultaneous, Contradiction.view, hr, if_true,
                Ledger.conflict, hltv, if_false, ← hlview]
              rw [if_pos (show a.view.Outranks left.view from hr)]
              rfl
            · simp only [simultaneousContradiction, rankSimultaneous, Contradiction.view, hr,
                if_false, Ledger.conflict, hltv, ← hlview]
              rw [if_neg (show ¬a.view.Outranks left.view from hr)]
              rfl
          refine ⟨⟨if outranks a left then .of a :: older else last :: older,
            conflicts ++ [simultaneousContradiction left a]⟩, ?_, ?_, ?_⟩
          · simp only [mergeStep, hfp, hov, not_true_eq_false, if_false, gt_iff_lt, hlt, hleft]
            rfl
          · split_ifs
            · exact forall_mem_cons.mpr ⟨hof, holder⟩
            · exact hs
          · rw [hstep, Ledger.step]
            simp only [hagree, hcon, not_true_eq_false, if_false, hltv, dite_false, ← hconf,
              ← hrank, Walk.view, map_append, map_cons, map_nil]
            split_ifs <;> rfl
      · have hcon : ¬last.view.Contests a.view := fun h => hov h.2
        refine ⟨⟨.of a :: last :: older, conflicts⟩, ?_, ?_, ?_⟩
        · simp only [mergeStep, hfp, hov, not_false_eq_true, if_true, if_false]
        · exact forall_mem_cons.mpr ⟨hof, hs⟩
        · rw [hstep, Ledger.step]
          simp only [hagree, hcon, not_false_eq_true, if_true, if_false]
          rfl

theorem foldlM_refines (as : List Assertion) {s : Walk} (hs : s.Sound) :
    ∃ s', as.foldlM mergeStep s = .ok s' ∧ s'.Sound ∧
      s'.view = (as.map Assertion.view).foldl .step s.view := by
  induction as generalizing s with
  | nil => exact ⟨s, rfl, hs, rfl⟩
  | cons a as ih =>
    obtain ⟨s₁, h₁, hs₁, hv₁⟩ := mergeStep_refines hs a
    obtain ⟨s₂, h₂, hs₂, hv₂⟩ := ih hs₁
    refine ⟨s₂, ?_, hs₂, ?_⟩
    · rw [foldlM_cons, h₁]
      exact h₂
    · rw [hv₂, hv₁, map_cons, foldl_cons]

theorem walk_refines (as : List Assertion) :
    ∃ s, walk as = .ok s ∧ s.Sound ∧ s.view = (as.map Assertion.view).foldl .step .start :=
  foldlM_refines as (s := .start) (by simp [Walk.Sound, Walk.start])

end OmniSense.Temporal
