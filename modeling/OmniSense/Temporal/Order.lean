import OmniSense.Library.Sorting
import OmniSense.Temporal.Timeline

/-! Arrival order and `merge_assertions`. The sort key leaves out confidence, precision and signal
ids, so assertions that differ only there stay in arrival order; the merge sees that order exactly
when the first of such a group meets a contradiction. -/

namespace OmniSense.Temporal

open Library List

def Claim.sortKey (c : Claim) : Assertion.SortKey :=
  toLex (c.interval.validFrom, toLex (c.interval.validTo.isNone,
    toLex (c.interval.validTo.getD c.interval.validFrom,
      toLex (c.observedAt, toLex (c.source, c.fingerprint)))))

structure Claim.Tied (c d : Claim) : Prop where
  validFrom : c.interval.validFrom = d.interval.validFrom
  validTo : c.interval.validTo = d.interval.validTo
  observedAt : c.observedAt = d.observedAt
  source : c.source = d.source
  fingerprint : c.fingerprint = d.fingerprint

theorem Claim.tied_of_sortKey_eq {c d : Claim} (h : c.sortKey = d.sortKey) : c.Tied d := by
  simp only [sortKey, toLex_inj, Prod.mk.injEq] at h
  obtain ⟨hfrom, hnone, hend, hobs, hsource, hfp⟩ := h
  refine ⟨hfrom, ?_, hobs, hsource, hfp⟩
  cases hc : c.interval.validTo <;> cases hd : d.interval.validTo <;>
    simp only [hc, hd, Option.isNone_none, Option.isNone_some, reduceCtorEq, Bool.false_eq_true,
      Option.getD_some] at hnone hend ⊢
  rw [hend]

namespace Claim.Tied

variable {c d : Claim} (h : c.Tied d) (e : Epoch)
include h

theorem overlaps_iff : e.interval.overlaps c.interval ↔ e.interval.overlaps d.interval := by
  rw [Interval.overlaps_iff, Interval.overlaps_iff, h.validFrom, h.validTo]

theorem agrees_iff : e.Agrees c ↔ e.Agrees d := by
  unfold Epoch.Agrees Interval.meets
  rw [h.overlaps_iff e, h.fingerprint, h.validFrom]

theorem contests_iff : e.Contests c ↔ e.Contests d := by
  unfold Epoch.Contests
  rw [h.overlaps_iff e, h.fingerprint]

theorem of_agrees : (Epoch.of c).Agrees d := by
  refine ⟨h.fingerprint, .inl ((Interval.overlaps_iff _ _).mpr ⟨?_, ?_⟩)⟩
  · intro x hx
    exact h.validFrom.trans_lt (d.interval.to_reasonable x hx).2
  · intro x hx
    exact h.validFrom.ge.trans_lt (c.interval.to_reasonable x hx).2

theorem absorb_agrees (hc : e.Agrees c) : (e.absorb c).Agrees d := by
  refine ⟨hc.1.trans h.fingerprint, .inl ((Interval.overlaps_iff _ _).mpr ⟨?_, ?_⟩)⟩
  · intro x hx
    exact (min_le_right _ _).trans_lt (h.validFrom.trans_lt (d.interval.to_reasonable x hx).2)
  · intro x hx
    change Interval.mergedEnd e.interval.validTo c.interval.validTo = some x at hx
    cases he : e.interval.validTo with
    | none => simp [Interval.mergedEnd, he] at hx
    | some a =>
      cases hce : c.interval.validTo with
      | none => simp [Interval.mergedEnd, he, hce] at hx
      | some b =>
        have hx : max a b = x := by simpa [Interval.mergedEnd, he, hce] using hx
        have := (c.interval.to_reasonable b hce).2
        rw [← h.validFrom, ← hx]
        exact this.trans_le (le_max_right _ _)

theorem absorb_comm : (e.absorb c).absorb d = (e.absorb d).absorb c := by
  have hint : (e.interval.hull c.interval).hull d.interval =
      (e.interval.hull d.interval).hull c.interval := by
    apply Interval.ext
    · simp only [Interval.hull, h.validFrom]
    · simp only [Interval.hull, h.validTo]
    · exact Precision.coarser_right_comm _ _ _
  simp only [Epoch.absorb, hint, h.source, h.observedAt, max_right_comm, Finset.union_right_comm]

theorem of_absorb_comm : (Epoch.of c).absorb d = (Epoch.of d).absorb c := by
  have hint : c.interval.hull d.interval = d.interval.hull c.interval := by
    apply Interval.ext
    · simp only [Interval.hull, h.validFrom]
    · simp only [Interval.hull, h.validTo]
    · exact Precision.coarser_comm _ _
  simp only [Epoch.absorb, Epoch.of, hint, h.source, h.observedAt, h.fingerprint, max_comm,
    Finset.union_comm]

end Claim.Tied

namespace Ledger

def Calm (s : Ledger) (c : Claim) : Prop := ∀ last ∈ s.epochs.head?, ¬last.Contests c

variable {last : Epoch} {c d : Claim} {s : Ledger}

theorem Calm.step_head (hs : s.Calm c) (h : c.Tied d) :
    ∃ e older, s.step c = ⟨e :: older, s.conflicts⟩ ∧ e.Agrees d ∧
      (s.step d).step c = ⟨e.absorb d :: older, s.conflicts⟩ := by
  -- A claim met calmly ends up in the newest epoch, with its ties still calm and absorbed.
  have hd : d.Tied c := ⟨h.1.symm, h.2.symm, h.3.symm, h.4.symm, h.5.symm⟩
  obtain ⟨epochs, conflicts⟩ := s
  cases epochs with
  | nil =>
    refine ⟨.of c, [], rfl, h.of_agrees, ?_⟩
    simp only [step, hd.of_agrees, if_true, hd.of_absorb_comm]
  | cons last older =>
    have hcon : ¬last.Contests c := hs last rfl
    have hcon' : ¬last.Contests d := (h.contests_iff last).not.mp hcon
    by_cases hag : last.Agrees c
    · have hag' : last.Agrees d := (h.agrees_iff last).mp hag
      refine ⟨last.absorb c, older, by simp only [step, hag, if_true], h.absorb_agrees last hag, ?_⟩
      simp only [step, hag', hd.absorb_agrees last hag', if_true, hd.absorb_comm last]
    · have hag' : ¬last.Agrees d := (h.agrees_iff last).not.mp hag
      refine ⟨.of c, last :: older, ?_, h.of_agrees, ?_⟩
      · simp only [step, hag, hcon, not_false_eq_true, if_true, if_false]
      · simp only [step, hag', hcon', hd.of_agrees, not_false_eq_true, if_true, if_false,
          hd.of_absorb_comm]

theorem commutes_step : Commutes Claim.sortKey step Calm where
  tie := by
    intro s x y hkey hs last hlast
    exact ((Claim.tied_of_sortKey_eq hkey).contests_iff last).not.mp (hs last hlast)
  stay := by
    intro s x y hkey hs
    obtain ⟨e, older, hstep, hag, -⟩ := hs.step_head (Claim.tied_of_sortKey_eq hkey)
    rw [hstep]
    intro last hlast hcon
    have hlast : e = last := by simpa using hlast
    exact hcon.1 (hlast ▸ hag.1)
  comm := by
    intro s x y hkey hs
    obtain ⟨e, older, hstep, hag, hother⟩ := hs.step_head (Claim.tied_of_sortKey_eq hkey)
    rw [hother, hstep]
    simp only [step, hag, if_true]

/-! ## A contested tie is recorded -/

theorem step_contested {c : Claim} (hlast : last ∈ s.epochs.head?)
    (hcon : last.Contests c) : (s.step c).conflicts = s.conflicts ++ [conflict last c] := by
  rcases s.step_cases c with ⟨hnil, -⟩ | ⟨last', older, hepochs, hcases⟩
  · simp [hnil] at hlast
  have : last' = last := by simpa [hepochs] using hlast
  subst this
  rcases hcases with ⟨hag, -⟩ | ⟨-, hnot, -⟩ | ⟨hlt, -, h⟩ | ⟨-, -, -, h⟩ | ⟨-, -, -, h⟩
  · exact absurd hag.1 hcon.1
  · exact absurd hcon hnot
  all_goals rw [h]

theorem conflicts_prefix_step (s : Ledger) (c : Claim) : s.conflicts <+: (s.step c).conflicts := by
  rcases s.step_cases c with ⟨-, h⟩ | ⟨_, _, -, h⟩
  · rw [h]
  · rcases h with ⟨-, h⟩ | ⟨-, -, h⟩ | ⟨hlt, -, h⟩ | ⟨-, -, -, h⟩ | ⟨-, -, -, h⟩ <;> rw [h]
    all_goals exact prefix_append _ _

theorem conflicts_prefix_foldl (s : Ledger) (cs : List Claim) :
    s.conflicts <+: (cs.foldl step s).conflicts := by
  induction cs generalizing s with
  | nil => exact prefix_rfl
  | cons c cs ih => exact (s.conflicts_prefix_step c).trans (ih _)

theorem conflict_ne (h : c.Tied d) (hne : c ≠ d)
    (hcon : last.Contests c) : conflict last c ≠ conflict last d := by
  have hlc : last.claim ≠ c := fun he => hcon.1 (congrArg Claim.fingerprint he)
  have hld : last.claim ≠ d := fun he =>
    hcon.1 ((congrArg Claim.fingerprint he).trans h.fingerprint.symm)
  intro heq
  have hearlier := congrArg Conflict.earlier heq
  have hlater := congrArg Conflict.later heq
  by_cases hlt : last.interval.validFrom < c.interval.validFrom
  · have hlt' : last.interval.validFrom < d.interval.validFrom := h.validFrom ▸ hlt
    rw [conflict, if_pos hlt, conflict, if_pos hlt'] at hlater
    exact hne hlater
  · have hlt' : ¬last.interval.validFrom < d.interval.validFrom := h.validFrom ▸ hlt
    rw [conflict, if_neg hlt, conflict, if_neg hlt'] at hearlier hlater
    -- Each record names the epoch on one side and the claim on the other.
    split_ifs at hearlier hlater
    · exact hne hlater
    · exact hld hearlier
    · exact hlc hearlier.symm
    · exact hne hearlier

theorem foldl_conflicts_ne (hlast : last ∈ s.epochs.head?)
    (hcon : last.Contests c) (h : c.Tied d) (hne : c ≠ d) (cs ds : List Claim) :
    ((c :: cs).foldl step s).conflicts ≠ ((d :: ds).foldl step s).conflicts := by
  intro heq
  have hc := (s.step c).conflicts_prefix_foldl cs
  have hd := (s.step d).conflicts_prefix_foldl ds
  rw [foldl_cons, foldl_cons] at heq
  rw [step_contested hlast hcon] at hc
  rw [step_contested hlast ((h.contests_iff last).mp hcon), ← heq] at hd
  have hsame := prefix_of_prefix_length_le hc hd (by simp)
  have := append_cancel_left (hsame.eq_of_length (by simp))
  exact conflict_ne h hne hcon (singleton_inj.mp this)

end Ledger

/-! ## The merge -/

def IntervalSet.view (s : IntervalSet) : List Epoch × List Conflict :=
  (s.intervals.map ResolvedInterval.view, s.contradictions.map Contradiction.view)

theorem mergeAssertions_view (as : List Assertion) :
    (mergeAssertions as).map IntervalSet.view =
      .ok ((ledgerOf as).epochs.reverse.map Epoch.finish, (ledgerOf as).conflicts) := by
  obtain ⟨s, hs, hints, hconf⟩ := mergeAssertions_refines as
  rw [hs, ← hints, ← hconf]
  rfl

/-- Whenever assertions that tie in the sort key differ in confidence, precision or signal ids, the
loop reaches the first of them with no contradiction: the last resolved interval says the same or
does not overlap. -/
def TiesUncontested (as : List Assertion) : Prop :=
  ∀ before x after, sortAssertions as = before ++ x :: after →
    (∀ a ∈ before, a.sortKey ≠ x.sortKey) →
    (∃ y ∈ after, y.sortKey = x.sortKey ∧ y.view ≠ x.view) →
    ∀ w, walk before = .ok w → ∀ last ∈ w.resolved.head?,
      last.fingerprint = x.fingerprint ∨ ¬last.interval.overlaps x.interval

variable {as : List Assertion}

theorem sortAssertions_eq_self
    (h : as.Pairwise fun a b => a.sortKey ≤ b.sortKey) : sortAssertions as = as :=
  List.Pairwise.insertionSort_eq h

theorem sortedBy_view (as : List Assertion) :
    SortedBy Claim.sortKey ((sortAssertions as).map Assertion.view) := by
  unfold SortedBy
  rw [pairwise_map]
  exact sortAssertions_sorted as

theorem TiesUncontested.calm (h : TiesUncontested as) :
    TiesCalm Claim.sortKey Ledger.step Ledger.Calm .start
      ((sortAssertions as).map Assertion.view) := by
  rintro before c after hsplit hkeys ⟨d, hd, hkey, hne⟩
  obtain ⟨before, rest, hsorted, rfl, hrest⟩ := map_eq_append_iff.mp hsplit
  obtain ⟨x, after, rfl, rfl, rfl⟩ := map_eq_cons_iff.mp hrest
  obtain ⟨y, hy, rfl⟩ := mem_map.mp hd
  obtain ⟨w, hw, -, hview⟩ := walk_refines before
  rw [← hview]
  intro last hlast hcon
  obtain ⟨acc, hacc, rfl⟩ : ∃ acc ∈ w.resolved.head?, acc.view = last := by
    simpa [Walk.view] using hlast
  have := h before x after hsorted (fun a ha => hkeys _ (mem_map_of_mem ha))
    ⟨y, hy, hkey, hne⟩ w hw acc hacc
  exact this.elim hcon.1 fun hov => hov hcon.2

theorem exists_perm_of_contested (h : ¬TiesUncontested as) :
    ∃ as', as'.Perm as ∧ (ledgerOf as').conflicts ≠ (ledgerOf as).conflicts := by
  -- A contested tie can be put first by arriving first.
  unfold TiesUncontested at h
  push Not at h
  obtain ⟨before, x, after, hsorted, hkeys, ⟨y, hy, hkey, hne⟩, w, hw, last, hlast, hfp, hov⟩ := h
  obtain ⟨mid, tail, rfl⟩ := append_of_mem hy
  have hperm : (before ++ y :: x :: (mid ++ tail)).Perm as := by
    refine List.Perm.trans ?_ (hsorted ▸ sortAssertions_perm as)
    refine List.Perm.append_left before ?_
    exact (List.Perm.swap x y _).trans (perm_middle.symm.cons x)
  refine ⟨before ++ y :: x :: (mid ++ tail), hperm, ?_⟩
  have hpair := sortAssertions_sorted as
  rw [hsorted] at hpair
  have hself : sortAssertions (before ++ y :: x :: (mid ++ tail)) =
      before ++ y :: x :: (mid ++ tail) := by
    apply sortAssertions_eq_self
    rw [pairwise_append] at hpair ⊢
    obtain ⟨hbefore, hrest, hcross⟩ := hpair
    obtain ⟨hx, hafter⟩ := pairwise_cons.mp hrest
    have hsub : (mid ++ tail).Sublist (mid ++ y :: tail) :=
      (sublist_cons_self y tail).append_left mid
    refine ⟨hbefore, ?_, fun a ha b hb => hcross a ha b ?_⟩
    · refine pairwise_cons.mpr ⟨fun b hb => ?_, pairwise_cons.mpr ⟨?_, ?_⟩⟩
      · rcases mem_cons.mp hb with rfl | hb
        · exact hkey.le
        · exact hkey.le.trans (hx b (hsub.subset hb))
      · exact fun b hb => hx b (hsub.subset hb)
      · exact hafter.sublist hsub
    · simp only [mem_cons, mem_append] at hb ⊢
      tauto
  obtain ⟨w', hw', -, hview⟩ := walk_refines before
  obtain rfl : w = w' := Except.ok.inj (hw.symm.trans hw')
  have hhead : last.view ∈ w.view.epochs.head? := by
    simpa [Walk.view] using ⟨last, hlast, rfl⟩
  have htied : y.view.Tied x.view := Claim.tied_of_sortKey_eq hkey
  have hcon : last.view.Contests y.view :=
    (htied.contests_iff last.view).mpr ⟨hfp, hov⟩
  unfold ledgerOf
  rw [hself, hsorted, map_append, map_append, foldl_append, foldl_append,
    ← hview]
  exact Ledger.foldl_conflicts_ne hhead hcon htied hne _ _

theorem mergeAssertions_order_iff (as : List Assertion) :
    (∀ as', as'.Perm as →
      (mergeAssertions as').map IntervalSet.view = (mergeAssertions as).map IntervalSet.view) ↔
      TiesUncontested as := by
  constructor
  · intro h
    by_contra hties
    obtain ⟨as', hperm, hne⟩ := exists_perm_of_contested hties
    have heq := h as' hperm
    rw [mergeAssertions_view, mergeAssertions_view, Except.ok.injEq, Prod.mk.injEq] at heq
    exact hne heq.2
  · intro hties as' hperm
    have hviews : ((sortAssertions as).map Assertion.view).Perm
        ((sortAssertions as').map Assertion.view) :=
      (((sortAssertions_perm as).trans hperm.symm).trans (sortAssertions_perm as').symm).map _
    have hledger : ledgerOf as = ledgerOf as' :=
      Ledger.commutes_step.foldl_sorted hviews (sortedBy_view as) (sortedBy_view as') hties.calm
    rw [mergeAssertions_view, mergeAssertions_view, hledger]

/-! Two reports of one role change that differ in confidence only. -/

def ctoReport : Assertion where
  source := "sec"
  interval := ⟨0, some 100, .exact, by decide, by decide⟩
  observedAt := 0
  confidence := 1
  properties := ⟨[⟨"role", ⟨"'cto'"⟩⟩], nodupKeys_singleton _⟩
  signalIds := []
  source_ne := by decide
  observed_reasonable := by decide
  confidence_range := by decide

def ceoReport (confidence : ℚ) (h : 0 ≤ confidence ∧ confidence ≤ 1) : Assertion where
  source := "news"
  interval := ⟨50, some 150, .exact, by decide, by decide⟩
  observedAt := 60
  confidence := confidence
  properties := ⟨[⟨"role", ⟨"'ceo'"⟩⟩], nodupKeys_singleton _⟩
  signalIds := []
  source_ne := by decide
  observed_reasonable := by decide
  confidence_range := h

def weakReport : Assertion := ceoReport (1 / 2) (by decide +kernel)
def strongReport : Assertion := ceoReport (9 / 10) (by decide +kernel)

/-- The recorded contradiction names whichever report arrived first. -/
theorem swapped_reports_differ :
    [ctoReport, strongReport, weakReport].Perm [ctoReport, weakReport, strongReport] ∧
      (mergeAssertions [ctoReport, strongReport, weakReport]).map IntervalSet.view ≠
        (mergeAssertions [ctoReport, weakReport, strongReport]).map IntervalSet.view := by
  refine ⟨(List.Perm.swap ..).cons _, fun h => ?_⟩
  have hlater := congrArg (fun r : Except ValidityError (List Epoch × List Conflict) =>
    r.toOption.map fun v => v.2.map fun k => k.later.confidence) h
  revert hlater
  decide +kernel

end OmniSense.Temporal
