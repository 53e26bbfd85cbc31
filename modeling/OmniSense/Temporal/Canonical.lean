import Mathlib.Data.List.Chain
import OmniSense.Temporal.Order

/-! When a merged history is canonical: no interval goes on as the one before it ended. -/

namespace OmniSense.Temporal

open List

/-! ## Who holds an instant -/

namespace Ledger

/-- The claim takes the place of the newest epoch: `resolved[-1] = _Accumulator.of(assertion)`. -/
def Displaces (s : Ledger) (c : Claim) : Prop :=
  ∃ last ∈ s.epochs.head?, ¬last.interval.validFrom < c.interval.validFrom ∧ last.Contests c ∧
    c.Outranks last.claim

def Keeps (s : Ledger) (c : Claim) : Prop :=
  ∃ last ∈ s.epochs.head?, last.Agrees c ∨
    (¬last.interval.validFrom < c.interval.validFrom ∧ last.Contests c ∧ ¬c.Outranks last.claim)

def Displaced : Ledger → List Claim → Prop
  | _, [] => False
  | s, c :: cs => s.Displaces c ∨ s.Keeps c ∧ Displaced (s.step c) cs

end Ledger

def Epoch.Seam (newer older : Epoch) : Prop :=
  older.fingerprint = newer.fingerprint ∧ older.interval.meets newer.interval

namespace Ledger

def Canonical (s : Ledger) : Prop := s.epochs.IsChain fun newer older => ¬newer.Seam older

def HeadSeam (s : Ledger) : Prop :=
  ∃ last ∈ s.epochs.head?, ∃ prev ∈ s.epochs.tail.head?, last.Seam prev

def Behind (s : Ledger) : Prop := s.epochs.tail.IsChain fun newer older => ¬newer.Seam older

/-- Every claim that puts back the properties of the interval ending where it starts is displaced
itself. -/
def Settles : Ledger → List Claim → Prop
  | _, [] => True
  | s, c :: cs =>
    (s.Displaces c → (s.step c).HeadSeam → (s.step c).Displaced cs) ∧ Settles (s.step c) cs

variable {s : Ledger} {c : Claim} {cs : List Claim}

theorem canonical_iff_behind : s.Canonical ↔ s.Behind ∧ ¬s.HeadSeam := by
  unfold Canonical Behind HeadSeam
  match s.epochs with
  | [] => simp
  | [last] => simp
  | last :: prev :: older => simp [isChain_cons_cons, and_comm]

theorem step_tenure (s : Ledger) (c : Claim) :
    (s.Keeps c ∧ ¬s.Displaces c ∧ ∃ last older last', s.epochs = last :: older ∧
      (s.step c).epochs = last' :: older ∧
      ((¬last.Agrees c ∧ last' = last) ∨ (last.Agrees c ∧ last' = last.absorb c))) ∨
    (¬s.Keeps c ∧ s.Displaces c ∧ ∃ last older, s.epochs = last :: older ∧
      (s.step c).epochs = .of c :: older ∧ ¬last.interval.validFrom < c.interval.validFrom ∧
      last.fingerprint ≠ c.fingerprint) ∨
    (¬s.Keeps c ∧ ¬s.Displaces c ∧
      ((s.epochs = [] ∧ (s.step c).epochs = [.of c]) ∨
      (∃ last older, s.epochs = last :: older ∧ ¬last.Agrees c ∧ ¬last.Contests c ∧
        (s.step c).epochs = .of c :: last :: older) ∨
      ∃ last older, ∃ h : last.interval.validFrom < c.interval.validFrom,
        s.epochs = last :: older ∧ last.Contests c ∧
        (s.step c).epochs = .of c :: last.cut c h :: older)) := by
  have hnot : ∀ {last older}, s.epochs = last :: older →
      (s.Keeps c ↔ last.Agrees c ∨ (¬last.interval.validFrom < c.interval.validFrom ∧
        last.Contests c ∧ ¬c.Outranks last.claim)) ∧
      (s.Displaces c ↔ ¬last.interval.validFrom < c.interval.validFrom ∧ last.Contests c ∧
        c.Outranks last.claim) := by
    intro last older hepochs
    unfold Keeps Displaces
    rw [hepochs, List.head?_cons]
    simp only [Option.mem_some_iff, exists_eq_left', and_self]
  rcases s.step_cases c with ⟨hnil, hstep⟩ | ⟨last, older, hepochs, hcases⟩
  · have hempty : ¬s.Keeps c ∧ ¬s.Displaces c := by
      unfold Keeps Displaces
      rw [hnil]
      simp
    exact .inr (.inr ⟨hempty.1, hempty.2, .inl ⟨hnil, by rw [hstep]⟩⟩)
  obtain ⟨hkeeps, hdisplaces⟩ := hnot hepochs
  rcases hcases with ⟨hag, h⟩ | ⟨hag, hcon, h⟩ | ⟨hlt, hcon, h⟩ | ⟨hlt, hcon, hr, h⟩ |
    ⟨hlt, hcon, hr, h⟩
  · refine .inl ⟨hkeeps.mpr (.inl hag), fun hd => (hdisplaces.mp hd).2.1.1 hag.1, last, older, _,
      hepochs, congrArg Ledger.epochs h, .inr ⟨hag, rfl⟩⟩
  · refine .inr (.inr ⟨fun hk => ?_, fun hd => hcon (hdisplaces.mp hd).2.1,
      .inr (.inl ⟨last, older, hepochs, hag, hcon, congrArg Ledger.epochs h⟩)⟩)
    exact (hkeeps.mp hk).elim hag fun hlost => hcon hlost.2.1
  · refine .inr (.inr ⟨fun hk => ?_, fun hd => (hdisplaces.mp hd).1 hlt,
      .inr (.inr ⟨last, older, hlt, hepochs, hcon, congrArg Ledger.epochs h⟩)⟩)
    exact (hkeeps.mp hk).elim (fun hag => hcon.1 hag.1) fun hlost => hlost.1 hlt
  · refine .inr (.inl ⟨fun hk => ?_, hdisplaces.mpr ⟨hlt, hcon, hr⟩, last, older, hepochs,
      congrArg Ledger.epochs h, hlt, hcon.1⟩)
    exact (hkeeps.mp hk).elim (fun hag => hcon.1 hag.1) fun hlost => hlost.2.2 hr
  · have hdisagrees : ¬last.Agrees c := fun hag => hcon.1 hag.1
    exact .inl ⟨hkeeps.mpr (.inr ⟨hlt, hcon, hr⟩), fun hd => hr (hdisplaces.mp hd).2.2, last, older,
      last, hepochs, congrArg Ledger.epochs h, .inl ⟨hdisagrees, rfl⟩⟩

theorem Keeps.not_displaces (h : s.Keeps c) : ¬s.Displaces c := by
  rcases s.step_tenure c with ⟨_, hd, _⟩ | ⟨hk, _⟩ | ⟨_, hd, _⟩
  · exact hd
  · exact absurd h hk
  · exact hd

/-! ## Seams -/

theorem headSeam_cons {last : Epoch} {older : List Epoch} (h : s.epochs = last :: older) :
    s.HeadSeam ↔ ∃ prev ∈ older.head?, last.Seam prev := by
  unfold HeadSeam
  rw [h]
  simp

theorem seam_congr {last last' : Epoch} (hfp : last'.fingerprint = last.fingerprint)
    (hfrom : last'.interval.validFrom = last.interval.validFrom) (prev : Epoch) :
    last'.Seam prev ↔ last.Seam prev := by
  unfold Epoch.Seam Interval.meets
  rw [hfp, hfrom]

theorem absorb_validFrom {last : Epoch} (h : last.interval.validFrom ≤ c.interval.validFrom) :
    (last.absorb c).interval.validFrom = last.interval.validFrom := min_eq_left h

theorem Keeps.seams (hkeeps : s.Keeps c) (hs : s.StartsBy c.interval.validFrom) :
    ((s.step c).HeadSeam ↔ s.HeadSeam) ∧ ((s.step c).Behind ↔ s.Behind) := by
  rcases s.step_tenure c with ⟨_, _, last, older, last', hepochs, hstep, hlast⟩ |
    ⟨hk, _⟩ | ⟨hk, _⟩
  · have hsame : ∀ prev, last'.Seam prev ↔ last.Seam prev := by
      rcases hlast with ⟨_, rfl⟩ | ⟨_, rfl⟩
      · exact fun _ => Iff.rfl
      · exact seam_congr rfl (absorb_validFrom (hs last (by rw [hepochs]; rfl)))
    refine ⟨?_, ?_⟩
    · rw [headSeam_cons hstep, headSeam_cons hepochs]
      simp only [hsame]
    · unfold Behind
      rw [hstep, hepochs, tail_cons, tail_cons]
  · exact absurd hkeeps hk
  · exact absurd hkeeps hk

theorem Displaces.behind (hdisplaces : s.Displaces c) : (s.step c).Behind ↔ s.Behind := by
  rcases s.step_tenure c with ⟨_, hd, _⟩ | ⟨_, _, last, older, hepochs, hstep, _⟩ | ⟨_, hd, _⟩
  · exact absurd hdisplaces hd
  · unfold Behind
    rw [hstep, hepochs, tail_cons, tail_cons]
  · exact absurd hdisplaces hd

theorem opens_seams (hkeeps : ¬s.Keeps c) (hdisplaces : ¬s.Displaces c) :
    ¬(s.step c).HeadSeam ∧ ((s.step c).Behind ↔ s.Canonical) := by
  rcases s.step_tenure c with ⟨hk, _⟩ | ⟨_, hd, _⟩ | ⟨_, _, hopens⟩
  · exact absurd hk hkeeps
  · exact absurd hd hdisplaces
  rcases hopens with ⟨hnil, hstep⟩ | ⟨last, older, hepochs, hag, _, hstep⟩ |
    ⟨last, older, hlt, hepochs, hcon, hstep⟩
  · unfold Behind Canonical
    rw [headSeam_cons hstep, hstep, hnil]
    simp
  · unfold Behind Canonical
    rw [headSeam_cons hstep, hstep, hepochs]
    refine ⟨?_, Iff.rfl⟩
    rintro ⟨prev, hprev, hfp, hmeets⟩
    cases hprev
    exact hag ⟨hfp, .inr hmeets⟩
  · have hcut : ∀ prev, (last.cut c hlt).Seam prev ↔ last.Seam prev := seam_congr rfl rfl
    unfold Behind Canonical
    rw [headSeam_cons hstep, hstep, hepochs]
    refine ⟨?_, ?_⟩
    · rintro ⟨prev, hprev, hfp, _⟩
      cases hprev
      exact hcon.1 hfp
    · rw [tail_cons]
      cases older with
      | nil => simp
      | cons prev older => rw [isChain_cons_cons, isChain_cons_cons, hcut]

structure Fed (s : Ledger) (cs : List Claim) : Prop where
  tiled : s.Tiled
  sorted : cs.Pairwise fun a b => a.interval.validFrom ≤ b.interval.validFrom
  starts : ∀ c ∈ cs, s.StartsBy c.interval.validFrom

theorem Fed.head (h : s.Fed (c :: cs)) : s.StartsBy c.interval.validFrom :=
  h.starts c (mem_cons_self ..)

theorem Fed.next (h : s.Fed (c :: cs)) : (s.step c).Fed cs := by
  obtain ⟨hc, hcs⟩ := pairwise_cons.mp h.sorted
  obtain ⟨htiled, hstarts⟩ := h.tiled.step h.head
  exact ⟨htiled, hcs, fun d hd e he => (hstarts e he).trans (hc d hd)⟩

theorem Fed.start (as : List Assertion) : start.Fed ((sortAssertions as).map Assertion.view) := by
  refine ⟨List.Pairwise.nil, ?_, fun c _ e he => by cases he⟩
  rw [pairwise_map]
  exact (sortAssertions_sorted as).imp Assertion.validFrom_le_of_sortKey_le

theorem Fed.behind (h : s.Fed cs) (hcanonical : (cs.foldl step s).Canonical) : s.Behind := by
  induction cs generalizing s with
  | nil => exact (canonical_iff_behind.mp hcanonical).1
  | cons c cs ih =>
    have hbehind := ih h.next hcanonical
    by_cases hkeeps : s.Keeps c
    · exact (hkeeps.seams h.head).2.mp hbehind
    by_cases hdisplaces : s.Displaces c
    · exact hdisplaces.behind.mp hbehind
    · exact (canonical_iff_behind.mp ((opens_seams hkeeps hdisplaces).2.mp hbehind)).1

theorem Fed.canonical_foldl_iff (h : s.Fed cs) (hbehind : s.Behind) :
    (cs.foldl step s).Canonical ↔ (s.HeadSeam → s.Displaced cs) ∧ s.Settles cs := by
  induction cs generalizing s with
  | nil =>
    rw [foldl_nil, canonical_iff_behind]
    unfold Displaced Settles
    simp [hbehind]
  | cons c cs ih =>
    rw [foldl_cons]
    unfold Displaced Settles
    by_cases hkeeps : s.Keeps c
    · obtain ⟨hseam, hback⟩ := hkeeps.seams h.head
      have hno : ¬s.Displaces c := hkeeps.not_displaces
      rw [ih h.next (hback.mpr hbehind), hseam]
      simp [hkeeps, hno]
    by_cases hdisplaces : s.Displaces c
    · rw [ih h.next (hdisplaces.behind.mpr hbehind)]
      simp [hdisplaces]
    · obtain ⟨hseam, hback⟩ := opens_seams hkeeps hdisplaces
      by_cases hhead : s.HeadSeam
      · have hnot : ¬(cs.foldl step (s.step c)).Canonical := fun hcanonical =>
          (canonical_iff_behind.mp (hback.mp (h.next.behind hcanonical))).2 hhead
        simp [hnot, hhead, hkeeps, hdisplaces]
      · rw [ih h.next (hback.mpr (canonical_iff_behind.mpr ⟨hbehind, hhead⟩))]
        simp [hseam, hhead, hdisplaces]

end Ledger

/-! ## The merge -/

def ResolvedInterval.Touches (r r' : ResolvedInterval) : Prop :=
  r.properties.fingerprint = r'.properties.fingerprint ∧ r.interval.validTo = some r'.interval.validFrom

structure Restates (a : Assertion) (r : ResolvedInterval) : Prop where
  interval : a.interval = r.interval
  properties : a.fingerprint = r.properties.fingerprint
  confidence : a.confidence = r.confidence
  signalIds : a.signalIds = r.signalIds

def Assertion.Clear (a b : Assertion) : Prop :=
  ¬a.interval.overlaps b.interval ∧ ¬(a.fingerprint = b.fingerprint ∧ a.interval.meets b.interval)

theorem mergeStep_clear {a b : Assertion} (h : a.Clear b) (older : List Accumulator) :
    mergeStep ⟨.of a :: older, []⟩ b = .ok ⟨.of b :: .of a :: older, []⟩ := by
  have hoverlaps : ¬(Accumulator.of a).interval.overlaps b.interval := h.1
  unfold mergeStep
  dsimp only
  by_cases hfp : (Accumulator.of a).fingerprint = b.fingerprint
  · have hmeets : ¬(Accumulator.of a).interval.meets b.interval := fun hmeets => h.2 ⟨hfp, hmeets⟩
    rw [if_pos hfp, if_neg (not_or.mpr ⟨hoverlaps, hmeets⟩)]
  · rw [if_neg hfp, if_pos hoverlaps]

variable {as : List Assertion}

theorem walk_clear (h : as.IsChain Assertion.Clear) : walk as = .ok ⟨(as.map .of).reverse, []⟩ := by
  induction as using List.reverseRecOn with
  | nil => rfl
  | append_singleton init b ih =>
    unfold walk at ih ⊢
    rw [foldlM_append, ih h.left_of_append]
    rcases init.eq_nil_or_concat with rfl | ⟨front, a, rfl⟩
    · rfl
    · have hclear : a.Clear b := by
        refine (isChain_append.mp h).2.2 a ?_ b rfl
        rw [concat_eq_append, List.getLast?_append, List.getLast?_singleton]
        rfl
      rw [concat_eq_append, map_append, reverse_append, map_append,
        reverse_append, map_append, reverse_append]
      exact congrArg (· >>= pure) (mergeStep_clear hclear _)

/-- Whether `merge_assertions` settles every start on a claim that differs from what ended there. -/
def SettlesStarts (as : List Assertion) : Prop :=
  Ledger.start.Settles ((sortAssertions as).map Assertion.view)

theorem Interval.Precedes.not_overlaps {i j : Interval} (h : i.Precedes j) : ¬i.overlaps j := by
  obtain ⟨e, he, hle⟩ := h
  rw [Interval.overlaps_iff]
  exact fun hoverlaps => not_lt.mpr hle (hoverlaps.2 e he)

abbrev Span := Interval × Fingerprint × ℚ × List String

instance : DecidableEq Span :=
  inferInstanceAs (DecidableEq (Interval × Fingerprint × ℚ × List String))

def ResolvedInterval.span (r : ResolvedInterval) : Span :=
  (r.interval, r.properties.fingerprint, r.confidence, r.signalIds)

def Assertion.span (a : Assertion) : Span :=
  (a.interval, a.fingerprint, a.confidence, a.signalIds)

theorem restates_iff_spans {is : List ResolvedInterval} :
    List.Forall₂ Restates as is ↔ as.map Assertion.span = is.map ResolvedInterval.span := by
  rw [← List.forall₂_eq_eq_eq, List.forall₂_map_left_iff, List.forall₂_map_right_iff]
  have hspan : ∀ a r, Restates a r ↔ a.span = r.span := by
    intro a r
    unfold Assertion.span ResolvedInterval.span
    simp only [Prod.mk.injEq]
    exact ⟨fun h => ⟨h.interval, h.properties, h.confidence, h.signalIds⟩,
      fun h => ⟨h.1, h.2.1, h.2.2.1, h.2.2.2⟩⟩
  exact ⟨List.Forall₂.imp fun a r => (hspan a r).mp, List.Forall₂.imp fun a r => (hspan a r).mpr⟩

theorem mergeAssertions_restated {is : List ResolvedInterval}
    (hrestates : List.Forall₂ Restates as is)
    (hprecedes : is.Pairwise fun r r' => r.interval.Precedes r'.interval)
    (hcanonical : is.IsChain fun r r' => ¬r.Touches r') :
    ∃ s, mergeAssertions as = .ok s ∧ s.contradictions = [] ∧
      s.intervals.map ResolvedInterval.span = is.map ResolvedInterval.span := by
  have hspans := restates_iff_spans.mp hrestates
  have hapart : (is.map ResolvedInterval.span).Pairwise fun p q => p.1.Precedes q.1 :=
    pairwise_map.mpr hprecedes
  have hclear : (is.map ResolvedInterval.span).IsChain fun p q => ¬p.1.overlaps q.1 ∧
      ¬(p.2.1 = q.2.1 ∧ p.1.meets q.1) := by
    rw [isChain_map, isChain_iff_forall_rel_of_append_cons_cons]
    intro r r' before after his
    rw [his] at hprecedes hcanonical
    have hrest := (pairwise_append.mp hprecedes).2.1
    have hnext := (pairwise_cons.mp hrest).1 r' (mem_cons_self ..)
    have htouch := isChain_iff_forall_rel_of_append_cons_cons.mp hcanonical rfl
    exact ⟨hnext.not_overlaps, htouch⟩
  rw [← hspans] at hapart hclear
  rw [pairwise_map] at hapart
  rw [isChain_map] at hclear
  have hsorted : sortAssertions as = as := by
    refine sortAssertions_eq_self (hapart.imp fun h => ?_)
    exact (Prod.Lex.toLex_lt_toLex.mpr (.inl h.start_lt)).le
  refine ⟨⟨as.map fun a => (Accumulator.of a).finish, []⟩, ?_, rfl, ?_⟩
  · unfold mergeAssertions
    rw [hsorted, walk_clear hclear]
    have hreverse : (as.map Accumulator.of).reverse.reverse.map Accumulator.finish =
        as.map fun a => (Accumulator.of a).finish := by
      rw [reverse_reverse, map_map]
      rfl
    exact congrArg (fun is => Except.ok (IntervalSet.mk is [])) hreverse
  · rw [← hspans, map_map]
    rfl

/-- **A merged history is canonical**, and merges into itself, exactly when every claim that takes a
start over from its rivals and has the properties of the interval ending there is taken over
itself. -/
theorem canonical_iff (as : List Assertion) : ∃ s, mergeAssertions as = .ok s ∧
    (((s.intervals.IsChain fun r r' => ¬r.Touches r') ∧
        ∀ bs, List.Forall₂ Restates bs s.intervals → ∃ s', mergeAssertions bs = .ok s' ∧
          s'.contradictions = [] ∧
          s'.intervals.map ResolvedInterval.span = s.intervals.map ResolvedInterval.span) ↔
      SettlesStarts as) := by
  obtain ⟨s, hs, hintervals, _⟩ := mergeAssertions_refines as
  have hprecedes : s.intervals.Pairwise fun r r' => r.interval.Precedes r'.interval := by
    have hmap := congrArg (List.map Epoch.interval) hintervals
    rw [map_map, map_map] at hmap
    have hepochs : (s.intervals.map ResolvedInterval.interval).Pairwise Interval.Precedes := by
      refine Eq.subst (motive := List.Pairwise Interval.Precedes) hmap.symm ?_
      rw [pairwise_map, pairwise_reverse]
      exact ledgerOf_tiled as
    exact pairwise_map.mp hepochs
  have hiff : (s.intervals.IsChain fun r r' => ¬r.Touches r') ↔ SettlesStarts as := by
    have hview : (s.intervals.IsChain fun r r' => ¬r.Touches r') ↔
        (s.intervals.map ResolvedInterval.view).IsChain fun e e' => ¬e'.Seam e := by
      rw [isChain_map]
      rfl
    have hledger : ((ledgerOf as).epochs.reverse.map Epoch.finish).IsChain (fun e e' => ¬e'.Seam e) ↔
        (ledgerOf as).Canonical := by
      rw [isChain_map, isChain_reverse]
      rfl
    have hstart : Ledger.start.Behind := List.IsChain.nil
    have hhead : ¬Ledger.start.HeadSeam := by
      rintro ⟨last, hlast, _⟩
      cases hlast
    rw [hview, hintervals, hledger, ledgerOf, (Ledger.Fed.start as).canonical_foldl_iff hstart]
    exact and_iff_right fun h => absurd h hhead
  refine ⟨s, hs, ?_⟩
  rw [← hiff]
  exact ⟨And.left, fun h => ⟨h, fun bs hbs => mergeAssertions_restated hbs hprecedes h⟩⟩

/-! ## A role that is reported unchanged across a rival report -/

theorem reasonable_zero : Reasonable 0 := by decide

def roleReport (source : String) (role : PropertyValue) (interval : Interval) (confidence : ℚ)
    (hsource : source ≠ "") (hconfidence : 0 ≤ confidence ∧ confidence ≤ 1) : Assertion where
  source := source
  interval := interval
  observedAt := 0
  confidence := confidence
  properties := ⟨[⟨"role", role⟩], nodupKeys_singleton _⟩
  signalIds := []
  source_ne := hsource
  observed_reasonable := reasonable_zero
  confidence_range := hconfidence

theorem firstDecade_stop : ∀ e ∈ some (10 : ℤ), Reasonable e ∧ 0 < e := by decide

theorem secondDecade_start : Reasonable 10 := by decide

theorem secondDecade_stop : ∀ e ∈ some (20 : ℤ), Reasonable e ∧ 10 < e := by decide

def firstDecade : Interval := ⟨0, some 10, .exact, reasonable_zero, firstDecade_stop⟩

def secondDecade : Interval := ⟨10, some 20, .exact, secondDecade_start, secondDecade_stop⟩

theorem sec_ne : "sec" ≠ "" := by decide

theorem blog_ne : "blog" ≠ "" := by decide

theorem news_ne : "news" ≠ "" := by decide

theorem one_in_range : 0 ≤ (1 : ℚ) ∧ (1 : ℚ) ≤ 1 := by decide

theorem half_in_range : 0 ≤ (1 / 2 : ℚ) ∧ (1 / 2 : ℚ) ≤ 1 := by decide +kernel

def reinstated : List Assertion :=
  [roleReport "sec" ⟨"'cto'"⟩ firstDecade 1 sec_ne one_in_range,
    roleReport "blog" ⟨"'ceo'"⟩ secondDecade (1 / 2) blog_ne half_in_range,
    roleReport "news" ⟨"'cto'"⟩ secondDecade 1 news_ne one_in_range]

/-- Two touching intervals of one role, which merge into one. -/
theorem reinstated_touch : ∃ s, mergeAssertions reinstated = .ok s ∧
    ¬(s.intervals.IsChain fun r r' => ¬r.Touches r') ∧
    ∃ bs s', List.Forall₂ Restates bs s.intervals ∧ mergeAssertions bs = .ok s' ∧
      s'.intervals.map ResolvedInterval.span ≠ s.intervals.map ResolvedInterval.span := by
  let bs : List Assertion :=
    [roleReport "sec" ⟨"'cto'"⟩ firstDecade 1 sec_ne one_in_range,
      roleReport "news" ⟨"'cto'"⟩ secondDecade 1 news_ne one_in_range]
  have hruns : (mergeAssertions reinstated).toOption.map (fun s => s.intervals.map
        ResolvedInterval.span) = some (bs.map Assertion.span) ∧
      (mergeAssertions bs).toOption.map (fun s => s.intervals.length) = some 1 := by
    decide +kernel
  obtain ⟨s, hs, _⟩ := mergeAssertions_refines reinstated
  obtain ⟨s', hs', _⟩ := mergeAssertions_refines bs
  rw [hs, hs'] at hruns
  have hspans : s.intervals.map ResolvedInterval.span = bs.map Assertion.span :=
    Option.some.inj hruns.1
  have hlength : s'.intervals.length = 1 := Option.some.inj hruns.2
  refine ⟨s, hs, fun hcanonical => ?_, bs, s', restates_iff_spans.mpr hspans.symm, hs', fun heq => ?_⟩
  · have hpairs : (bs.map Assertion.span).IsChain fun p q =>
        ¬(p.2.1 = q.2.1 ∧ p.1.meets q.1) := by
      rw [← hspans, isChain_map]
      exact hcanonical
    exact absurd hpairs (by decide)
  · have hlengths := congrArg List.length (heq.trans hspans)
    rw [length_map, hlength] at hlengths
    cases hlengths

end OmniSense.Temporal
