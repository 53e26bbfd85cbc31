import OmniSense.Temporal.Canonical

/-! Where `superseded_by` leads in a merged history. -/

namespace OmniSense.Temporal

open List

def Epoch.PointedBy (newer older : Epoch) : Prop :=
  ∀ source ∈ older.supersededBy, older.interval.meets newer.interval ∧
    older.fingerprint ≠ newer.fingerprint ∧ source ∈ newer.sources

namespace Ledger

def Joins (s : Ledger) (c : Claim) : Prop := ∃ last ∈ s.epochs.head?, last.Agrees c

def JoinedBy (source : String) : Ledger → List Claim → Prop
  | _, [] => False
  | s, c :: cs => s.Keeps c ∧ (s.Joins c ∧ c.source = source ∨ JoinedBy source (s.step c) cs)

/-- The pointer to the newest epoch comes right: the epoch is displaced in its turn, or it differs
from the one before it and has the source, or is joined by it. -/
def Upheld (s : Ledger) (cs : List Claim) : Prop :=
  ∀ last ∈ s.epochs.head?, ∀ prev ∈ s.epochs.tail.head?, ∀ source ∈ prev.supersededBy,
    s.Displaced cs ∨ (prev.fingerprint ≠ last.fingerprint ∧
      (source ∈ last.sources ∨ s.JoinedBy source cs))

def Repoints : Ledger → List Claim → Prop
  | _, [] => True
  | s, c :: cs => (s.Displaces c → (s.step c).Upheld cs) ∧ Repoints (s.step c) cs

structure Marked (s : Ledger) : Prop where
  fresh : ∀ last ∈ s.epochs.head?, last.supersededBy = none
  meets : ∀ last ∈ s.epochs.head?, ∀ prev ∈ s.epochs.tail.head?, prev.supersededBy ≠ none →
    prev.interval.meets last.interval

def PointedBehind (s : Ledger) : Prop :=
  s.epochs.tail.IsChain fun newer older => newer.PointedBy older

def HeadPointed (s : Ledger) : Prop :=
  ∀ last ∈ s.epochs.head?, ∀ prev ∈ s.epochs.tail.head?, last.PointedBy prev

def Pointed (s : Ledger) : Prop := s.epochs.IsChain fun newer older => newer.PointedBy older

variable {s : Ledger} {c : Claim} {cs : List Claim}

theorem pointed_iff_behind : s.Pointed ↔ s.PointedBehind ∧ s.HeadPointed := by
  unfold Pointed PointedBehind HeadPointed
  match s.epochs with
  | [] => simp
  | [last] => simp
  | last :: prev :: older => simp [isChain_cons_cons, and_comm]

variable {older : List Epoch} {last : Epoch}

theorem upheld_cons (h : s.epochs = last :: older) :
    s.Upheld cs ↔ ∀ prev ∈ older.head?, ∀ source ∈ prev.supersededBy, s.Displaced cs ∨
      (prev.fingerprint ≠ last.fingerprint ∧ (source ∈ last.sources ∨ s.JoinedBy source cs)) := by
  unfold Upheld
  rw [h]
  simp

theorem joins_cons (h : s.epochs = last :: older) : s.Joins c ↔ last.Agrees c := by
  unfold Joins
  rw [h]
  simp

theorem marked_cons (h : s.epochs = last :: older) : s.Marked ↔ last.supersededBy = none ∧
      ∀ prev ∈ older.head?, prev.supersededBy ≠ none → prev.interval.meets last.interval := by
  refine ⟨fun hmarked => ⟨hmarked.fresh last (by rw [h]; rfl), fun prev hprev =>
    hmarked.meets last (by rw [h]; rfl) prev (by rw [h]; exact hprev)⟩, fun hlast => ⟨?_, ?_⟩⟩
  · rw [h]
    rintro e he
    cases he
    exact hlast.1
  · rw [h]
    rintro e he
    cases he
    exact hlast.2

theorem Marked.step (h : s.Marked) (hs : s.StartsBy c.interval.validFrom) :
    (s.step c).Marked := by
  rcases s.step_tenure c with ⟨_, _, last, older, last', hepochs, hstep, hlast⟩ |
    ⟨_, _, last, older, hepochs, hstep, hlt, _⟩ | ⟨_, _, hopens⟩
  · obtain ⟨hfresh, hmeets⟩ := (marked_cons hepochs).mp h
    rw [marked_cons hstep]
    rcases hlast with ⟨_, rfl⟩ | ⟨_, rfl⟩
    · exact ⟨hfresh, hmeets⟩
    · have hfrom := absorb_validFrom (hs last (by rw [hepochs]; rfl))
      refine ⟨hfresh, fun prev hprev hpointer => ?_⟩
      unfold Interval.meets
      rw [hfrom]
      exact hmeets prev hprev hpointer
  · have hfrom : c.interval.validFrom = last.interval.validFrom :=
      le_antisymm (not_lt.mp hlt) (hs last (by rw [hepochs]; rfl))
    refine (marked_cons hstep).mpr ⟨rfl, fun prev hprev hpointer => ?_⟩
    exact (((marked_cons hepochs).mp h).2 prev hprev hpointer).trans (congrArg some hfrom.symm)
  · rcases hopens with ⟨_, hstep⟩ | ⟨last, older, hepochs, _, _, hstep⟩ |
      ⟨last, older, hlt, _, _, hstep⟩
    · exact (marked_cons hstep).mpr ⟨rfl, fun prev hprev => by cases hprev⟩
    · refine (marked_cons hstep).mpr ⟨rfl, fun prev hprev hpointer => ?_⟩
      cases hprev
      exact absurd ((marked_cons hepochs).mp h).1 hpointer
    · refine (marked_cons hstep).mpr ⟨rfl, fun prev hprev _ => ?_⟩
      cases hprev
      rfl

theorem Marked.upheld_nil (h : s.Marked) : s.Upheld [] ↔ s.HeadPointed := by
  unfold Upheld HeadPointed Displaced JoinedBy Epoch.PointedBy
  simp only [false_or, or_false]
  refine forall₄_congr fun last hlast prev hprev => forall₂_congr fun source hsource => ?_
  have hpointer : prev.supersededBy ≠ none := by
    rw [hsource]
    exact Option.some_ne_none source
  exact (and_iff_right (h.meets last hlast prev hprev hpointer)).symm

theorem Keeps.pointedBehind (hkeeps : s.Keeps c) :
    (s.step c).PointedBehind ↔ s.PointedBehind := by
  rcases s.step_tenure c with ⟨_, _, last, older, last', hepochs, hstep, _⟩ | ⟨hk, _⟩ | ⟨hk, _⟩
  · unfold PointedBehind
    rw [hstep, hepochs, tail_cons, tail_cons]
  · exact absurd hkeeps hk
  · exact absurd hkeeps hk

theorem Displaces.pointedBehind (hdisplaces : s.Displaces c) :
    (s.step c).PointedBehind ↔ s.PointedBehind := by
  rcases s.step_tenure c with ⟨_, hd, _⟩ | ⟨_, _, last, older, hepochs, hstep, _⟩ | ⟨_, hd, _⟩
  · exact absurd hdisplaces hd
  · unfold PointedBehind
    rw [hstep, hepochs, tail_cons, tail_cons]
  · exact absurd hdisplaces hd

theorem Keeps.upheld (hkeeps : s.Keeps c) : s.Upheld (c :: cs) ↔ (s.step c).Upheld cs := by
  rcases s.step_tenure c with ⟨_, hno, last, older, last', hepochs, hstep, hlast⟩ |
    ⟨hk, _⟩ | ⟨hk, _⟩
  · have hfp : last'.fingerprint = last.fingerprint := by
      rcases hlast with ⟨_, rfl⟩ | ⟨_, rfl⟩ <;> rfl
    have hsources : ∀ source, source ∈ last'.sources ↔
        source ∈ last.sources ∨ (last.Agrees c ∧ c.source = source) := by
      intro source
      rcases hlast with ⟨hag, rfl⟩ | ⟨hag, rfl⟩
      · simp [hag]
      · change source ∈ (if c.source ∈ last.sources then _ else _) ↔ _
        split_ifs with hmem
        · refine ⟨.inl, fun h => h.elim id ?_⟩
          rintro ⟨_, rfl⟩
          exact hmem
        · rw [mem_append, mem_singleton]
          simp [hag, eq_comm]
    have hdisplaced : s.Displaced (c :: cs) ↔ (s.step c).Displaced cs :=
      (or_iff_right hno).trans (and_iff_right hkeeps)
    have hjoined : ∀ source, s.JoinedBy source (c :: cs) ↔
        last.Agrees c ∧ c.source = source ∨ (s.step c).JoinedBy source cs := by
      intro source
      rw [← joins_cons hepochs]
      exact and_iff_right hkeeps
    rw [upheld_cons hepochs, upheld_cons hstep]
    simp only [hdisplaced, hjoined, hfp, hsources, or_assoc]
  · exact absurd hkeeps hk
  · exact absurd hkeeps hk

theorem Marked.opens (h : s.Marked) (cs : List Claim) (hkeeps : ¬s.Keeps c) (hdisplaces : ¬s.Displaces c) :
    (s.step c).Upheld cs ∧ (s.Upheld (c :: cs) ↔ s.HeadPointed) ∧
      ((s.step c).PointedBehind ↔ s.Pointed) := by
  have hsettled : s.Upheld (c :: cs) ↔ s.HeadPointed := by
    rw [← h.upheld_nil]
    unfold Upheld Displaced JoinedBy
    simp only [hkeeps, hdisplaces, false_and, or_false]
  rcases s.step_tenure c with ⟨hk, _⟩ | ⟨_, hd, _⟩ | ⟨_, _, hopens⟩
  · exact absurd hk hkeeps
  · exact absurd hd hdisplaces
  rcases hopens with ⟨hnil, hstep⟩ | ⟨last, older, hepochs, _, _, hstep⟩ |
    ⟨last, older, hlt, hepochs, hcon, hstep⟩
  · refine ⟨(upheld_cons hstep).mpr fun prev hprev => absurd hprev (Option.not_mem_none prev),
      hsettled, ?_⟩
    unfold PointedBehind Pointed
    rw [hstep, hnil, tail_cons]
  · refine ⟨(upheld_cons hstep).mpr fun prev hprev source hsource => ?_, hsettled, ?_⟩
    · cases hprev
      rw [((marked_cons hepochs).mp h).1] at hsource
      cases hsource
    · unfold PointedBehind Pointed
      rw [hstep, hepochs, tail_cons]
  · refine ⟨(upheld_cons hstep).mpr fun prev hprev source hsource => .inr ?_, hsettled, ?_⟩
    · cases hprev
      cases hsource
      exact ⟨hcon.1, .inl (mem_singleton_self _)⟩
    · unfold PointedBehind Pointed
      rw [hstep, hepochs, tail_cons]
      cases older with
      | nil => simp
      | cons prev older => rw [isChain_cons_cons, isChain_cons_cons]; rfl

theorem Fed.pointedBehind (h : s.Fed cs) (hmarked : s.Marked)
    (hpointed : (cs.foldl Ledger.step s).Pointed) : s.PointedBehind := by
  induction cs generalizing s with
  | nil => exact (pointed_iff_behind.mp hpointed).1
  | cons c cs ih =>
    have hbehind := ih h.next (hmarked.step h.head) hpointed
    by_cases hkeeps : s.Keeps c
    · exact hkeeps.pointedBehind.mp hbehind
    by_cases hdisplaces : s.Displaces c
    · exact hdisplaces.pointedBehind.mp hbehind
    · have hopens := hmarked.opens [] hkeeps hdisplaces
      exact (pointed_iff_behind.mp (hopens.2.2.mp hbehind)).1

theorem Fed.pointed_iff (h : s.Fed cs) (hmarked : s.Marked) (hbehind : s.PointedBehind) :
    (cs.foldl Ledger.step s).Pointed ↔ s.Upheld cs ∧ s.Repoints cs := by
  induction cs generalizing s with
  | nil =>
    rw [foldl_nil, pointed_iff_behind, hmarked.upheld_nil]
    unfold Repoints
    simp [hbehind]
  | cons c cs ih =>
    have hnext := hmarked.step h.head
    rw [foldl_cons]
    unfold Repoints
    by_cases hkeeps : s.Keeps c
    · have hno : ¬s.Displaces c := hkeeps.not_displaces
      rw [ih h.next hnext (hkeeps.pointedBehind.mpr hbehind), hkeeps.upheld]
      simp [hno]
    by_cases hdisplaces : s.Displaces c
    · have hupheld : s.Upheld (c :: cs) := fun _ _ _ _ _ _ => .inl (.inl hdisplaces)
      rw [ih h.next hnext (hdisplaces.pointedBehind.mpr hbehind)]
      simp [hdisplaces, hupheld]
    · obtain ⟨hupheld, hsettled, hback⟩ := hmarked.opens cs hkeeps hdisplaces
      rw [hsettled]
      by_cases hhead : s.HeadPointed
      · rw [ih h.next hnext (hback.mpr (pointed_iff_behind.mpr ⟨hbehind, hhead⟩))]
        simp [hupheld, hhead, hdisplaces]
      · have hnot : ¬(cs.foldl Ledger.step (s.step c)).Pointed := fun hpointed =>
          hhead (pointed_iff_behind.mp (hback.mp (h.next.pointedBehind hnext hpointed))).2
        simp [hnot, hhead]

theorem Fed.marked (h : s.Fed cs) (hmarked : s.Marked) : (cs.foldl Ledger.step s).Marked := by
  induction cs generalizing s with
  | nil => exact hmarked
  | cons c cs ih => exact ih h.next (hmarked.step h.head)

theorem marked_start : start.Marked :=
  ⟨fun last hlast => absurd hlast (Option.not_mem_none last),
    fun last hlast => absurd hlast (Option.not_mem_none last)⟩

theorem pointed_start_iff (h : start.Fed cs) : (cs.foldl step start).Pointed ↔ start.Repoints cs := by
  have hupheld : start.Upheld cs := fun last hlast => absurd hlast (Option.not_mem_none last)
  rw [h.pointed_iff marked_start List.IsChain.nil]
  exact and_iff_right hupheld

end Ledger

/-! ## The merge -/

/-- The next interval begins where this one ends, says something else and has the source that
superseded it; the last interval is not superseded. -/
structure PointersRight (is : List ResolvedInterval) : Prop where
  next : is.IsChain fun r r' => ∀ source ∈ r.supersededBy,
    r.interval.validTo = some r'.interval.validFrom ∧
      r.properties.fingerprint ≠ r'.properties.fingerprint ∧ source ∈ r'.sources
  last : ∀ r ∈ is.getLast?, r.supersededBy = none

def RepointsStarts (as : List Assertion) : Prop :=
  Ledger.start.Repoints ((sortAssertions as).map Assertion.view)

theorem Epoch.finish_pointedBy (newer older : Epoch) :
    newer.finish.PointedBy older.finish ↔ newer.PointedBy older := by
  have hsources : ∀ source, source ∈ newer.finish.sources ↔ source ∈ newer.sources :=
    fun source => (perm_insertionSort (· ≤ ·) newer.sources).mem_iff
  unfold Epoch.PointedBy
  simp only [hsources]
  rfl

/-- **Supersession pointers are right** exactly when every claim that takes over a start to which a
pointer leads is taken over itself, or has, or is joined by, the source named and other
properties. -/
theorem pointersRight_iff (as : List Assertion) :
    ∃ s, mergeAssertions as = .ok s ∧ (PointersRight s.intervals ↔ RepointsStarts as) := by
  obtain ⟨s, hs, hintervals, _⟩ := mergeAssertions_refines as
  have hfed := Ledger.Fed.start as
  have hviews : (s.intervals.map ResolvedInterval.view).IsChain (fun e e' => e'.PointedBy e) ↔
      (ledgerOf as).Pointed := by
    rw [hintervals, isChain_map, isChain_reverse]
    unfold Ledger.Pointed
    simp only [Epoch.finish_pointedBy]
  have hlast : ∀ r ∈ s.intervals.getLast?, r.supersededBy = none := by
    intro r hr
    -- The last interval is the newest epoch.
    have hview : (s.intervals.map ResolvedInterval.view).getLast? = some r.view := by
      rw [List.getLast?_map, hr]
      rfl
    rw [hintervals, List.getLast?_map, List.getLast?_reverse] at hview
    obtain ⟨e, he, heq⟩ := Option.map_eq_some_iff.mp hview
    have hmarked : (ledgerOf as).Marked := hfed.marked Ledger.marked_start
    have hpointer : e.supersededBy = r.supersededBy := congrArg Epoch.supersededBy heq
    rw [← hpointer]
    exact hmarked.fresh e he
  refine ⟨s, hs, ?_⟩
  unfold RepointsStarts
  rw [← Ledger.pointed_start_iff hfed]
  refine Iff.trans ⟨fun h => ?_, fun h => ⟨?_, hlast⟩⟩ hviews
  · rw [isChain_map]
    exact h.next
  · rw [isChain_map] at h
    exact h

/-! ## A pointer to a claim that lost -/

theorem bothDecades_stop : ∀ e ∈ some (20 : ℤ), Reasonable e ∧ 0 < e := by decide

def bothDecades : Interval := ⟨0, some 20, .exact, reasonable_zero, bothDecades_stop⟩

def overtaken : List Assertion :=
  [roleReport "sec" ⟨"'cto'"⟩ bothDecades 1 sec_ne one_in_range,
    roleReport "blog" ⟨"'ceo'"⟩ secondDecade (1 / 2) blog_ne half_in_range,
    roleReport "news" ⟨"'cto'"⟩ secondDecade 1 news_ne one_in_range]

theorem overtaken_points : ∃ s, mergeAssertions overtaken = .ok s ∧ ¬PointersRight s.intervals := by
  have hruns : (mergeAssertions overtaken).toOption.map (fun s => s.intervals.map fun r =>
      (r.supersededBy, r.sources)) = some [(some "blog", ["sec"]), (none, ["news"])] := by
    decide +kernel
  obtain ⟨s, hs, _⟩ := mergeAssertions_refines overtaken
  rw [hs] at hruns
  have hspans : s.intervals.map (fun r => (r.supersededBy, r.sources)) =
      [(some "blog", ["sec"]), (none, ["news"])] := Option.some.inj hruns
  refine ⟨s, hs, fun hright => ?_⟩
  have hpairs : (s.intervals.map fun r => (r.supersededBy, r.sources)).IsChain fun p q =>
      ∀ source ∈ p.1, source ∈ q.2 := by
    rw [isChain_map]
    exact hright.next.imp fun _ _ h source hsource => (h source hsource).2.2
  rw [hspans, isChain_pair] at hpairs
  exact absurd (hpairs "blog" rfl) (by decide)

end OmniSense.Temporal
