import OmniSense.Library.Unions
import OmniSense.Temporal.Canonical

/-! Assertions that arrive again. A repeated assertion is sorted after the ones it ties with, so it
either joins the last interval or loses there as it lost before. -/

namespace OmniSense.Temporal

open Library List Accumulator

/-! ## What the walk decides on -/

def Interval.bare (i : Interval) : Interval :=
  ⟨i.validFrom, i.validTo, .exact, i.from_reasonable, i.to_reasonable⟩

def Epoch.bare (e : Epoch) : Epoch := { e with interval := e.interval.bare, signals := ∅ }

def Claim.bare (c : Claim) : Claim := { c with interval := c.interval.bare, signals := ∅ }

theorem Epoch.bare_absorb (e : Epoch) (c : Claim) : (e.absorb c).bare = e.bare.absorb c.bare := by
  have hinterval : (e.interval.hull c.interval).bare = e.interval.bare.hull c.interval.bare := rfl
  unfold Epoch.bare Epoch.absorb Claim.bare
  simp only [hinterval, Finset.empty_union]

namespace Ledger

def bares (s : Ledger) : List Epoch := s.epochs.map Epoch.bare

def Contested (s : Ledger) (c : Claim) : Prop := ∃ last ∈ s.epochs.head?, last.Contests c

variable {s s' : Ledger} {c d : Claim}

theorem bares_step (s : Ledger) (c : Claim) :
    (s.step c).bares = (Ledger.step ⟨s.bares, []⟩ c.bare).epochs := by
  unfold bares
  obtain ⟨epochs, conflicts⟩ := s
  cases epochs with
  | nil => rfl
  | cons last older =>
    have hag : last.bare.Agrees c.bare ↔ last.Agrees c := Iff.rfl
    have hcon : last.bare.Contests c.bare ↔ last.Contests c := Iff.rfl
    have hlt : last.bare.interval.validFrom < c.bare.interval.validFrom ↔
      last.interval.validFrom < c.interval.validFrom := Iff.rfl
    have hrank : c.bare.Outranks last.bare.claim ↔ c.Outranks last.claim := Iff.rfl
    unfold step
    simp only [map_cons, hag, hcon, hlt, hrank]
    split_ifs
    · rw [← last.bare_absorb c]
      rfl
    all_goals rfl

theorem contested_congr (h : s.bares = s'.bares) : s.Contested c ↔ s'.Contested c := by
  have hbare : ∀ s : Ledger, s.Contested c ↔ ∃ last ∈ s.bares.head?, last.Contests c.bare := by
    intro s
    unfold Contested bares
    rw [List.head?_map]
    simp only [Option.mem_def, Option.map_eq_some_iff, exists_exists_and_eq_and]
    rfl
  rw [hbare, hbare, h]

theorem conflicts_of_not_contested (h : ¬s.Contested c) : (s.step c).conflicts = s.conflicts := by
  rcases s.step_cases c with ⟨_, hstep⟩ | ⟨last, older, hepochs, hcases⟩
  · rw [hstep]
  have hlast : last ∈ s.epochs.head? := by
    rw [hepochs]
    rfl
  rcases hcases with ⟨_, hstep⟩ | ⟨_, _, hstep⟩ | ⟨_, hcon, _⟩ | ⟨_, hcon, _⟩ | ⟨_, hcon, _⟩
  · rw [hstep]
  · rw [hstep]
  all_goals exact absurd ⟨last, hlast, hcon⟩ h

theorem length_conflicts_congr (h : s.bares = s'.bares) (c : Claim) : ∃ n,
    (s.step c).conflicts.length = s.conflicts.length + n ∧
      (s'.step c).conflicts.length = s'.conflicts.length + n := by
  have hone : ∀ {s : Ledger}, s.Contested c →
      (s.step c).conflicts.length = s.conflicts.length + 1 := by
    rintro s ⟨last, hlast, hcon⟩
    rw [step_contested hlast hcon, length_append, length_singleton]
  by_cases hcon : s.Contested c
  · exact ⟨1, hone hcon, hone ((contested_congr h).mp hcon)⟩
  · refine ⟨0, ?_, ?_⟩
    · rw [conflicts_of_not_contested hcon, Nat.add_zero]
    · rw [conflicts_of_not_contested ((contested_congr h).not.mp hcon), Nat.add_zero]

theorem bares_step_congr (h : s.bares = s'.bares) (c : Claim) :
    (s.step c).bares = (s'.step c).bares := by
  rw [bares_step, bares_step, h]

end Ledger

/-! ## A claim that was met before -/

structure Epoch.Holds (e : Epoch) (c : Claim) : Prop where
  agrees : e.Agrees c
  start : e.interval.validFrom ≤ c.interval.validFrom
  stop : Interval.mergedEnd e.interval.validTo c.interval.validTo = e.interval.validTo
  source : c.source ∈ e.sources
  confidence : c.confidence ≤ e.confidence
  first : e.observedFirst ≤ c.observedAt
  last : c.observedAt ≤ e.observedLast

structure Epoch.Beats (e : Epoch) (c : Claim) : Prop where
  start : ¬e.interval.validFrom < c.interval.validFrom
  contests : e.Contests c
  loses : ¬c.Outranks e.claim

def Ledger.Met (s : Ledger) (c : Claim) : Prop := ∃ last ∈ s.epochs.head?, last.Holds c ∨ last.Beats c

theorem mergedEnd_self (e : Option ℤ) : Interval.mergedEnd e e = e := by
  cases e with
  | none => rfl
  | some e => exact congrArg some (max_self e)

theorem mergedEnd_again (a b : Option ℤ) :
    Interval.mergedEnd (Interval.mergedEnd a b) b = Interval.mergedEnd a b := by
  cases a with
  | none => rfl
  | some a =>
    cases b with
    | none => rfl
    | some b => exact congrArg some (by rw [max_assoc, max_self])

variable {s : Ledger} {c d : Claim} {e : Epoch}

namespace Claim.Tied

theorem refl (c : Claim) : c.Tied c := ⟨rfl, rfl, rfl, rfl, rfl⟩

theorem of_holds (h : d.Tied c) (hconfidence : c.confidence ≤ d.confidence) :
    (Epoch.of d).Holds c where
  agrees := h.of_agrees
  start := h.validFrom.le
  stop := by
    change Interval.mergedEnd d.interval.validTo c.interval.validTo = d.interval.validTo
    rw [h.validTo, mergedEnd_self]
  source := mem_singleton.mpr h.source.symm
  confidence := hconfidence
  first := h.observedAt.le
  last := h.observedAt.ge

theorem absorb_holds (h : d.Tied c) (hag : e.Agrees d) (hconfidence : c.confidence ≤ d.confidence) :
    (e.absorb d).Holds c where
  agrees := h.absorb_agrees e hag
  start := (min_le_right _ _).trans h.validFrom.le
  stop := by
    change Interval.mergedEnd (Interval.mergedEnd e.interval.validTo d.interval.validTo)
      c.interval.validTo = Interval.mergedEnd e.interval.validTo d.interval.validTo
    rw [h.validTo, mergedEnd_again]
  source := by
    change c.source ∈ if d.source ∈ e.sources then e.sources else e.sources ++ [d.source]
    rw [h.source]
    split_ifs with hmem
    · exact hmem
    · exact mem_append_right _ (mem_singleton_self _)
  confidence := hconfidence.trans (le_max_right _ _)
  first := (min_le_right _ _).trans h.observedAt.le
  last := h.observedAt.ge.trans (le_max_right _ _)

end Claim.Tied

theorem Epoch.Holds.absorb (h : e.Holds c) (hag : e.Agrees d) (htied : d.Tied c) :
    (e.absorb d).Holds c where
  agrees := htied.absorb_agrees e hag
  start := (min_le_left _ _).trans h.start
  stop := by
    change Interval.mergedEnd (Interval.mergedEnd e.interval.validTo d.interval.validTo)
      c.interval.validTo = Interval.mergedEnd e.interval.validTo d.interval.validTo
    rw [htied.validTo, mergedEnd_again]
  source := by
    change c.source ∈ if d.source ∈ e.sources then e.sources else e.sources ++ [d.source]
    split_ifs
    · exact h.source
    · exact mem_append_left _ h.source
  confidence := h.confidence.trans (le_max_left _ _)
  first := (min_le_left _ _).trans h.first
  last := h.last.trans (le_max_left _ _)

theorem confidence_le_of_outranks (h : d.Tied c) {left : Claim} (hwins : d.Outranks left)
    (hloses : ¬c.Outranks left) : c.confidence ≤ d.confidence := by
  by_contra hlt
  rw [not_le] at hlt
  unfold Claim.Outranks at hwins hloses
  rw [h.source] at hwins
  exact hloses (lt_trans hwins (Prod.Lex.toLex_lt_toLex.mpr (.inl hlt)))

namespace Ledger

theorem met_step (s : Ledger) (c : Claim) : (s.step c).Met c := by
  have htied := Claim.Tied.refl c
  have hof : (Epoch.of c).Holds c := htied.of_holds le_rfl
  rcases s.step_cases c with ⟨_, hstep⟩ | ⟨last, older, _, hcases⟩
  · rw [hstep]
    exact ⟨_, rfl, .inl hof⟩
  rcases hcases with ⟨hag, hstep⟩ | ⟨_, _, hstep⟩ | ⟨_, _, hstep⟩ | ⟨_, _, _, hstep⟩ |
    ⟨hlt, hcon, hloses, hstep⟩
  · rw [hstep]
    exact ⟨_, rfl, .inl (htied.absorb_holds hag le_rfl)⟩
  · rw [hstep]
    exact ⟨_, rfl, .inl hof⟩
  · rw [hstep]
    exact ⟨_, rfl, .inl hof⟩
  · rw [hstep]
    exact ⟨_, rfl, .inl hof⟩
  · rw [hstep]
    exact ⟨_, rfl, .inr ⟨hlt, hcon, hloses⟩⟩

theorem Met.step (h : s.Met c) (htied : d.Tied c) : (s.step d).Met c := by
  obtain ⟨last, hlast, hmet⟩ := h
  rcases s.step_cases d with ⟨hnil, _⟩ | ⟨last', older, hepochs, hcases⟩
  · rw [hnil] at hlast
    cases hlast
  obtain rfl : last' = last := by
    rw [hepochs] at hlast
    exact Option.some.inj hlast
  rcases hmet with hholds | hbeats
  · have hag : last'.Agrees d := (htied.agrees_iff last').mpr hholds.agrees
    rcases hcases with ⟨_, hstep⟩ | ⟨hnot, _⟩ | ⟨_, hcon, _⟩ | ⟨_, hcon, _⟩ | ⟨_, hcon, _⟩
    · rw [hstep]
      exact ⟨_, rfl, .inl (hholds.absorb hag htied)⟩
    · exact absurd hag hnot
    all_goals exact absurd hag.1 hcon.1
  · have hcon : last'.Contests d := (htied.contests_iff last').mpr hbeats.contests
    rcases hcases with ⟨hag, _⟩ | ⟨_, hnot, _⟩ | ⟨hlt, _⟩ | ⟨_, _, hwins, hstep⟩ | ⟨_, _, _, hstep⟩
    · exact absurd hag.1 hcon.1
    · exact absurd hcon hnot
    · exact absurd (htied.validFrom ▸ hlt) hbeats.start
    · rw [hstep]
      exact ⟨_, rfl, .inl (htied.of_holds (confidence_le_of_outranks htied hwins hbeats.loses))⟩
    · rw [hstep]
      exact ⟨_, rfl, .inr hbeats⟩

theorem Met.bares_step (h : s.Met c) : (s.step c).bares = s.bares := by
  obtain ⟨last, hlast, hmet⟩ := h
  rcases s.step_cases c with ⟨hnil, _⟩ | ⟨last', older, hepochs, hcases⟩
  · rw [hnil] at hlast
    cases hlast
  obtain rfl : last' = last := by
    rw [hepochs] at hlast
    exact Option.some.inj hlast
  unfold bares
  rcases hmet with hholds | hbeats
  · rcases hcases with ⟨_, hstep⟩ | ⟨hnot, _⟩ | ⟨_, hcon, _⟩ | ⟨_, hcon, _⟩ | ⟨_, hcon, _⟩
    · have hinterval : (last'.interval.hull c.interval).bare = last'.interval.bare :=
        Interval.ext (min_eq_left hholds.start) hholds.stop rfl
      have hsources : (if c.source ∈ last'.sources then last'.sources
          else last'.sources ++ [c.source]) = last'.sources := if_pos hholds.source
      have hbare : (last'.absorb c).bare = last'.bare := by
        unfold Epoch.bare Epoch.absorb
        simp only [hinterval, hsources, max_eq_left hholds.confidence, min_eq_left hholds.first,
          max_eq_left hholds.last]
      rw [hstep, hepochs, map_cons, map_cons, hbare]
    · exact absurd hholds.agrees hnot
    all_goals exact absurd hholds.agrees.1 hcon.1
  · rcases hcases with ⟨hag, _⟩ | ⟨_, hnot, _⟩ | ⟨hlt, _⟩ | ⟨_, _, hwins, _⟩ | ⟨_, _, _, hstep⟩
    · exact absurd hag.1 hbeats.contests.1
    · exact absurd hbeats.contests hnot
    · exact absurd hlt hbeats.start
    · exact absurd hwins hbeats.loses
    · rw [hstep, hepochs]

end Ledger

/-! ## The walk, which never raises -/

def Walk.next (s : Walk) (a : Assertion) : Walk := (mergeStep s a).toOption.getD s

theorem Walk.Sound.next {s : Walk} (hs : s.Sound) (a : Assertion) :
    mergeStep s a = .ok (s.next a) ∧ (s.next a).Sound ∧ (s.next a).view = s.view.step a.view := by
  obtain ⟨s', hok, hsound, hview⟩ := mergeStep_refines hs a
  have hnext : s.next a = s' := by
    unfold Walk.next
    rw [hok]
    rfl
  rw [hnext]
  exact ⟨hok, hsound, hview⟩

theorem foldlM_eq_foldl {s : Walk} (hs : s.Sound) (as : List Assertion) :
    as.foldlM mergeStep s = .ok (as.foldl Walk.next s) := by
  induction as generalizing s with
  | nil => rfl
  | cons a as ih =>
    obtain ⟨hok, hsound, _⟩ := hs.next a
    rw [foldlM_cons, hok, foldl_cons]
    exact ih hsound

theorem start_sound : Walk.start.Sound := fun _ h => absurd h not_mem_nil

/-- The record of a contested assertion; `left` is the last interval as an assertion. -/
def contradictionOf (last : Accumulator) (left a : Assertion) : Contradiction :=
  if a.interval.validFrom > last.interval.validFrom then overlapContradiction last left a
  else simultaneousContradiction left a

namespace Accumulator

def Joins (acc : Accumulator) (a : Assertion) : Prop :=
  acc.fingerprint = a.fingerprint ∧
    (acc.interval.overlaps a.interval ∨ acc.interval.meets a.interval)

instance (acc : Accumulator) (a : Assertion) : Decidable (acc.Joins a) :=
  inferInstanceAs (Decidable (_ ∧ _))

end Accumulator

namespace Walk

variable {last : Accumulator} {older : List Accumulator} {ks : List Contradiction} {a : Assertion}

theorem next_of_joins (h : last.Joins a) : next ⟨last :: older, ks⟩ a =
    ⟨last.absorbOver a (last.interval.hull a.interval) :: older, ks⟩ := by
  have hmake : Interval.make (min last.interval.validFrom a.interval.validFrom)
      (Interval.mergedEnd last.interval.validTo a.interval.validTo)
      (last.interval.precision.coarser a.interval.precision) =
        .ok (last.interval.hull a.interval) := Interval.make_eq_ok (last.interval.hull a.interval)
  unfold next mergeStep absorb
  dsimp only
  rw [if_pos h.1, if_pos h.2, hmake]
  rfl

theorem next_of_apart (hjoins : ¬last.Joins a) (hcon : ¬last.view.Contests a.view) :
    next ⟨last :: older, ks⟩ a = ⟨.of a :: last :: older, ks⟩ := by
  unfold next mergeStep
  dsimp only
  by_cases hfp : last.fingerprint = a.fingerprint
  · rw [if_pos hfp, if_neg fun h => hjoins ⟨hfp, h⟩]
    rfl
  · have hapart : ¬last.interval.overlaps a.interval := fun hov => hcon ⟨hfp, hov⟩
    rw [if_neg hfp, if_pos hapart]
    rfl

theorem next_of_contests (older : List Accumulator) (ks : List Contradiction)
    (hlast : last.Sound) (hcon : last.view.Contests a.view) {left : Assertion}
    (hleft : last.asAssertion = .ok left) : ∃ resolved,
      next ⟨last :: older, ks⟩ a = ⟨resolved, ks ++ [contradictionOf last left a]⟩ ∧
        older <:+ resolved.tail ∧ (resolved.head? = some (.of a) ∨ resolved.head? = some last) := by
  have hfp : last.fingerprint ≠ a.fingerprint := hcon.1
  have hov : last.interval.overlaps a.interval := hcon.2
  unfold next mergeStep contradictionOf
  dsimp only
  rw [if_neg hfp, if_neg (not_not_intro hov), hleft]
  by_cases hlt : a.interval.validFrom > last.interval.validFrom
  · obtain ⟨acc', hok, _⟩ := last.truncateAt_refines hlast a hlt hov
    rw [if_pos hlt, if_pos hlt, hok]
    exact ⟨.of a :: acc' :: older, rfl, suffix_cons acc' older, .inl rfl⟩
  · rw [if_neg hlt, if_neg hlt]
    refine ⟨if outranks a left then .of a :: older else last :: older, rfl, ?_⟩
    split_ifs
    · exact ⟨suffix_rfl, .inl rfl⟩
    · exact ⟨suffix_rfl, .inr rfl⟩

theorem next_grows {s : Walk} (hs : s.Sound) (a : Assertion) :
    s.conflicts <+: (s.next a).conflicts ∧ s.resolved.tail <:+ (s.next a).resolved.tail := by
  obtain ⟨resolved, ks⟩ := s
  cases resolved with
  | nil => exact ⟨prefix_rfl, suffix_rfl⟩
  | cons last older =>
    have hlast : last.Sound := hs last (mem_cons_self ..)
    by_cases hjoins : last.Joins a
    · rw [next_of_joins hjoins]
      exact ⟨prefix_rfl, suffix_rfl⟩
    by_cases hcon : last.view.Contests a.view
    · obtain ⟨left, hleft, _⟩ := last.asAssertion_refines hlast
      obtain ⟨resolved, hnext, holder, _⟩ := next_of_contests older ks hlast hcon hleft
      rw [hnext]
      exact ⟨prefix_append _ _, holder⟩
    · rw [next_of_apart hjoins hcon]
      exact ⟨prefix_rfl, suffix_cons last older⟩

def outcome (s : Walk) : List ResolvedInterval × List Contradiction :=
  (s.resolved.map finish, s.conflicts)

end Walk

/-! ## Two walks, one of them with the repeated assertions -/

structure Awaits (s : Ledger) (arrivals : List (Assertion × Bool)) : Prop where
  sorted : arrivals.Pairwise fun p q => p.1.sortKey ≤ q.1.sortKey
  met : ∀ before z after, arrivals = before ++ (z, true) :: after → (z, false) ∈ before ∨
    (s.Met z.view ∧ ∀ p ∈ before, p.1.sortKey = z.sortKey)

namespace Awaits

variable {s : Ledger} {a z : Assertion} {arrivals : List (Assertion × Bool)}

theorem here (h : Awaits s ((z, true) :: arrivals)) : s.Met z.view := by
  rcases h.met [] z arrivals rfl with hmem | ⟨hmet, _⟩
  · exact absurd hmem not_mem_nil
  · exact hmet

theorem skip (h : Awaits s ((z, true) :: arrivals)) : Awaits s arrivals := by
  refine ⟨(pairwise_cons.mp h.sorted).2, fun before y after hsplit => ?_⟩
  rcases h.met ((z, true) :: before) y after (by rw [hsplit]; rfl) with hmem | ⟨hmet, hkeys⟩
  · rcases mem_cons.mp hmem with heq | hmem
    · exact absurd (congrArg Prod.snd heq) Bool.false_ne_true
    · exact .inl hmem
  · exact .inr ⟨hmet, fun p hp => hkeys p (mem_cons_of_mem _ hp)⟩

theorem step (h : Awaits s ((a, false) :: arrivals)) : Awaits (s.step a.view) arrivals := by
  obtain ⟨hfirst, hsorted⟩ := pairwise_cons.mp h.sorted
  refine ⟨hsorted, fun before y after hsplit => ?_⟩
  rcases h.met ((a, false) :: before) y after (by rw [hsplit]; rfl) with hmem | ⟨hmet, hkeys⟩
  · rcases mem_cons.mp hmem with heq | hmem
    · obtain rfl : y = a := congrArg Prod.fst heq
      refine .inr ⟨s.met_step _, fun p hp => le_antisymm ?_ ?_⟩
      · rw [hsplit] at hsorted
        exact (pairwise_append.mp hsorted).2.2 p hp _ (mem_cons_self ..)
      · refine hfirst p ?_
        rw [hsplit]
        exact mem_append_left _ hp
    · exact .inl hmem
  · have htied : a.view.Tied y.view :=
      Claim.tied_of_sortKey_eq (hkeys (a, false) (mem_cons_self ..))
    exact .inr ⟨hmet.step htied, fun p hp => hkeys p (mem_cons_of_mem _ hp)⟩

end Awaits

def firsts (arrivals : List (Assertion × Bool)) : List Assertion :=
  (arrivals.filter fun p => !p.2).map Prod.fst

theorem length_conflicts_next {u s : Walk} (hu : u.Sound) (hs : s.Sound)
    (hbares : u.view.bares = s.view.bares) (a : Assertion) : ∃ n,
      (u.next a).conflicts.length = u.conflicts.length + n ∧
        (s.next a).conflicts.length = s.conflicts.length + n := by
  obtain ⟨n, hn, hn'⟩ := Ledger.length_conflicts_congr hbares a.view
  rw [← (hu.next a).2.2] at hn
  rw [← (hs.next a).2.2] at hn'
  unfold Walk.view at hn hn'
  simp only [length_map] at hn hn'
  exact ⟨n, hn, hn'⟩

theorem behind_eq {u u' s s' : Walk}
    (hu : u.conflicts <+: u'.conflicts ∧ u.resolved.tail <:+ u'.resolved.tail)
    (hs : s.conflicts <+: s'.conflicts ∧ s.resolved.tail <:+ s'.resolved.tail)
    (hconflicts : u.conflicts.length = s.conflicts.length)
    (hresolved : u.resolved.length = s.resolved.length)
    (heq : u'.conflicts = s'.conflicts ∧
      u'.resolved.tail.map finish = s'.resolved.tail.map finish) :
    u.conflicts = s.conflicts ∧
      u.resolved.tail.map finish = s.resolved.tail.map finish := by
  refine ⟨?_, ?_⟩
  · have hprefix := hs.1
    rw [← heq.1] at hprefix
    exact (prefix_of_prefix_length_le hu.1 hprefix hconflicts.le).eq_of_length hconflicts
  · have hlength : (u.resolved.tail.map finish).length =
        (s.resolved.tail.map finish).length := by
      rw [length_map, length_map, length_tail, length_tail, hresolved]
    have hsuffix := hs.2.map finish
    rw [← heq.2] at hsuffix
    exact (suffix_of_suffix_length_le (hu.2.map _) hsuffix hlength.le).eq_of_length hlength

theorem frozen {u s : Walk} (hu : u.Sound) (hs : s.Sound) (hbares : u.view.bares = s.view.bares)
    (hle : s.conflicts.length ≤ u.conflicts.length) {arrivals : List (Assertion × Bool)}
    (hawaits : Awaits s.view arrivals)
    (hend : ((arrivals.map Prod.fst).foldl Walk.next u).outcome =
      ((firsts arrivals).foldl Walk.next s).outcome) :
    u.conflicts = s.conflicts ∧
      u.resolved.tail.map finish = s.resolved.tail.map finish := by
  induction arrivals generalizing u s with
  | nil =>
    obtain ⟨hresolved, hconflicts⟩ := Prod.mk.inj hend
    refine ⟨hconflicts, ?_⟩
    rw [map_tail, map_tail]
    exact congrArg List.tail hresolved
  | cons arrival arrivals ih =>
    obtain ⟨a, again⟩ := arrival
    have hresolved : u.resolved.length = s.resolved.length := by
      have hlength := congrArg List.length hbares
      unfold Ledger.bares Walk.view at hlength
      simpa only [length_map] using hlength
    obtain ⟨_, hu', hview⟩ := hu.next a
    have hbares' := Ledger.bares_step_congr hbares a.view
    rw [← hview] at hbares'
    cases again with
    | false =>
      obtain ⟨_, hs', hview'⟩ := hs.next a
      obtain ⟨n, hn, hn'⟩ := length_conflicts_next hu hs hbares a
      rw [← hview'] at hbares'
      have hawaits' := hawaits.step
      rw [← hview'] at hawaits'
      have heq := ih hu' hs' hbares' (by omega) hawaits' hend
      have hlength := congrArg List.length heq.1
      exact behind_eq (Walk.next_grows hu a) (Walk.next_grows hs a) (by omega) hresolved heq
    | true =>
      have hgrows := Walk.next_grows hu a
      rw [hawaits.here.bares_step] at hbares'
      have hlength := hgrows.1.length_le
      have heq := ih hu' hs hbares' (hle.trans hlength) hawaits.skip hend
      rw [heq.1] at hlength
      exact behind_eq hgrows ⟨prefix_rfl, suffix_rfl⟩ (le_antisymm hlength hle)
        hresolved heq

/-! ## What repeated assertions leave behind -/

@[ext]
structure Support where
  signalIds : List String
  precision : Precision
  deriving DecidableEq

def Support.add (p : Support) (a : Assertion) : Support :=
  ⟨appendNew p.signalIds a.signalIds, p.precision.coarser a.interval.precision⟩

namespace Accumulator

def support (acc : Accumulator) : Support := ⟨acc.signalIds, acc.interval.precision⟩

def lend (acc : Accumulator) (p : Support) : Accumulator :=
  { acc with
    interval := { acc.interval with precision := p.precision }
    signalIds := p.signalIds }

theorem Sound.lend {acc : Accumulator} (h : acc.Sound) (p : Support) : (acc.lend p).Sound :=
  ⟨h.fingerprint_eq, h.source_ne, h.first_reasonable, h.confidence_range⟩

theorem signalIds_of_asAssertion {acc : Accumulator} {left : Assertion}
    (h : acc.asAssertion = .ok left) : left.signalIds = acc.signalIds.eraseDups := by
  unfold asAssertion at h
  cases hsources : acc.sources with
  | nil =>
    rw [hsources] at h
    cases h
  | cons source others =>
    rw [hsources] at h
    dsimp only at h
    unfold Assertion.make at h
    split_ifs at h
    · cases h
      rfl
    · cases hcoerce : coerceInstant acc.observedFirst "observed_at" with
      | error | ok =>
        rw [hcoerce] at h
        cases h

end Accumulator

theorem eraseDups_of_nodup {xs : List String} (h : xs.Nodup) : xs.eraseDups = xs := by
  induction xs with
  | nil => rfl
  | cons x xs ih =>
    obtain ⟨hx, hxs⟩ := nodup_cons.mp h
    have hkept : (xs.filter fun y => !y == x) = xs := by
      rw [filter_eq_self]
      intro y hy
      have hne : y ≠ x := fun heq => hx (heq ▸ hy)
      simp [hne]
    rw [eraseDups_cons, hkept, ih hxs]

theorem left_eq_of_contradictionOf {last last' : Accumulator} {left left' a : Assertion}
    (hfrom : last.interval.validFrom = last'.interval.validFrom)
    (hsource : left.source = left'.source) (hobserved : left.observedAt = left'.observedAt)
    (hconfidence : left.confidence = left'.confidence)
    (h : contradictionOf last left a = contradictionOf last' left' a) : left = left' := by
  have hranks : outranks a left ↔ outranks a left' := by
    unfold outranks
    rw [hsource, hobserved, hconfidence]
  unfold contradictionOf at h
  rw [hfrom] at h
  split_ifs at h
  · exact congrArg Contradiction.earlier h
  · unfold simultaneousContradiction rankSimultaneous at h
    by_cases hwins : outranks a left
    · rw [if_pos hwins, if_pos (hranks.mp hwins)] at h
      exact congrArg Contradiction.earlier h
    · rw [if_neg hwins, if_neg (hranks.not.mp hwins)] at h
      exact congrArg Contradiction.later h

namespace Walk

def support (s : Walk) : Support := (s.resolved.head?.map Accumulator.support).getD ⟨[], .exact⟩

def lend (s : Walk) (p : Support) : Walk :=
  { s with resolved := s.resolved.modifyHead fun last => last.lend p }

def Joins (s : Walk) (a : Assertion) : Prop := ∃ last ∈ s.resolved.head?, last.Joins a

instance (s : Walk) (a : Assertion) : Decidable (s.Joins a) :=
  inferInstanceAs (Decidable (∃ last ∈ s.resolved.head?, _))

/-- Repeated assertions (marked `true`) join the last interval, and whenever an assertion does not,
the interval has the support `p` that it has with them. -/
def Unmoved : Walk → Support → List (Assertion × Bool) → Prop
  | s, p, [] => p = s.support
  | s, p, (a, true) :: arrivals => s.Joins a ∧ Unmoved s (p.add a) arrivals
  | s, p, (a, false) :: arrivals =>
    if s.Joins a then Unmoved (s.next a) (p.add a) arrivals
    else p = s.support ∧ Unmoved (s.next a) (s.next a).support arrivals

instance Unmoved.decide : ∀ arrivals s p, Decidable (Unmoved s p arrivals)
  | [], s, p => inferInstanceAs (Decidable (p = s.support))
  | (a, true) :: arrivals, s, p =>
    have := Unmoved.decide arrivals s (p.add a)
    inferInstanceAs (Decidable (_ ∧ _))
  | (a, false) :: arrivals, s, p =>
    have := Unmoved.decide arrivals (s.next a) (p.add a)
    have := Unmoved.decide arrivals (s.next a) (s.next a).support
    inferInstanceAs (Decidable (if s.Joins a then _ else _ ∧ _))

variable {s : Walk} {p : Support} {a : Assertion}

theorem Joins.last (h : s.Joins a) :
    ∃ last older ks, s = ⟨last :: older, ks⟩ ∧ last.Joins a := by
  obtain ⟨resolved, ks⟩ := s
  obtain ⟨last, hlast, hjoins⟩ := h
  cases resolved with
  | nil => cases hlast
  | cons last' older =>
    cases hlast
    exact ⟨_, older, ks, rfl, hjoins⟩

theorem Joins.ne_nil (h : s.Joins a) : s.resolved ≠ [] := by
  obtain ⟨last, older, ks, rfl, -⟩ := h.last
  exact cons_ne_nil _ _

theorem next_ne_nil_of_joins (h : s.Joins a) : (s.next a).resolved ≠ [] := by
  obtain ⟨last, older, ks, rfl, hjoins⟩ := h.last
  rw [next_of_joins hjoins]
  exact cons_ne_nil _ _

theorem lend_support (s : Walk) : s.lend s.support = s := by
  obtain ⟨resolved, ks⟩ := s
  cases resolved with
  | nil | cons => rfl

theorem lend_next_of_joins (h : s.Joins a) : (s.lend p).next a = (s.next a).lend (p.add a) := by
  obtain ⟨last, older, ks, rfl, hjoins⟩ := h.last
  have hlent : (last.lend p).Joins a := hjoins
  have hnext : (lend ⟨last :: older, ks⟩ p).next a = next ⟨last.lend p :: older, ks⟩ a := rfl
  rw [hnext, next_of_joins hlent, next_of_joins hjoins]
  rfl

theorem lend_next_of_met (h : s.Joins a) (hmet : s.view.Met a.view) :
    (s.lend p).next a = s.lend (p.add a) := by
  rw [lend_next_of_joins h]
  obtain ⟨last, older, ks, rfl, hjoins⟩ := h.last
  obtain ⟨e, he, hholds | hbeats⟩ := hmet
  · cases he
    have hinterval : ({ last.interval.hull a.interval with
        precision := (p.add a).precision } : Interval) =
        { last.interval with precision := (p.add a).precision } :=
      Interval.ext (min_eq_left hholds.start) hholds.stop rfl
    have hsources : appendNew last.sources [a.source] = last.sources := by
      rw [appendNew_singleton]
      exact if_pos hholds.source
    have hconfidence : max last.confidence a.confidence = last.confidence :=
      max_eq_left hholds.confidence
    have hfirst : min last.observedFirst a.observedAt = last.observedFirst :=
      min_eq_left hholds.first
    have hlatest : max last.observedLast a.observedAt = last.observedLast :=
      max_eq_left hholds.last
    have hlent : (last.absorbOver a (last.interval.hull a.interval)).lend (p.add a) =
        last.lend (p.add a) := by
      unfold Accumulator.lend Accumulator.absorbOver
      simp only [hinterval, hsources, hconfidence, hfirst, hlatest]
    rw [next_of_joins hjoins]
    exact congrArg (fun acc => Walk.mk (acc :: older) ks) hlent
  · cases he
    exact absurd hjoins.1 hbeats.contests.1

theorem Sound.lend (h : s.Sound) (p : Support) : (s.lend p).Sound := by
  obtain ⟨resolved, ks⟩ := s
  cases resolved with
  | nil => exact h
  | cons last older =>
    obtain ⟨hlast, holder⟩ := forall_mem_cons.mp h
    exact forall_mem_cons.mpr ⟨hlast.lend p, holder⟩

theorem lend_bares (s : Walk) (p : Support) : (s.lend p).view.bares = s.view.bares := by
  obtain ⟨resolved, ks⟩ := s
  cases resolved with
  | nil | cons => rfl

theorem support_shown (hs : s.Sound) (hjoins : ¬s.Joins a) (hp : p.signalIds.Nodup)
    (hnodup : s.support.signalIds.Nodup) (hempty : s.resolved = [] → p = s.support)
    (heq : ((s.lend p).next a).conflicts = (s.next a).conflicts ∧
      ((s.lend p).next a).resolved.tail.map finish =
        (s.next a).resolved.tail.map finish) : p = s.support := by
  obtain ⟨resolved, ks⟩ := s
  cases resolved with
  | nil => exact hempty rfl
  | cons last older =>
    have hlast : last.Sound := hs last (mem_cons_self ..)
    have hnot : ¬last.Joins a := fun h => hjoins ⟨last, rfl, h⟩
    have hnot' : ¬(last.lend p).Joins a := hnot
    have hlent : lend ⟨last :: older, ks⟩ p = ⟨last.lend p :: older, ks⟩ := rfl
    rw [hlent] at heq
    by_cases hcon : last.view.Contests a.view
    · have hcon' : (last.lend p).view.Contests a.view := hcon
      obtain ⟨left, hleft, hview⟩ := last.asAssertion_refines hlast
      obtain ⟨left', hleft', hview'⟩ := (last.lend p).asAssertion_refines (hlast.lend p)
      obtain ⟨_, hnext, _⟩ := next_of_contests older ks hlast hcon hleft
      obtain ⟨_, hnext', _⟩ := next_of_contests older ks (hlast.lend p) hcon' hleft'
      rw [hnext, hnext'] at heq
      have hrecord := singleton_inj.mp (append_cancel_left heq.1)
      have hsource : left'.source = left.source :=
        (congrArg Claim.source hview').trans (congrArg Claim.source hview).symm
      have hobserved : left'.observedAt = left.observedAt :=
        (congrArg Claim.observedAt hview').trans (congrArg Claim.observedAt hview).symm
      have hconfidence : left'.confidence = left.confidence :=
        (congrArg Claim.confidence hview').trans (congrArg Claim.confidence hview).symm
      have hfrom : (last.lend p).interval.validFrom = last.interval.validFrom := rfl
      have hleftEq :=
        left_eq_of_contradictionOf hfrom hsource hobserved hconfidence hrecord
      have hinterval : (last.lend p).interval = last.interval := by
        have hi : left'.interval = (last.lend p).interval := congrArg Claim.interval hview'
        have hi' : left.interval = last.interval := congrArg Claim.interval hview
        rw [← hi, ← hi', hleftEq]
      have hids : p.signalIds.eraseDups = last.signalIds.eraseDups := by
        have hi := signalIds_of_asAssertion hleft'
        have hi' := signalIds_of_asAssertion hleft
        rw [hleftEq, hi'] at hi
        exact hi.symm
      have hlastIds : last.signalIds.Nodup := hnodup
      rw [eraseDups_of_nodup hp, eraseDups_of_nodup hlastIds] at hids
      exact Support.ext hids (congrArg Interval.precision hinterval)
    · have hcon' : ¬(last.lend p).view.Contests a.view := hcon
      rw [next_of_apart hnot hcon, next_of_apart hnot' hcon'] at heq
      obtain ⟨hfinish, _⟩ := List.cons.inj heq.2
      exact Support.ext (congrArg ResolvedInterval.signalIds hfinish)
        (congrArg (fun r => r.interval.precision) hfinish)

theorem nodup_support_next (hs : s.Sound) (hnodup : s.support.signalIds.Nodup)
    (ha : a.signalIds.Nodup) : (s.next a).support.signalIds.Nodup := by
  obtain ⟨resolved, ks⟩ := s
  cases resolved with
  | nil => exact ha
  | cons last older =>
    have hlast : last.Sound := hs last (mem_cons_self ..)
    by_cases hjoins : last.Joins a
    · rw [next_of_joins hjoins]
      exact nodup_appendNew hnodup a.signalIds
    by_cases hcon : last.view.Contests a.view
    · obtain ⟨left, hleft, _⟩ := last.asAssertion_refines hlast
      obtain ⟨resolved, hnext, _, hhead⟩ :=
        next_of_contests older ks hlast hcon hleft
      rw [hnext]
      unfold support
      rcases hhead with hhead | hhead
      · rw [hhead]
        exact ha
      · rw [hhead]
        exact hnodup
    · rw [next_of_apart hjoins hcon]
      exact ha

theorem outcome_lend_iff (hempty : s.resolved = [] → p = s.support) :
    (s.lend p).outcome = s.outcome ↔ p = s.support := by
  refine ⟨fun h => ?_, fun h => by rw [h, lend_support]⟩
  obtain ⟨resolved, ks⟩ := s
  cases resolved with
  | nil => exact hempty rfl
  | cons last older =>
    obtain ⟨hfinish, _⟩ := List.cons.inj (Prod.mk.inj h).1
    exact Support.ext (congrArg ResolvedInterval.signalIds hfinish)
      (congrArg (fun r => r.interval.precision) hfinish)

theorem outcome_ne_of_beaten (hs : s.Sound) {arrivals : List (Assertion × Bool)}
    (hawaits : Awaits s.view ((a, true) :: arrivals)) (hjoins : ¬s.Joins a) :
    (((a, true) :: arrivals).map Prod.fst |>.foldl Walk.next (s.lend p)).outcome ≠
      ((firsts arrivals).foldl Walk.next s).outcome := by
  intro hend
  obtain ⟨_, hu, hview⟩ := (hs.lend p).next a
  have hmet := hawaits.here
  obtain ⟨e, he, hholds | hbeats⟩ := hmet
  · obtain ⟨last, hlast, rfl⟩ : ∃ last ∈ s.resolved.head?, last.view = e := by
      unfold view at he
      rw [List.head?_map] at he
      exact Option.map_eq_some_iff.mp he
    exact hjoins ⟨last, hlast, hholds.agrees⟩
  · have hcontested : (s.lend p).view.Contested a.view :=
      (Ledger.contested_congr (lend_bares s p)).mpr ⟨e, he, hbeats.contests⟩
    obtain ⟨last, hlast, hcon⟩ := hcontested
    have hmore : ((s.lend p).next a).conflicts.length = s.conflicts.length + 1 := by
      have hlength := congrArg (fun l => l.conflicts.length) hview
      rw [Ledger.step_contested hlast hcon, length_append] at hlength
      unfold view at hlength
      simp only [length_map] at hlength
      exact hlength
    have hbares : ((s.lend p).next a).view.bares = s.view.bares := by
      rw [hview, Ledger.bares_step_congr (lend_bares s p), hawaits.here.bares_step]
    have hsame := frozen hu hs hbares (by omega) hawaits.skip hend
    rw [hsame.1] at hmore
    omega

theorem unmoved_iff {arrivals : List (Assertion × Bool)} (hs : s.Sound) (hp : p.signalIds.Nodup)
    (hnodup : s.support.signalIds.Nodup) (hempty : s.resolved = [] → p = s.support)
    (hawaits : Awaits s.view arrivals) (hids : ∀ q ∈ arrivals, q.1.signalIds.Nodup) :
    ((arrivals.map Prod.fst).foldl Walk.next (s.lend p)).outcome =
      ((firsts arrivals).foldl Walk.next s).outcome ↔ s.Unmoved p arrivals := by
  induction arrivals generalizing s p with
  | nil => exact outcome_lend_iff hempty
  | cons arrival arrivals ih =>
    obtain ⟨a, again⟩ := arrival
    obtain ⟨ha, hrest⟩ := forall_mem_cons.mp hids
    have hadd : (p.add a).signalIds.Nodup := nodup_appendNew hp a.signalIds
    cases again with
    | true =>
      by_cases hjoins : s.Joins a
      · have hnonempty : s.resolved = [] → p.add a = s.support :=
          fun hnil => absurd hnil hjoins.ne_nil
        have hstep := ih hs hadd hnodup hnonempty hawaits.skip hrest
        rw [← lend_next_of_met hjoins hawaits.here] at hstep
        exact hstep.trans (and_iff_right hjoins).symm
      · exact ⟨fun hend => absurd hend (outcome_ne_of_beaten hs hawaits hjoins),
          fun hunmoved => absurd hunmoved.1 hjoins⟩
    | false =>
      obtain ⟨_, hs', hview⟩ := hs.next a
      have hawaits' := hawaits.step
      rw [← hview] at hawaits'
      have hnodup' := nodup_support_next hs hnodup ha
      unfold Unmoved
      by_cases hjoins : s.Joins a
      · have hnonempty : (s.next a).resolved = [] → p.add a = (s.next a).support :=
          fun hnil => absurd hnil (next_ne_nil_of_joins hjoins)
        have hstep := ih hs' hadd hnodup' hnonempty hawaits' hrest
        rw [← lend_next_of_joins hjoins] at hstep
        rw [if_pos hjoins]
        exact hstep
      · have hstep := ih hs' hnodup' hnodup' (fun _ => rfl) hawaits' hrest
        rw [lend_support] at hstep
        rw [if_neg hjoins, ← hstep]
        refine ⟨fun hend => ?_, ?_⟩
        · obtain ⟨_, hu', hview'⟩ := (hs.lend p).next a
          have hbares : ((s.lend p).next a).view.bares = (s.next a).view.bares := by
            rw [hview', hview]
            exact Ledger.bares_step_congr (lend_bares s p) a.view
          obtain ⟨n, hn, hn'⟩ := length_conflicts_next (hs.lend p) hs (lend_bares s p) a
          have hle : (s.next a).conflicts.length ≤ ((s.lend p).next a).conflicts.length := by
            rw [hn, hn']
            rfl
          have heq := frozen hu' hs' hbares hle hawaits' hend
          have hshown := support_shown hs hjoins hp hnodup hempty heq
          rw [hshown, lend_support] at hend
          exact ⟨hshown, hend⟩
        · rintro ⟨hshown, hend⟩
          rw [hshown, lend_support]
          exact hend

end Walk

/-! ## The merge -/

variable (as repeats : List Assertion)

def sortArrivals : List (Assertion × Bool) :=
  (as.map (·, false) ++ repeats.map (·, true)).insertionSort fun p q => p.1.sortKey ≤ q.1.sortKey

def RepeatsUnmoved : Prop :=
  Walk.start.Unmoved Walk.start.support (sortArrivals as repeats)

instance (as repeats : List Assertion) : Decidable (RepeatsUnmoved as repeats) :=
  inferInstanceAs (Decidable (Walk.Unmoved _ _ _))

section

variable (as repeats : List Assertion)

theorem map_sortArrivals : (sortArrivals as repeats).map Prod.fst = sortAssertions (as ++ repeats) := by
  have hfst : ∀ (mark : Bool) (l : List Assertion), (l.map fun a => (a, mark)).map Prod.fst = l := by
    intro mark l
    rw [map_map]
    exact map_id l
  unfold sortArrivals sortAssertions
  rw [map_insertionSort _ (fun a b : Assertion => a.sortKey ≤ b.sortKey) Prod.fst _
    fun _ _ _ _ => Iff.rfl]
  rw [map_append, hfst, hfst]

theorem firsts_sortArrivals : firsts (sortArrivals as repeats) = sortAssertions as := by
  have hkept : (as.map (·, false) ++ repeats.map (·, true)).filter (fun p => !p.2) =
      as.map (·, false) := by
    rw [filter_append, filter_eq_self.mpr, filter_eq_nil_iff.mpr, append_nil]
    · intro p hp
      obtain ⟨a, _, rfl⟩ := mem_map.mp hp
      exact Bool.false_ne_true
    · intro p hp
      obtain ⟨a, _, rfl⟩ := mem_map.mp hp
      rfl
  unfold firsts sortArrivals
  rw [filter_insertionSort, hkept]
  have hsame := map_sortArrivals as []
  rw [append_nil] at hsame
  unfold sortArrivals at hsame
  rw [map_nil, append_nil] at hsame
  exact hsame

theorem awaits_sortArrivals (h : repeats ⊆ as) : Awaits .start (sortArrivals as repeats) := by
  have hsorted : (sortArrivals as repeats).Pairwise fun p q => p.1.sortKey ≤ q.1.sortKey :=
    pairwise_insertionSort _ _
  have hmarked : (as.map (·, false) ++ repeats.map (·, true)).Pairwise
      fun p q : Assertion × Bool => p.2 = true → q.2 = true := by
    rw [pairwise_append, pairwise_map, pairwise_map]
    refine ⟨pairwise_of_forall fun _ _ h => h, pairwise_of_forall fun _ _ h => h, ?_⟩
    intro p _ q hq _
    obtain ⟨z, _, rfl⟩ := mem_map.mp hq
    rfl
  refine ⟨hsorted, fun before z after hsplit => .inl ?_⟩
  have hz : (z, true) ∈ sortArrivals as repeats := by
    rw [hsplit]
    exact mem_append_right _ (mem_cons_self ..)
  have hfirst : (z, false) ∈ sortArrivals as repeats := by
    refine (mem_insertionSort _).mpr (mem_append_left _ (mem_map.mpr ⟨z, h ?_, rfl⟩))
    rcases mem_append.mp ((mem_insertionSort _).mp hz) with hz | hz
    · obtain ⟨_, _, heq⟩ := mem_map.mp hz
      exact absurd (congrArg Prod.snd heq) Bool.false_ne_true
    · obtain ⟨y, hy, heq⟩ := mem_map.mp hz
      obtain rfl : y = z := congrArg Prod.fst heq
      exact hy
  -- The first arrival is before the repetition, which it ties with.
  have hstable := pairwise_insertionSort_of_pairwise
    (r := fun p q : Assertion × Bool => p.1.sortKey ≤ q.1.sortKey) hmarked
  change (sortArrivals as repeats).Pairwise _ at hstable
  rw [hsplit] at hfirst hstable
  rcases mem_append.mp hfirst with hbefore | hafter
  · exact hbefore
  rcases mem_cons.mp hafter with heq | hafter
  · exact absurd (congrArg Prod.snd heq) Bool.false_ne_true
  · have hrest := (pairwise_append.mp hstable).2.1
    have hpair := (pairwise_cons.mp hrest).1 _ hafter
    exact absurd (hpair.2 le_rfl rfl) Bool.false_ne_true

theorem mergeAssertions_eq_iff (bs : List Assertion) :
    mergeAssertions bs = mergeAssertions as ↔
      ((sortAssertions bs).foldl Walk.next .start).outcome =
        ((sortAssertions as).foldl Walk.next .start).outcome := by
  unfold mergeAssertions walk
  rw [foldlM_eq_foldl start_sound, foldlM_eq_foldl start_sound]
  unfold Walk.outcome
  change Except.ok _ = Except.ok _ ↔ _
  rw [Except.ok.injEq, IntervalSet.mk.injEq, Prod.mk.injEq, map_reverse, map_reverse,
    reverse_inj]

end

/-- **A replay is a no-op** exactly when every repeated assertion joins the last interval and
leaves no signal id and no precision that the assertions joining it do not bring by themselves. -/
theorem mergeAssertions_replay_iff (hrepeats : repeats ⊆ as)
    (hids : ∀ a ∈ as, a.signalIds.Nodup) :
    mergeAssertions (as ++ repeats) = mergeAssertions as ↔ RepeatsUnmoved as repeats := by
  have hmem : ∀ q ∈ sortArrivals as repeats, q.1.signalIds.Nodup := by
    intro q hq
    rcases mem_append.mp ((mem_insertionSort _).mp hq) with hq | hq
    · obtain ⟨a, ha, rfl⟩ := mem_map.mp hq
      exact hids a ha
    · obtain ⟨a, ha, rfl⟩ := mem_map.mp hq
      exact hids a (hrepeats ha)
  have hunmoved := Walk.unmoved_iff start_sound (p := Walk.start.support) nodup_nil
    nodup_nil (fun _ => rfl) (awaits_sortArrivals as repeats hrepeats) hmem
  rw [mergeAssertions_eq_iff, ← map_sortArrivals, ← firsts_sortArrivals as repeats]
  exact hunmoved

def secReport : Assertion := roleReport "sec" ⟨"'cto'"⟩ firstDecade 1 sec_ne one_in_range

theorem wire_ne : "wire" ≠ "" := by decide

/-- The report that starts with `secReport` and loses. -/
def wireReport : Assertion :=
  roleReport "wire" ⟨"'ceo'"⟩ firstDecade (1 / 2) wire_ne half_in_range

theorem winner_again :
    mergeAssertions ([secReport, wireReport] ++ [secReport]) =
      mergeAssertions [secReport, wireReport] := by
  have hids : ∀ a ∈ [secReport, wireReport], a.signalIds.Nodup := by
    intro a ha
    rcases mem_pair.mp ha with rfl | rfl
    · exact nodup_nil
    · exact nodup_nil
  have hsubset : [secReport] ⊆ [secReport, wireReport] :=
    cons_subset_cons _ (nil_subset _)
  exact (mergeAssertions_replay_iff _ _ hsubset hids).mpr (by decide +kernel)

/-- The loser is recorded once more when it arrives again. -/
theorem loser_again : [wireReport] ⊆ [secReport, wireReport] ∧
    mergeAssertions ([secReport, wireReport] ++ [wireReport]) ≠
      mergeAssertions [secReport, wireReport] := by
  refine ⟨subset_cons_self secReport [wireReport], fun heq => ?_⟩
  have hcounts : (mergeAssertions ([secReport, wireReport] ++ [wireReport])).toOption.map
        (fun s => s.contradictions.length) = some 2 ∧
      (mergeAssertions [secReport, wireReport]).toOption.map
        (fun s => s.contradictions.length) = some 1 := by
    decide +kernel
  rw [heq, hcounts.2] at hcounts
  exact absurd hcounts.1 (by decide)

end OmniSense.Temporal
