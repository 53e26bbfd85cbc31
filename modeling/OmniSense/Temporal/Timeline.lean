import OmniSense.Temporal.History

/-! What a merged history looks like at every instant: the intervals tile without overlap, no
instant is invented, and an instant that is dropped is accounted for by a conflict. -/

namespace OmniSense.Temporal

open List

/-! ## Intervals laid end to end -/

/-- `i` is closed and ends no later than `j` starts. -/
def Interval.Precedes (i j : Interval) : Prop := ∃ e, i.validTo = some e ∧ e ≤ j.validFrom

/-- What the docstring of `IntervalSet` promises of a list of intervals. -/
structure ValidHistory (is : List Interval) : Prop where
  sorted : is.Pairwise fun i j => i.validFrom < j.validFrom
  disjoint : is.Pairwise fun i j => ∀ t, ¬(i.contains t ∧ j.contains t)
  open_last : ∀ pre i post, is = pre ++ i :: post → i.isOpen → post = []
  at_most_one : ∀ t, (is.filter fun i => i.contains t).length ≤ 1

theorem Interval.Precedes.start_lt {i j : Interval} (h : i.Precedes j) :
    i.validFrom < j.validFrom := by
  obtain ⟨e, he, hle⟩ := h
  exact (i.to_reasonable e he).2.trans_le hle

theorem Interval.Precedes.mono {i j k : Interval} (h : i.Precedes j)
    (hle : j.validFrom ≤ k.validFrom) : i.Precedes k := by
  obtain ⟨e, he, hej⟩ := h
  exact ⟨e, he, hej.trans hle⟩

theorem Interval.Precedes.disjoint {i j : Interval} (h : i.Precedes j) (t : ℤ) :
    ¬(i.contains t ∧ j.contains t) := by
  obtain ⟨e, he, hle⟩ := h
  rintro ⟨hi, hj⟩
  rw [Interval.contains_iff] at hi hj
  exact absurd (hi.2 e he) (not_lt.mpr (hle.trans hj.1))

theorem length_filter_le_one {α : Type*} {p : α → Bool} {l : List α}
    (h : l.Pairwise fun a b => ¬(p a = true ∧ p b = true)) : (l.filter p).length ≤ 1 := by
  induction l with
  | nil => simp
  | cons a l ih =>
    obtain ⟨ha, hl⟩ := pairwise_cons.mp h
    by_cases hpa : p a = true
    · have hnone : l.filter p = [] := by
        rw [filter_eq_nil_iff]
        exact fun b hb hpb => ha b hb ⟨hpa, hpb⟩
      simp [hpa, hnone]
    · simpa [filter_cons, hpa] using ih hl

theorem validHistory_of_precedes {is : List Interval} (h : is.Pairwise Interval.Precedes) :
    ValidHistory is where
  sorted := h.imp Interval.Precedes.start_lt
  disjoint := h.imp fun h t => h.disjoint t
  open_last := by
    rintro pre i post rfl hopen
    have htail := (pairwise_cons.mp (pairwise_append.mp h).2.1).1
    cases post with
    | nil => rfl
    | cons j post =>
      obtain ⟨e, he, -⟩ := htail j (mem_cons_self ..)
      rw [hopen] at he
      cases he
  at_most_one t := length_filter_le_one (h.imp fun h => by simpa using h.disjoint t)

/-! ## One step of the ledger -/

namespace Ledger

theorem step_cases (s : Ledger) (c : Claim) :
    (s.epochs = [] ∧ s.step c = { s with epochs := [.of c] }) ∨
    ∃ last older, s.epochs = last :: older ∧
      ((last.Agrees c ∧ s.step c = { s with epochs := last.absorb c :: older }) ∨
       (¬last.Agrees c ∧ ¬last.Contests c ∧
          s.step c = { s with epochs := .of c :: last :: older }) ∨
       (∃ h : last.interval.validFrom < c.interval.validFrom, last.Contests c ∧
          s.step c = ⟨.of c :: last.cut c h :: older, s.conflicts ++ [conflict last c]⟩) ∨
       (¬last.interval.validFrom < c.interval.validFrom ∧ last.Contests c ∧
          c.Outranks last.claim ∧
          s.step c = ⟨.of c :: older, s.conflicts ++ [conflict last c]⟩) ∨
       (¬last.interval.validFrom < c.interval.validFrom ∧ last.Contests c ∧
          ¬c.Outranks last.claim ∧
          s.step c = ⟨last :: older, s.conflicts ++ [conflict last c]⟩)) := by
  obtain ⟨epochs, conflicts⟩ := s
  cases epochs with
  | nil => exact .inl ⟨rfl, rfl⟩
  | cons last older =>
    refine .inr ⟨last, older, rfl, ?_⟩
    by_cases hag : last.Agrees c
    · exact .inl ⟨hag, by simp only [step, hag, if_true]⟩
    refine .inr ?_
    by_cases hcon : last.Contests c
    · refine .inr ?_
      by_cases hlt : last.interval.validFrom < c.interval.validFrom
      · refine .inl ⟨hlt, hcon, ?_⟩
        simp only [step, hag, hcon, not_true_eq_false, if_false, hlt, dite_true]
      · by_cases hr : c.Outranks last.claim
        · refine .inr (.inl ⟨hlt, hcon, hr, ?_⟩)
          simp only [step, hag, hcon, not_true_eq_false, if_false, hlt, dite_false, hr, if_true]
        · refine .inr (.inr ⟨hlt, hcon, hr, ?_⟩)
          simp only [step, hag, hcon, not_true_eq_false, if_false, hlt, dite_false, hr]
    · exact .inl ⟨hag, hcon, by simp only [step, hag, hcon, not_false_eq_true, if_true, if_false]⟩

/-! ## Tiling -/

def Tiled (s : Ledger) : Prop := s.epochs.Pairwise fun newer older =>
  older.interval.Precedes newer.interval

/-- The newest epoch starts no later than `t`. -/
def StartsBy (s : Ledger) (t : ℤ) : Prop := ∀ e ∈ s.epochs.head?, e.interval.validFrom ≤ t

theorem not_overlaps_of_not {last : Epoch} {c : Claim} (hag : ¬last.Agrees c)
    (hcon : ¬last.Contests c) : ¬last.interval.overlaps c.interval := by
  intro hov
  by_cases hfp : last.fingerprint = c.fingerprint
  · exact hag ⟨hfp, .inl hov⟩
  · exact hcon ⟨hfp, hov⟩

theorem precedes_of_not_overlaps {i j : Interval} (h : ¬i.overlaps j)
    (hle : i.validFrom ≤ j.validFrom) : i.Precedes j := by
  rw [Interval.overlaps_iff, not_and_or] at h
  push Not at h
  rcases h with ⟨e, he, hlt⟩ | ⟨e, he, hlt⟩
  · exact absurd (j.to_reasonable e he).2 (not_lt.mpr (hlt.trans hle))
  · exact ⟨e, he, hlt⟩

theorem Tiled.step {s : Ledger} (ht : s.Tiled) {c : Claim} (hs : s.StartsBy c.interval.validFrom) :
    (s.step c).Tiled ∧ (s.step c).StartsBy c.interval.validFrom := by
  rcases s.step_cases c with ⟨-, hstep⟩ | ⟨last, older, hepochs, hcases⟩
  · rw [hstep]
    exact ⟨pairwise_singleton _ _, by simp [StartsBy, Epoch.of]⟩
  have hle : last.interval.validFrom ≤ c.interval.validFrom := hs last (by rw [hepochs]; rfl)
  unfold Tiled at ht
  rw [hepochs] at ht
  obtain ⟨hfirst, hrest⟩ := pairwise_cons.mp ht
  -- Whatever replaces the newest epoch starts between it and the claim.
  have hnew : ∀ e : Epoch, last.interval.validFrom ≤ e.interval.validFrom →
      (e :: older).Pairwise fun newer older => older.interval.Precedes newer.interval :=
    fun e he => pairwise_cons.mpr ⟨fun o ho => Interval.Precedes.mono (hfirst o ho) he, hrest⟩
  rcases hcases with ⟨-, h⟩ | ⟨hag, hcon, h⟩ | ⟨hlt, -, h⟩ | ⟨-, -, -, h⟩ | ⟨-, -, -, h⟩ <;> rw [h]
  · have hmin : (last.absorb c).interval.validFrom = last.interval.validFrom := min_eq_left hle
    exact ⟨hnew _ hmin.ge, by simpa [StartsBy, hmin] using hle⟩
  · refine ⟨pairwise_cons.mpr ⟨?_, ht⟩, by simp [StartsBy, Epoch.of]⟩
    rintro o (_ | ⟨_, ho⟩)
    · exact precedes_of_not_overlaps (not_overlaps_of_not hag hcon) hle
    · exact Interval.Precedes.mono (hfirst o ho) hle
  · refine ⟨pairwise_cons.mpr ⟨?_, hnew _ le_rfl⟩, by simp [StartsBy, Epoch.of]⟩
    rintro o (_ | ⟨_, ho⟩)
    · exact ⟨c.interval.validFrom, rfl, le_rfl⟩
    · exact Interval.Precedes.mono (hfirst o ho) hle
  · exact ⟨hnew _ hle, by simp [StartsBy, Epoch.of]⟩
  · exact ⟨ht, by simpa [StartsBy] using hle⟩

variable {s : Ledger}

theorem Tiled.foldl (ht : s.Tiled) {cs : List Claim}
    (hsorted : cs.Pairwise fun a b => a.interval.validFrom ≤ b.interval.validFrom)
    (hs : ∀ c ∈ cs, s.StartsBy c.interval.validFrom) : (cs.foldl Ledger.step s).Tiled := by
  induction cs generalizing s with
  | nil => exact ht
  | cons c cs ih =>
    obtain ⟨hc, hcs⟩ := pairwise_cons.mp hsorted
    obtain ⟨ht', hs'⟩ := ht.step (hs c (mem_cons_self ..))
    exact ih ht' hcs fun d hd e he => (hs' e he).trans (hc d hd)

/-! ## Coverage -/

def Supported (s : Ledger) (seen : List Claim) : Prop :=
  ∀ e ∈ s.epochs, ∀ t, e.interval.contains t →
    ∃ c ∈ seen, c.fingerprint = e.fingerprint ∧ c.interval.contains t

def Accounted (s : Ledger) (seen : List Claim) : Prop :=
  ∀ c ∈ seen, ∀ t, c.interval.contains t →
    (∃ e ∈ s.epochs, e.interval.contains t) ∨ ∃ k ∈ s.conflicts, k.earlier.interval.contains t

theorem Supported.mono {seen more : List Claim} (h : s.Supported seen)
    (hsub : seen ⊆ more) : s.Supported more := fun e he t ht => by
  obtain ⟨c, hc, hfp, hct⟩ := h e he t ht
  exact ⟨c, hsub hc, hfp, hct⟩

theorem cut_contains {e : Epoch} {c : Claim} {h : e.interval.validFrom < c.interval.validFrom}
    {t : ℤ} (ht : (e.cut c h).interval.contains t)
    (hov : e.interval.overlaps c.interval) : e.interval.contains t := by
  rw [Interval.contains_iff] at ht ⊢
  refine ⟨ht.1, fun x hx => (ht.2 _ rfl).trans ?_⟩
  exact ((Interval.overlaps_iff _ _).mp hov).2 x hx

theorem Supported.step {s : Ledger} {seen : List Claim} (h : s.Supported seen) (c : Claim) :
    (s.step c).Supported (seen ++ [c]) := by
  have hkeep := h.mono (subset_append_left seen [c])
  have hof : ∀ t, (Epoch.of c).interval.contains t →
      ∃ d ∈ seen ++ [c], d.fingerprint = (Epoch.of c).fingerprint ∧ d.interval.contains t :=
    fun t ht => ⟨c, by simp, rfl, ht⟩
  rcases s.step_cases c with ⟨-, hstep⟩ | ⟨last, older, hepochs, hcases⟩
  · rw [hstep]
    exact fun e he t ht => by
      rw [mem_singleton.mp he] at ht ⊢
      exact hof t ht
  unfold Supported at hkeep ⊢
  rw [hepochs, forall_mem_cons] at hkeep
  obtain ⟨hlast, holder⟩ := hkeep
  rcases hcases with ⟨hag, h⟩ | ⟨-, -, h⟩ | ⟨hlt, hcon, h⟩ | ⟨-, -, -, h⟩ | ⟨-, -, -, h⟩ <;> rw [h]
  · refine forall_mem_cons.mpr ⟨fun t ht => ?_, holder⟩
    rcases Interval.contains_of_hull hag.2 ht with ht | ht
    · exact hlast t ht
    · exact ⟨c, by simp, hag.1.symm, ht⟩
  · exact forall_mem_cons.mpr ⟨hof, forall_mem_cons.mpr ⟨hlast, holder⟩⟩
  · exact forall_mem_cons.mpr ⟨hof,
      forall_mem_cons.mpr ⟨fun t ht => hlast t (cut_contains ht hcon.2), holder⟩⟩
  · exact forall_mem_cons.mpr ⟨hof, holder⟩
  · exact forall_mem_cons.mpr ⟨hlast, holder⟩

theorem Accounted.step {s : Ledger} {seen : List Claim} (h : s.Accounted seen) (c : Claim) :
    (s.step c).Accounted (seen ++ [c]) := by
  -- An instant accounted for before a step stays accounted for, whatever became of its epoch.
  have hsplit : ∀ (P : Claim → Prop), (∀ d ∈ seen, P d) → P c → ∀ d ∈ seen ++ [c], P d := by
    intro P hseen hc d hd
    rcases mem_append.mp hd with hd | hd
    · exact hseen d hd
    · rwa [mem_singleton.mp hd]
  rcases s.step_cases c with ⟨hnil, hstep⟩ | ⟨last, older, hepochs, hcases⟩
  · rw [hstep]
    refine hsplit _ (fun d hd t ht => ?_) fun t ht => .inl ⟨.of c, by simp, ht⟩
    exact (h d hd t ht).imp (by simp [hnil]) id
  -- It is enough to place the instants of the newest epoch and of the claim.
  have hplace : ∀ {s' : Ledger}, (∀ k ∈ s.conflicts, k ∈ s'.conflicts) →
      (∀ e ∈ older, e ∈ s'.epochs) →
      (∀ t, last.interval.contains t ∨ c.interval.contains t →
        (∃ e ∈ s'.epochs, e.interval.contains t) ∨
          ∃ k ∈ s'.conflicts, k.earlier.interval.contains t) →
      s'.Accounted (seen ++ [c]) := by
    intro s' hconf hold hnew
    refine hsplit _ (fun d hd t ht => ?_) fun t ht => hnew t (.inr ht)
    rcases h d hd t ht with ⟨e, he, het⟩ | ⟨k, hk, hkt⟩
    · rw [hepochs] at he
      rcases mem_cons.mp he with rfl | he
      · exact hnew t (.inl het)
      · exact .inl ⟨e, hold e he, het⟩
    · exact .inr ⟨k, hconf k hk, hkt⟩
  rcases hcases with ⟨hag, h⟩ | ⟨-, -, h⟩ | ⟨hlt, hcon, h⟩ | ⟨hlt, -, hr, h⟩ | ⟨hlt, -, hr, h⟩ <;>
    rw [h] <;> apply hplace <;> simp only [mem_cons, mem_append]
  · exact fun k hk => hk
  · exact fun e he => .inr he
  · exact fun t ht => .inl ⟨_, .inl rfl, Interval.hull_contains ht⟩
  · exact fun k hk => hk
  · exact fun e he => .inr (.inr he)
  · rintro t (ht | ht)
    · exact .inl ⟨last, .inr (.inl rfl), ht⟩
    · exact .inl ⟨.of c, .inl rfl, ht⟩
  · exact fun k hk => .inl hk
  · exact fun e he => .inr (.inr he)
  · rintro t (ht | ht)
    · exact .inr ⟨_, .inr (.inl rfl), by rwa [conflict, if_pos hlt]⟩
    · exact .inl ⟨.of c, .inl rfl, ht⟩
  · exact fun k hk => .inl hk
  · exact fun e he => .inr he
  · rintro t (ht | ht)
    · exact .inr ⟨_, .inr (.inl rfl), by rwa [conflict, if_neg hlt, if_pos hr]⟩
    · exact .inl ⟨.of c, .inl rfl, ht⟩
  · exact fun k hk => .inl hk
  · exact fun e he => .inr he
  · rintro t (ht | ht)
    · exact .inl ⟨last, .inl rfl, ht⟩
    · exact .inr ⟨_, .inr (.inl rfl), by rwa [conflict, if_neg hlt, if_neg hr]⟩

theorem coverage_foldl (cs : List Claim) {seen : List Claim} (hs : s.Supported seen)
    (ha : s.Accounted seen) :
    (cs.foldl Ledger.step s).Supported (seen ++ cs) ∧
      (cs.foldl Ledger.step s).Accounted (seen ++ cs) := by
  induction cs generalizing s seen with
  | nil => simpa using ⟨hs, ha⟩
  | cons c cs ih => simpa using ih (hs.step c) (ha.step c)

end Ledger

/-! ## The merge -/

variable (as : List Assertion)

theorem sortAssertions_perm : (sortAssertions as).Perm as :=
  perm_insertionSort _ as

theorem sortAssertions_sorted : (sortAssertions as).Pairwise fun a b => a.sortKey ≤ b.sortKey := by
  have : Std.Total fun a b : Assertion => a.sortKey ≤ b.sortKey := ⟨fun _ _ => le_total _ _⟩
  have : IsTrans Assertion fun a b => a.sortKey ≤ b.sortKey := ⟨fun _ _ _ => le_trans⟩
  exact pairwise_insertionSort _ as

theorem Assertion.validFrom_le_of_sortKey_le {a b : Assertion} (h : a.sortKey ≤ b.sortKey) :
    a.interval.validFrom ≤ b.interval.validFrom := by
  rcases Prod.Lex.le_iff.mp h with h | h
  · exact le_of_lt h
  · exact le_of_eq h.1

variable (as : List Assertion)

def ledgerOf : Ledger :=
  ((sortAssertions as).map Assertion.view).foldl Ledger.step .start

def ResolvedInterval.view (r : ResolvedInterval) : Epoch where
  interval := r.interval
  fingerprint := r.properties.fingerprint
  sources := r.sources
  signals := r.signalIds.toFinset
  confidence := r.confidence
  observedFirst := r.observedFirst
  observedLast := r.observedLast
  supersededBy := r.supersededBy

def Epoch.finish (e : Epoch) : Epoch := { e with sources := e.sources.insertionSort (· ≤ ·) }

theorem mergeAssertions_refines : ∃ s, mergeAssertions as = .ok s ∧
      s.intervals.map ResolvedInterval.view = (ledgerOf as).epochs.reverse.map Epoch.finish ∧
      s.contradictions.map Contradiction.view = (ledgerOf as).conflicts := by
  obtain ⟨w, hw, hsound, hview⟩ := walk_refines (sortAssertions as)
  refine ⟨⟨w.resolved.reverse.map Accumulator.finish, w.conflicts⟩, ?_, ?_, ?_⟩
  · rw [mergeAssertions, hw]
    rfl
  · rw [ledgerOf, ← hview]
    simp only [Walk.view, ← map_reverse, map_map]
    refine map_congr_left fun acc hacc => ?_
    have := (hsound acc (mem_reverse.mp hacc)).fingerprint_eq
    simp only [Function.comp_apply, ResolvedInterval.view, Accumulator.finish, Accumulator.view,
      Epoch.finish, this]
  · rw [ledgerOf, ← hview, Walk.view]

theorem ledgerOf_tiled : (ledgerOf as).Tiled := by
  have hstart : Ledger.start.Tiled := List.Pairwise.nil
  refine hstart.foldl ?_ (by simp [Ledger.StartsBy, Ledger.start])
  rw [pairwise_map]
  exact (sortAssertions_sorted as).imp Assertion.validFrom_le_of_sortKey_le

theorem ledgerOf_covered : (ledgerOf as).Supported ((sortAssertions as).map Assertion.view) ∧
      (ledgerOf as).Accounted ((sortAssertions as).map Assertion.view) := by
  have hs : Ledger.start.Supported [] := by simp [Ledger.Supported, Ledger.start]
  have ha : Ledger.start.Accounted [] := by simp [Ledger.Accounted]
  exact Ledger.coverage_foldl ((sortAssertions as).map Assertion.view) hs ha

/-- **Every list of assertions merges, without raising, into a valid history.** -/
theorem mergeAssertions_valid :
    ∃ s, mergeAssertions as = .ok s ∧ ValidHistory (s.intervals.map ResolvedInterval.interval) := by
  obtain ⟨s, hs, hints, -⟩ := mergeAssertions_refines as
  refine ⟨s, hs, ?_⟩
  have h := congrArg (List.map Epoch.interval) hints
  rw [map_map, map_map] at h
  change s.intervals.map ResolvedInterval.interval = _ at h
  rw [h]
  apply validHistory_of_precedes
  rw [pairwise_map, pairwise_reverse]
  exact ledgerOf_tiled as

/-- **The merge neither invents nor silently loses an instant.** -/
theorem mergeAssertions_accounted :
    ∃ s, mergeAssertions as = .ok s ∧ ∀ t,
      (∀ r ∈ s.intervals, r.interval.contains t →
        ∃ a ∈ as, a.fingerprint = r.properties.fingerprint ∧ a.interval.contains t) ∧
      ((∃ a ∈ as, a.interval.contains t) → (∀ r ∈ s.intervals, ¬r.interval.contains t) →
        ∃ k ∈ s.contradictions, k.earlier.interval.contains t) := by
  obtain ⟨s, hs, hints, hconf⟩ := mergeAssertions_refines as
  obtain ⟨hsup, hacc⟩ := ledgerOf_covered as
  refine ⟨s, hs, fun t => ⟨fun r hr hrt => ?_, ?_⟩⟩
  · have hmem := mem_map_of_mem (f := ResolvedInterval.view) hr
    rw [hints] at hmem
    obtain ⟨e, he, heq⟩ := mem_map.mp hmem
    have hint : e.interval = r.interval := congrArg Epoch.interval heq
    have hfpr : e.fingerprint = r.properties.fingerprint := congrArg Epoch.fingerprint heq
    obtain ⟨c, hc, hfp, hct⟩ := hsup e (mem_reverse.mp he) t (hint ▸ hrt)
    obtain ⟨a, ha, rfl⟩ := mem_map.mp hc
    exact ⟨a, (sortAssertions_perm as).mem_iff.mp ha, hfp.trans hfpr, hct⟩
  · rintro ⟨a, ha, hat⟩ hnone
    have hview := mem_map_of_mem (f := Assertion.view) ((sortAssertions_perm as).mem_iff.mpr ha)
    rcases hacc a.view hview t hat with ⟨e, he, het⟩ | ⟨k, hk, hkt⟩
    · have hmem := mem_map_of_mem (f := Epoch.finish) (mem_reverse.mpr he)
      rw [← hints] at hmem
      obtain ⟨r, hr, heq⟩ := mem_map.mp hmem
      have hint : r.interval = e.interval := congrArg Epoch.interval heq
      exact absurd (hint ▸ het) (hnone r hr)
    · rw [← hconf] at hk
      obtain ⟨c, hc, rfl⟩ := mem_map.mp hk
      exact ⟨c, hc, hkt⟩

end OmniSense.Temporal
