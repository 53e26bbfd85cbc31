import Mathlib.Logic.Relation
import OmniSense.Sync.Rounds

/-! Calls of `sync_source` for one stream, again and again, on a repository that no longer changes:
when they get to the end of it. -/

namespace OmniSense.Sync

open Library Listing Relation List World

/-! ## Rounds -/

def World.after (w : World) (seconds : ℕ) : World := { w with now := w.now + seconds }

section

variable (stream : Stream) (maxPages : ℕ) (backfillDays : ℤ)

def Round (w w' : World) : Prop :=
  ∃ seconds : ℕ, w' = syncSource stream maxPages backfillDays (w.after seconds)

def StoresNew (w w' : World) : Prop :=
  ∃ item : Item, item.stream = stream ∧ w.repo.Has item ∧ ¬w.store.Holds item ∧ w'.store.Holds item

def Advances (w w' : World) : Prop :=
  ∃ t, w'.cursors stream = some t ∧ ∀ t' ∈ w.cursors stream, t' < t

/-- Every call that is not complete makes progress; one of them is complete, and what is newer than
where the first one started is stored by then. -/
structure Converges (w : World) : Prop where
  progress : ∀ w₁ w₂, ReflTransGen (Round stream maxPages backfillDays) w w₁ →
    Round stream maxPages backfillDays w₁ w₂ → ¬w₂.Complete stream →
      StoresNew stream w₁ w₂ ∨ Advances stream w₁ w₂
  ends : ∀ W : ℕ → World, W 0 = w → (∀ n, Round stream maxPages backfillDays (W n) (W (n + 1))) →
    ∃ n, (W (n + 1)).Complete stream ∧
      ∀ item : Item, item.stream = stream → w.repo.Has item →
        (w.cursors stream).getD ((W 1).now - backfillDays * 86400) < item.time →
          (W (n + 1)).store.Holds item

end

def Repo.outstanding (repo : Repo) (since : ℤ) : Stream → ℕ
  | .commits => (commitsSince repo since).length
  | .pullRequests | .reviews => (pullsSince repo since).length
  | .ciRuns => (runsSince repo since).length

/-- The walk of a call ends before the page bound, and if there are more pull requests than it reads
the reviews of, those of the first second are not as many. -/
def Repo.Clears (repo : Repo) (maxPages : ℕ) (since : ℤ) (stream : Stream) : Prop :=
  repo.outstanding since stream < maxPages * PER_PAGE ∧
    (stream = .reviews → (pullsSince repo since).length ≤ REVIEW_FANOUT_LIMIT ∨
      (repo.pulls.filter fun p => p.updated = since + 1).length < REVIEW_FANOUT_LIMIT)

instance (repo : Repo) (maxPages : ℕ) (since : ℤ) (stream : Stream) :
    Decidable (repo.Clears maxPages since stream) := inferInstanceAs (Decidable (_ ∧ (_ → _ ∨ _)))

variable {stream : Stream} {maxPages : ℕ} {backfillDays : ℤ} {w w₁ w₂ w₃ : World}

/-! ## Calls -/

theorem firstPages_all {α : Type} {l : List α} (h : l.length < maxPages * PER_PAGE) :
    firstPages maxPages l = l := take_of_length_le h.le

variable {since : ℤ} {p : Pull}

theorem mem_pullsSince {repo : Repo} :
    p ∈ pullsSince repo since ↔ p ∈ repo.pulls ∧ since < p.updated := by
  simp [pullsSince, isOld]

theorem Outcome.congr {complete complete' : Prop} {mark : Option ℤ}
    (h : Outcome w w₁ stream maxPages since complete mark) (hiff : complete ↔ complete') :
    Outcome w w₁ stream maxPages since complete' mark :=
  { h with complete := h.complete.trans hiff }

theorem listing_call (hidle : w.task = none) (hok : w.repo.Ok) (hstream : stream ≠ .reviews)
    {since : ℤ} (hsince : w.since stream backfillDays = since) :
    ∃ mark, Outcome w (syncSource stream maxPages backfillDays w) stream maxPages since
        (w.repo.outstanding since stream < maxPages * PER_PAGE) mark ∧
      (¬w.repo.outstanding since stream < maxPages * PER_PAGE → mark = w.cursors stream) ∧
      (w.repo.outstanding since stream < maxPages * PER_PAGE →
        ∀ item : Item, item.stream = stream → w.repo.Has item → since < item.time →
          w.repo.Reads maxPages since item) := by
  cases stream with
  | commits =>
    refine ⟨_, (syncSource_commits hidle hok maxPages backfillDays hsince).congr
      firstPages_length_lt, fun hbound => if_neg fun h => hbound (firstPages_length_lt.mp h),
      fun hbound item hitem hhas hnew => ?_⟩
    cases item with
    | commit c =>
      rw [Repo.Reads, firstPages_all hbound]
      exact mem_filter.mpr ⟨hhas, decide_eq_true hnew.le⟩
    | pull | review | run => exact absurd hitem (by simp [Item.stream])
  | pullRequests =>
    refine ⟨_, (syncSource_pulls hidle hok maxPages backfillDays hsince).congr
      firstPages_length_lt, fun hbound => if_neg fun h => hbound (firstPages_length_lt.mp h),
      fun hbound item hitem hhas hnew => ?_⟩
    cases item with
    | pull p =>
      rw [Repo.Reads, firstPages_all hbound]
      exact mem_pullsSince.mpr ⟨hhas, hnew⟩
    | commit | review | run => exact absurd hitem (by simp [Item.stream])
  | ciRuns =>
    refine ⟨_, (syncSource_runs hidle hok maxPages backfillDays hsince).congr
      firstPages_length_lt, fun hbound => if_neg fun h => hbound (firstPages_length_lt.mp h),
      fun hbound item hitem hhas hnew => ?_⟩
    cases item with
    | run r =>
      rw [Repo.Reads, firstPages_all hbound]
      exact mem_filter.mpr ⟨hhas, decide_eq_true hnew.le⟩
    | commit | pull | review => exact absurd hitem (by simp [Item.stream])
  | reviews => exact absurd rfl hstream

/-! ## The batch of a call -/

section

variable {repo : Repo} {since : ℤ}

theorem batch_nodup (hok : repo.Ok) : (repo.batch maxPages since).Nodup := by
  have hpulls : (pullsSince repo since).Nodup := hok.pulls.of_map.sublist filter_sublist
  have hsorted := (sortedBy_perm Pull.updated (firstPages maxPages (pullsSince repo since)))
  exact (hsorted.nodup_iff.mpr (hpulls.sublist (take_sublist _ _))).sublist
    (take_sublist _ _)

theorem mem_batch_of_lt (hbound : (pullsSince repo since).length < maxPages * PER_PAGE)
    {p q : Pull} (hp : p ∈ pullsSince repo since) (hq : q ∈ repo.batch maxPages since)
    (hlt : p.updated < q.updated) : p ∈ repo.batch maxPages since :=
  mem_take_sortedBy ((firstPages_all hbound).symm ▸ hp) hq hlt

theorem batch_length (hbound : (pullsSince repo since).length < maxPages * PER_PAGE) :
    (repo.batch maxPages since).length =
      min REVIEW_FANOUT_LIMIT (pullsSince repo since).length := by
  rw [Repo.batch, firstPages_all hbound, length_take, (sortedBy_perm _ _).length_eq]

theorem mem_batch_of_few (hbound : (pullsSince repo since).length < maxPages * PER_PAGE)
    (hfew : (pullsSince repo since).length ≤ REVIEW_FANOUT_LIMIT) {p : Pull} :
    p ∈ repo.batch maxPages since ↔ p ∈ pullsSince repo since := by
  rw [Repo.batch, firstPages_all hbound, take_of_length_le
    ((sortedBy_perm _ _).length_eq.trans_le hfew), (sortedBy_perm _ _).mem_iff]

theorem batch_last {last : Pull} (hlast : (repo.batch maxPages since).getLast? = some last) :
    last ∈ repo.batch maxPages since ∧
      ∀ p ∈ repo.batch maxPages since, p.updated ≤ last.updated := by
  have hmem := mem_of_getLast? hlast
  refine ⟨hmem, fun p hp => ?_⟩
  have hsorted := (sortedBy_sorted Pull.updated (firstPages maxPages
    (pullsSince repo since))).sublist (take_sublist REVIEW_FANOUT_LIMIT _)
  obtain ⟨front, hfront⟩ : ∃ front, repo.batch maxPages since = front ++ [last] :=
    List.getLast?_eq_some_iff.mp hlast
  change (repo.batch maxPages since).Pairwise _ at hsorted
  rw [hfront] at hsorted hp
  rcases mem_append.mp hp with hp | hp
  · exact (pairwise_append.mp hsorted).2.2 p hp last mem_cons_self
  · rw [mem_singleton.mp hp]

theorem exists_last (hbound : (pullsSince repo since).length < maxPages * PER_PAGE)
    (hmany : REVIEW_FANOUT_LIMIT < (pullsSince repo since).length) :
    ∃ last, (repo.batch maxPages since).getLast? = some last := by
  refine Option.ne_none_iff_exists'.mp fun hnone => ?_
  have hlength := batch_length hbound
  rw [List.getLast?_eq_none_iff.mp hnone, min_eq_left hmany.le] at hlength
  exact absurd hlength (by decide)

theorem batch_reach (hok : repo.Ok) (hbound : (pullsSince repo since).length < maxPages * PER_PAGE)
    (hmany : REVIEW_FANOUT_LIMIT < (pullsSince repo since).length) {last : Pull}
    (hlast : (repo.batch maxPages since).getLast? = some last) :
    since + 1 < last.updated ↔
      (repo.pulls.filter fun p => p.updated = since + 1).length < REVIEW_FANOUT_LIMIT := by
  obtain ⟨hin, hnewest⟩ := batch_last hlast
  have hlength : (repo.batch maxPages since).length = REVIEW_FANOUT_LIMIT := by
    rw [batch_length hbound, min_eq_left hmany.le]
  have hsecond : (repo.pulls.filter fun p => p.updated = since + 1).Nodup :=
    hok.pulls.of_map.sublist filter_sublist
  constructor
  · -- Then the whole second is in the batch, and so is the last one.
    intro hlt
    have hsub : ∀ p ∈ last :: repo.pulls.filter (fun p => p.updated = since + 1),
        p ∈ repo.batch maxPages since := by
      intro p hp
      rcases mem_cons.mp hp with rfl | hp
      · exact hin
      · obtain ⟨hp, heq⟩ := mem_filter.mp hp
        have hupdated : p.updated = since + 1 := of_decide_eq_true heq
        exact mem_batch_of_lt hbound (mem_pullsSince.mpr ⟨hp, by omega⟩) hin (by omega)
    have hnodup : (last :: repo.pulls.filter fun p => p.updated = since + 1).Nodup := by
      refine nodup_cons.mpr ⟨fun hmem => ?_, hsecond⟩
      have hupdated : last.updated = since + 1 := of_decide_eq_true (mem_filter.mp hmem).2
      omega
    have hle := (subperm_of_subset hnodup hsub).length_le
    rw [length_cons, hlength] at hle
    exact hle
  · intro hfew
    by_contra hle
    have hsub : ∀ p ∈ repo.batch maxPages since,
        p ∈ repo.pulls.filter fun p => p.updated = since + 1 := by
      intro p hp
      obtain ⟨hmem, hnew⟩ := mem_pullsSince.mp (batch_subset hp)
      have hold := hnewest p hp
      exact mem_filter.mpr ⟨hmem, decide_eq_true (by omega)⟩
    have hle := (subperm_of_subset (batch_nodup hok) hsub).length_le
    omega

end

theorem reviews_call (hidle : w.task = none) (hok : w.repo.Ok) {since : ℤ}
    (hsince : w.since .reviews backfillDays = since) :
    ∃ mark, Outcome w (syncSource .reviews maxPages backfillDays w) .reviews maxPages since
        ((pullsSince w.repo since).length < maxPages * PER_PAGE ∧
          (pullsSince w.repo since).length ≤ REVIEW_FANOUT_LIMIT) mark ∧
      (¬(pullsSince w.repo since).length < maxPages * PER_PAGE → mark = w.cursors .reviews) ∧
      ((pullsSince w.repo since).length < maxPages * PER_PAGE →
        ∀ last ∈ (w.repo.batch maxPages since).getLast?, mark = some (last.updated - 1)) := by
  refine ⟨_, (syncSource_reviews hidle hok maxPages backfillDays hsince).congr ?_,
    fun hbound => if_neg fun h => hbound (firstPages_length_lt.mp h), fun hbound last hlast => ?_⟩
  · rw [firstPages_length_lt]
    refine and_congr_right fun hbound => ?_
    rw [batch_length hbound, firstPages_all hbound]
    omega
  · rw [Option.mem_def.mp hlast]
    exact if_pos (firstPages_length_lt.mpr hbound)

/-! ## Along rounds -/

theorem syncSource_keeps (hidle : w.task = none) (hok : w.repo.Ok) :
    ∃ complete mark, Outcome w (syncSource stream maxPages backfillDays w) stream maxPages
      (w.since stream backfillDays) complete mark := by
  by_cases hstream : stream = .reviews
  · subst hstream
    obtain ⟨mark, hcall, _⟩ := @reviews_call maxPages backfillDays w hidle hok _ rfl
    exact ⟨_, mark, hcall⟩
  · obtain ⟨mark, hcall, _⟩ := @listing_call _ maxPages backfillDays w hidle hok hstream _ rfl
    exact ⟨_, mark, hcall⟩

theorem rounds_keep (hidle : w.task = none) (hok : w.repo.Ok)
    (h : ReflTransGen (Round stream maxPages backfillDays) w w₁) :
    w₁.task = none ∧ w₁.repo = w.repo := by
  induction h with
  | refl => exact ⟨hidle, rfl⟩
  | @tail w₂ _ _ hround ih =>
    obtain ⟨seconds, rfl⟩ := hround
    obtain ⟨_, _, hcall⟩ := @syncSource_keeps stream maxPages backfillDays (w₂.after seconds) ih.1
      (by rw [World.after, ih.2]; exact hok)
    exact ⟨hcall.idle, hcall.repo.trans ih.2⟩

theorem not_progress {complete complete' : Prop} {mark mark' : Option ℤ}
    (h : Outcome w₁ w₂ stream maxPages since complete mark)
    (h' : Outcome (w₂.after 0) w₃ stream maxPages since complete' mark')
    (hmark : mark' = w₂.cursors stream) :
    ¬(StoresNew stream w₂ w₃ ∨ Advances stream w₂ w₃) := by
  rintro (⟨item, hstream, hhas, hnot, hstored⟩ | ⟨t, ht, hlt⟩)
  · have hhas' : w₁.repo.Has item := h.repo ▸ hhas
    rcases (h'.stores item hstream hhas).mp hstored with hread | hheld
    · exact hnot ((h.stores item hstream hhas').mpr (.inl (h.repo ▸ hread)))
    · exact hnot hheld
  · rw [h'.mark, hmark] at ht
    exact lt_irrefl t (hlt t ht)

theorem Converges.clears (h : Converges stream maxPages backfillDays w) (hidle : w.task = none)
    (hok : w.repo.Ok) (hrounds : ReflTransGen (Round stream maxPages backfillDays) w w₁)
    (seconds : ℕ) :
    w₁.repo.Clears maxPages ((w₁.after seconds).since stream backfillDays) stream := by
  obtain ⟨_, hrepo₁⟩ := rounds_keep hidle hok hrounds
  have hidle₁ : (w₁.after seconds).task = none := (rounds_keep hidle hok hrounds).1
  have hok₁ : (w₁.after seconds).repo.Ok := by
    rw [World.after, hrepo₁]
    exact hok
  generalize hsince : (w₁.after seconds).since stream backfillDays = since
  generalize hw₂ : syncSource stream maxPages backfillDays (w₁.after seconds) = w₂
  have hround : Round stream maxPages backfillDays w₁ w₂ := ⟨seconds, hw₂.symm⟩
  by_contra hnot
  -- It is enough that the call leaves the stream incomplete, and asks from the same time again.
  have hstall : ∀ complete complete' mark mark',
      Outcome (w₁.after seconds) w₂ stream maxPages since complete mark →
      Outcome (w₂.after 0) (syncSource stream maxPages backfillDays (w₂.after 0)) stream maxPages
        since complete' mark' → ¬complete' → mark' = w₂.cursors stream → False := by
    intro complete complete' mark mark' hfirst hsecond hincomplete hmark
    exact not_progress hfirst hsecond hmark (h.progress w₂ _ (hrounds.tail hround) ⟨0, rfl⟩
      fun hcomplete => hincomplete (hsecond.complete.mp hcomplete))
  have hok₂ : ∀ {complete : Prop} {mark : Option ℤ},
      Outcome (w₁.after seconds) w₂ stream maxPages since complete mark →
      (w₂.after 0).task = none ∧ (w₂.after 0).repo.Ok ∧ (w₂.after 0).repo = w₁.repo :=
    fun hcall => ⟨hcall.idle, hcall.repo.symm ▸ hok₁, hcall.repo⟩
  -- An unmoved watermark asks from the same time again.
  have hagain : ∀ {complete : Prop}, Outcome (w₁.after seconds) w₂ stream maxPages since complete
      (w₁.cursors stream) → (w₂.after 0).since stream backfillDays = since := by
    intro complete hcall
    have hnow := hcall.now
    rw [World.since, World.after, hcall.mark, hnow, ← hsince]
    simp [World.since, World.after]
  by_cases hreviews : stream = .reviews
  · subst hreviews
    obtain ⟨mark, hcall, hstays, hmoves⟩ := @reviews_call maxPages backfillDays _ hidle₁ hok₁ _ hsince
    rw [hw₂] at hcall
    obtain ⟨hidle₂, hok₂, hrepo₂⟩ := hok₂ hcall
    by_cases hbound : (pullsSince w₁.repo since).length < maxPages * PER_PAGE
    · -- The batch does not get past the first second.
      have hmany : REVIEW_FANOUT_LIMIT < (pullsSince w₁.repo since).length := by
        by_contra hfew
        exact hnot ⟨hbound, fun _ => .inl (not_lt.mp hfew)⟩
      have hfull : ¬(w₁.repo.pulls.filter fun p => p.updated = since + 1).length <
          REVIEW_FANOUT_LIMIT := fun hfew => hnot ⟨hbound, fun _ => .inr hfew⟩
      obtain ⟨last, hlast⟩ := exists_last hbound hmany
      have hnew := (mem_pullsSince.mp (batch_subset (batch_last hlast).1)).2
      have hreach := mt (batch_reach hok₁ hbound hmany hlast).mp hfull
      have hupdated : last.updated - 1 = since := by omega
      have hmark := hmoves hbound last hlast
      rw [hupdated] at hmark
      subst hmark
      have hsince₂ : (w₂.after 0).since .reviews backfillDays = since := by
        rw [World.since, World.after, hcall.mark]
        rfl
      obtain ⟨mark', hcall', _, hmoves'⟩ :=
        @reviews_call maxPages backfillDays _ hidle₂ hok₂ _ hsince₂
      rw [hrepo₂] at hcall' hmoves'
      refine hstall _ _ _ _ hcall hcall' (fun h => absurd h.2 (not_le.mpr hmany)) ?_
      rw [hmoves' hbound last hlast, hupdated, hcall.mark]
    · obtain rfl := hstays hbound
      obtain ⟨mark', hcall', hstays', _⟩ :=
        @reviews_call maxPages backfillDays _ hidle₂ hok₂ _ (hagain hcall)
      rw [hrepo₂] at hcall' hstays'
      exact hstall _ _ _ _ hcall hcall' (fun h => hbound h.1) (hstays' hbound)
  · have hbound : ¬w₁.repo.outstanding since stream < maxPages * PER_PAGE := fun hbound =>
      hnot ⟨hbound, fun heq => absurd heq hreviews⟩
    obtain ⟨mark, hcall, hstays, _⟩ :=
      @listing_call _ maxPages backfillDays _ hidle₁ hok₁ hreviews _ hsince
    rw [hw₂] at hcall
    obtain rfl := hstays hbound
    obtain ⟨hidle₂, hok₂, hrepo₂⟩ := hok₂ hcall
    obtain ⟨mark', hcall', hstays', _⟩ :=
      @listing_call _ maxPages backfillDays _ hidle₂ hok₂ hreviews _ (hagain hcall)
    rw [hrepo₂] at hcall' hstays'
    exact hstall _ _ _ _ hcall hcall' hbound (hstays' hbound)

/-! ## Reviews behind the fifth page -/

theorem held_of_rounds (hidle : w.task = none) (hok : w.repo.Ok)
    (h : ReflTransGen (Round .reviews maxPages backfillDays) w w₁) {review : Review}
    (hp : p ∈ w.repo.pulls)
    (hdeep : review ∈ (w.repo.reviewsOf p.number).drop (REVIEW_PAGES * PER_PAGE))
    (hheld : w₁.store.Holds (.review p review)) : w.store.Holds (.review p review) := by
  have hunread : review ∉ firstPages REVIEW_PAGES (w.repo.reviewsOf p.number) := by
    intro hread
    have hnodup := (hok.distinct p.number).of_map
    rw [← take_append_drop (REVIEW_PAGES * PER_PAGE) (w.repo.reviewsOf p.number)] at hnodup
    exact (nodup_append.mp hnodup).2.2 review hread review hdeep rfl
  induction h with
  | refl => exact hheld
  | @tail w₂ _ hrounds hround ih =>
    obtain ⟨seconds, rfl⟩ := hround
    have hrepo : w₂.repo = w.repo := (rounds_keep hidle hok hrounds).2
    obtain ⟨_, _, hcall⟩ := @syncSource_keeps .reviews maxPages backfillDays (w₂.after seconds)
      (rounds_keep hidle hok hrounds).1 (by rw [World.after, hrepo]; exact hok)
    have hhas : (w₂.after seconds).repo.Has (.review p review) :=
      hrepo.symm ▸ ⟨hp, mem_of_mem_drop hdeep⟩
    rcases (hcall.stores (.review p review) rfl hhas).mp hheld with hread | hheld
    · exact absurd (hrepo ▸ hread.2) hunread
    · exact ih hheld

def World.again (w : World) (stream : Stream) (maxPages : ℕ) (backfillDays : ℤ) : ℕ → World
  | 0 => w
  | n + 1 => syncSource stream maxPages backfillDays ((w.again stream maxPages backfillDays n).after 0)

theorem round_again (w : World) (n : ℕ) : Round stream maxPages backfillDays
    (w.again stream maxPages backfillDays n) (w.again stream maxPages backfillDays (n + 1)) :=
  ⟨0, rfl⟩

theorem rounds_again (w : World) (n : ℕ) : ReflTransGen (Round stream maxPages backfillDays) w
    (w.again stream maxPages backfillDays n) := by
  induction n with
  | zero => exact .refl
  | succ n ih => exact ih.tail (round_again w n)

theorem Converges.deep (h : Converges .reviews maxPages backfillDays w) (hidle : w.task = none)
    (hok : w.repo.Ok) (hp : p ∈ w.repo.pulls)
    (hnew : w.since .reviews backfillDays < p.updated) {review : Review}
    (hdeep : review ∈ (w.repo.reviewsOf p.number).drop (REVIEW_PAGES * PER_PAGE)) :
    w.store.Holds (.review p review) := by
  obtain ⟨n, _, hstored⟩ := h.ends (w.again .reviews maxPages backfillDays) rfl (round_again w)
  obtain ⟨_, _, hcall⟩ := @syncSource_keeps .reviews maxPages backfillDays (w.after 0) hidle hok
  have hnow : (w.again .reviews maxPages backfillDays 1).now = w.now :=
    hcall.now.trans (add_zero _)
  refine held_of_rounds hidle hok (rounds_again w (n + 1)) hp hdeep
    (hstored (.review p review) rfl ⟨hp, mem_of_mem_drop hdeep⟩ ?_)
  rw [hnow]
  exact hnew

/-! ## Calls that clear -/

def ClearsAlways (stream : Stream) (maxPages : ℕ) (backfillDays : ℤ) (w : World) : Prop :=
  ∀ w₁, ReflTransGen (Round stream maxPages backfillDays) w w₁ → ∀ seconds,
    w₁.repo.Clears maxPages ((w₁.after seconds).since stream backfillDays) stream

theorem reviews_step (hidle : w.task = none) (hok : w.repo.Ok)
    (hsince : w.since .reviews backfillDays = since)
    (hclears : w.repo.Clears maxPages since .reviews)
    (hw₁ : syncSource .reviews maxPages backfillDays w = w₁) :
    (w₁.Complete .reviews ∧ ∀ p ∈ w.repo.pulls, since < p.updated →
      ∀ review ∈ firstPages REVIEW_PAGES (w.repo.reviewsOf p.number),
        w₁.store.Holds (.review p review)) ∨
    ∃ next, since < next ∧ w₁.cursors .reviews = some next ∧
      (∃ p ∈ w.repo.pulls, next < p.updated) ∧
      ∀ p ∈ w.repo.pulls, since < p.updated → p.updated ≤ next →
        ∀ review ∈ firstPages REVIEW_PAGES (w.repo.reviewsOf p.number),
          w₁.store.Holds (.review p review) := by
  obtain ⟨hbound, hsecond⟩ := hclears
  obtain ⟨mark, hcall, _, hmoves⟩ := @reviews_call maxPages backfillDays w hidle hok _ hsince
  rw [hw₁] at hcall
  have hreads : ∀ p ∈ w.repo.batch maxPages since,
      ∀ review ∈ firstPages REVIEW_PAGES (w.repo.reviewsOf p.number),
        w₁.store.Holds (.review p review) := fun p hp review hreview =>
    (hcall.stores (.review p review) rfl ⟨mem_of_mem_filter (batch_subset hp),
      mem_of_mem_take hreview⟩).mpr (.inl ⟨hp, hreview⟩)
  by_cases hfew : (pullsSince w.repo since).length ≤ REVIEW_FANOUT_LIMIT
  · exact .inl ⟨hcall.complete.mpr ⟨hbound, hfew⟩, fun p hp hnew =>
      hreads p ((mem_batch_of_few hbound hfew).mpr (mem_pullsSince.mpr ⟨hp, hnew⟩))⟩
  · obtain ⟨last, hlast⟩ := exists_last hbound (not_le.mp hfew)
    have hin := (batch_last hlast).1
    have hreach := (batch_reach hok hbound (not_le.mp hfew) hlast).mpr
      ((hsecond rfl).resolve_left hfew)
    refine .inr ⟨last.updated - 1, by omega, hcall.mark.trans (hmoves hbound last hlast),
      ⟨last, mem_of_mem_filter (batch_subset hin), by omega⟩, fun p hp hnew hold => ?_⟩
    exact hreads p (mem_batch_of_lt hbound (mem_pullsSince.mpr ⟨hp, hnew⟩) hin (by omega))

theorem progress_of_clears (hidle : w.task = none) (hok : w.repo.Ok)
    (hclears : ClearsAlways stream maxPages backfillDays w)
    (hrounds : ReflTransGen (Round stream maxPages backfillDays) w w₁)
    (hround : Round stream maxPages backfillDays w₁ w₂) (hincomplete : ¬w₂.Complete stream) :
    Advances stream w₁ w₂ := by
  obtain ⟨seconds, rfl⟩ := hround
  have hclear := hclears w₁ hrounds seconds
  have hidle₁ : (w₁.after seconds).task = none := (rounds_keep hidle hok hrounds).1
  have hok₁ : (w₁.after seconds).repo.Ok := by
    rw [World.after, (rounds_keep hidle hok hrounds).2]
    exact hok
  by_cases hreviews : stream = .reviews
  · subst hreviews
    rcases reviews_step hidle₁ hok₁ rfl hclear rfl with ⟨hcomplete, _⟩ | ⟨next, hlt, hmark, _⟩
    · exact absurd hcomplete hincomplete
    · refine ⟨next, hmark, fun t ht => ?_⟩
      have hsince : (w₁.after seconds).since .reviews backfillDays = t := by
        rw [World.since, World.after, Option.mem_def.mp ht]
        rfl
      exact hsince ▸ hlt
  · obtain ⟨mark, hcall, _⟩ := @listing_call _ maxPages backfillDays _ hidle₁ hok₁ hreviews _ rfl
    exact absurd (hcall.complete.mpr hclear.1) hincomplete

theorem holds_of_round (hidle : w.task = none) (hok : w.repo.Ok)
    (hround : Round stream maxPages backfillDays w w₁) {item : Item} (hstream : item.stream = stream)
    (hhas : w.repo.Has item) (hheld : w.store.Holds item) : w₁.store.Holds item := by
  obtain ⟨seconds, rfl⟩ := hround
  obtain ⟨_, _, hcall⟩ := @syncSource_keeps stream maxPages backfillDays (w.after seconds) hidle hok
  exact (hcall.stores item hstream hhas).mpr (.inr hheld)

theorem holds_of_rounds (hidle : w.task = none) (hok : w.repo.Ok)
    (h : ReflTransGen (Round stream maxPages backfillDays) w w₁) {item : Item}
    (hstream : item.stream = stream) (hhas : w.repo.Has item) (hheld : w.store.Holds item) :
    w₁.store.Holds item := by
  induction h with
  | refl => exact hheld
  | tail hrounds hround ih =>
    obtain ⟨hidle₁, hrepo₁⟩ := rounds_keep hidle hok hrounds
    exact holds_of_round hidle₁ (hrepo₁.symm ▸ hok) hround hstream (hrepo₁.symm ▸ hhas) ih

section

variable {W : ℕ → World}

theorem rounds_to (hstart : W 0 = w)
    (hround : ∀ n, Round stream maxPages backfillDays (W n) (W (n + 1))) (n : ℕ) :
    ReflTransGen (Round stream maxPages backfillDays) w (W n) := by
  induction n with
  | zero => exact hstart ▸ .refl
  | succ n ih => exact ih.tail (hround n)

theorem since_of_round {seconds : ℕ} (hidle : w.task = none) (hok : w.repo.Ok)
    (hw₁ : w₁ = syncSource stream maxPages backfillDays (w.after seconds)) :
    (w.after seconds).since stream backfillDays =
      (w.cursors stream).getD (w₁.now - backfillDays * 86400) := by
  obtain ⟨_, _, hcall⟩ := @syncSource_keeps stream maxPages backfillDays (w.after seconds) hidle hok
  rw [hw₁, hcall.now]
  rfl

theorem reviews_end (hidle : w.task = none) (hok : w.repo.Ok)
    (hclears : ClearsAlways .reviews maxPages backfillDays w) {start : ℤ}
    (hdeep : ∀ p ∈ w.repo.pulls, start < p.updated →
      ∀ review ∈ (w.repo.reviewsOf p.number).drop (REVIEW_PAGES * PER_PAGE),
        w.store.Holds (.review p review))
    (hstart : W 0 = w) (hround : ∀ n, Round .reviews maxPages backfillDays (W n) (W (n + 1)))
    {top : ℤ} (htop : ∀ p ∈ w.repo.pulls, p.updated ≤ top) (k n : ℕ) {since : ℤ}
    (hsince : ((W n).cursors .reviews).getD ((W (n + 1)).now - backfillDays * 86400) = since)
    (hk : (top - since).toNat ≤ k)
    (hread : ∀ p ∈ w.repo.pulls, start < p.updated → p.updated ≤ since →
      ∀ review ∈ w.repo.reviewsOf p.number, (W n).store.Holds (.review p review)) :
    ∃ n, (W (n + 1)).Complete .reviews ∧ ∀ p ∈ w.repo.pulls, start < p.updated →
      ∀ review ∈ w.repo.reviewsOf p.number, (W (n + 1)).store.Holds (.review p review) := by
  induction k using Nat.strong_induction_on generalizing n since with
  | _ k ih =>
    have hrounds := rounds_to hstart hround
    obtain ⟨hidleₙ, hrepoₙ⟩ := rounds_keep hidle hok (hrounds n)
    have hokₙ : (W n).repo.Ok := hrepoₙ.symm ▸ hok
    obtain ⟨seconds, hcall⟩ := hround n
    rw [← since_of_round hidleₙ hokₙ hcall] at hsince
    have hclear := hclears (W n) (hrounds n) seconds
    rw [hsince] at hclear
    -- What is behind the fifth page was stored from the start.
    have hstored : ∀ p ∈ w.repo.pulls, start < p.updated → since < p.updated →
        (∀ review ∈ firstPages REVIEW_PAGES ((W n).repo.reviewsOf p.number),
          (W (n + 1)).store.Holds (.review p review)) →
        ∀ review ∈ w.repo.reviewsOf p.number, (W (n + 1)).store.Holds (.review p review) := by
      intro p hp hnew hsince hfirst review hreview
      rw [← take_append_drop (REVIEW_PAGES * PER_PAGE) (w.repo.reviewsOf p.number)] at hreview
      rcases mem_append.mp hreview with hin | hin
      · exact hfirst review (hrepoₙ.symm ▸ hin)
      · exact holds_of_rounds hidle hok (hrounds (n + 1)) rfl ⟨hp, mem_of_mem_drop hin⟩
          (hdeep p hp hnew review hin)
    have hkept : ∀ p ∈ w.repo.pulls, start < p.updated → p.updated ≤ since →
        ∀ review ∈ w.repo.reviewsOf p.number, (W (n + 1)).store.Holds (.review p review) :=
      fun p hp hnew hold review hreview => holds_of_round hidleₙ hokₙ (hround n) rfl
        (hrepoₙ.symm ▸ ⟨hp, hreview⟩) (hread p hp hnew hold review hreview)
    rcases reviews_step (w := (W n).after seconds) hidleₙ hokₙ hsince hclear hcall.symm with
      ⟨hcomplete, hreads⟩ | ⟨next, hlt, hmark, ⟨newest, hnewest, hbehind⟩, hreads⟩
    · refine ⟨n, hcomplete, fun p hp hnew => ?_⟩
      by_cases hold : p.updated ≤ since
      · exact hkept p hp hnew hold
      · exact hstored p hp hnew (not_le.mp hold) (hreads p (hrepoₙ.symm ▸ hp) (not_le.mp hold))
    · have hnext : ((W (n + 1)).cursors .reviews).getD
          ((W (n + 1 + 1)).now - backfillDays * 86400) = next := by
        rw [hmark]
        rfl
      have htop' := htop newest (hrepoₙ ▸ hnewest)
      refine ih (top - next).toNat (by omega) (n + 1) hnext le_rfl fun p hp hnew hold => ?_
      by_cases hold' : p.updated ≤ since
      · exact hkept p hp hnew hold'
      · exact hstored p hp hnew (not_le.mp hold')
          (hreads p (hrepoₙ.symm ▸ hp) (not_le.mp hold') hold)

end

theorem exists_top (pulls : List Pull) : ∃ top : ℤ, ∀ p ∈ pulls, p.updated ≤ top := by
  induction pulls with
  | nil => exact ⟨0, fun _ hp => absurd hp not_mem_nil⟩
  | cons p pulls ih =>
    obtain ⟨top, htop⟩ := ih
    refine ⟨max p.updated top, fun q hq => ?_⟩
    rcases mem_cons.mp hq with rfl | hq
    · exact le_max_left _ _
    · exact (htop q hq).trans (le_max_right _ _)

def DeepStored (backfillDays : ℤ) (w : World) : Prop :=
  ∀ p ∈ w.repo.pulls, w.since .reviews backfillDays < p.updated →
    ∀ review ∈ (w.repo.reviewsOf p.number).drop (REVIEW_PAGES * PER_PAGE),
      w.store.Holds (.review p review)

theorem ends_of_clears (hidle : w.task = none) (hok : w.repo.Ok)
    (hclears : ClearsAlways stream maxPages backfillDays w)
    (hdeep : stream = .reviews → DeepStored backfillDays w) {W : ℕ → World} (hstart : W 0 = w)
    (hround : ∀ n, Round stream maxPages backfillDays (W n) (W (n + 1))) :
    ∃ n, (W (n + 1)).Complete stream ∧
      ∀ item : Item, item.stream = stream → w.repo.Has item →
        (w.cursors stream).getD ((W 1).now - backfillDays * 86400) < item.time →
          (W (n + 1)).store.Holds item := by
  subst hstart
  obtain ⟨seconds, hcall⟩ := hround 0
  have hsince := since_of_round hidle hok hcall
  by_cases hreviews : stream = .reviews
  · subst hreviews
    have hlater : (W 0).since .reviews backfillDays ≤
        ((W 0).cursors .reviews).getD ((W 1).now - backfillDays * 86400) := by
      rw [← hsince, World.since, World.since, World.after]
      cases (W 0).cursors .reviews with
      | none => simp
      | some t => exact le_rfl
    obtain ⟨top, htop⟩ := exists_top (W 0).repo.pulls
    obtain ⟨n, hcomplete, hstored⟩ := reviews_end hidle hok hclears
      (fun p hp hnew => hdeep rfl p hp (hlater.trans_lt hnew)) rfl hround htop _ 0 rfl le_rfl
      fun p _ hnew hold => absurd hold (not_le.mpr hnew)
    refine ⟨n, hcomplete, fun item hstream hhas hnew => ?_⟩
    cases item with
    | review p review => exact hstored p hhas.1 hnew review hhas.2
    | commit | pull | run => exact absurd hstream (by simp [Item.stream])
  · obtain ⟨mark, houtcome, _, hreads⟩ := @listing_call _ maxPages backfillDays
      ((W 0).after seconds) hidle hok hreviews _ hsince
    rw [← hcall] at houtcome
    have hclear := (hclears (W 0) .refl seconds).1
    rw [hsince] at hclear
    exact ⟨0, houtcome.complete.mpr hclear, fun item hstream hhas hnew =>
      (houtcome.stores item hstream hhas).mpr (.inl (hreads hclear item hstream hhas hnew))⟩

/-- Repeated calls get to the end exactly if none of them can stall. -/
theorem converges_iff (hidle : w.task = none) (hok : w.repo.Ok) :
    Converges stream maxPages backfillDays w ↔
      ClearsAlways stream maxPages backfillDays w ∧
        (stream = .reviews → DeepStored backfillDays w) := by
  constructor
  · refine fun h => ⟨fun w₁ hrounds seconds => h.clears hidle hok hrounds seconds, ?_⟩
    rintro rfl p hp hnew review hreview
    exact h.deep hidle hok hp hnew hreview
  · rintro ⟨hclears, hdeep⟩
    exact ⟨fun w₁ w₂ hrounds hround hincomplete =>
        .inr (progress_of_clears hidle hok hclears hrounds hround hincomplete),
      fun W hstart hround => ends_of_clears hidle hok hclears hdeep hstart hround⟩

theorem repo_ok {now : ℤ} {es : List Event} (hrun : runs step (initial now) es = some w) :
    w.repo.Ok := by
  have hinitial : (initial now).repo.Ok :=
    ⟨.nil, .nil, .nil, fun _ _ h => absurd h not_mem_nil, fun _ => .nil, .nil⟩
  have key : w.repo.Ok ∧ ∀ p ∈ w.repo.pulls, p.updated ≤ w.now := by
    refine runs_invariant (I := fun w => w.repo.Ok ∧ ∀ p ∈ w.repo.pulls, p.updated ≤ w.now)
      (fun w e w' hI hstep => ?_) ⟨hinitial, fun _ h => absurd h not_mem_nil⟩ hrun
    rcases (step_moves hstep).repo with ⟨change, hchange, hnow⟩ | ⟨hrepo, hnow⟩
    · rw [hnow]
      exact hI.1.change hI.2 hchange
    · rw [hrepo]
      exact ⟨hI.1, fun p hp => (hI.2 p hp).trans hnow⟩
  exact key.1

def twoPulls : World :=
  { initial 100 with
    repo := ⟨[], [⟨2, 60, 1⟩, ⟨1, 50, 0⟩], fun n => [⟨(n, 0), 0⟩], [], 2⟩ }

theorem converges_twoPulls : Converges .reviews 1 90 twoPulls := by
  have hok : twoPulls.repo.Ok := by
    refine ⟨by decide, by decide, by decide, ?_, ?_, by decide⟩ <;> simp [twoPulls]
  refine (converges_iff rfl hok).mpr ⟨fun w₁ hrounds seconds => ?_, fun _ p hp _ review hreview => ?_⟩
  · rw [(rounds_keep rfl hok hrounds).2]
    have hfew : ∀ since, (pullsSince twoPulls.repo since).length ≤ 2 := fun _ =>
      length_filter_le _ _
    exact ⟨(hfew _).trans_lt (by decide), fun _ => .inl ((hfew _).trans (by decide))⟩
  · exact absurd hreview (by simp [twoPulls, REVIEW_PAGES, PER_PAGE])

def crowdedSecond : World :=
  { initial 86400 with
    repo := ⟨[], (List.range 151).map fun n => ⟨n, 1, n⟩, fun n => [⟨(n, 0), 0⟩], [], 151⟩ }

theorem crowdedSecond_updated (hp : p ∈ crowdedSecond.repo.pulls) : p.updated = 1 := by
  obtain ⟨n, -, rfl⟩ := mem_map.mp hp
  rfl

theorem crowdedSecond_ok : crowdedSecond.repo.Ok := by
  refine ⟨by decide, ?_, ?_, ?_, ?_, by decide⟩
  · have hnumbers : crowdedSecond.repo.pulls.map Pull.number = List.range 151 := by
      simp [crowdedSecond, Function.comp_def]
    rw [hnumbers]
    exact nodup_range
  · exact pairwise_of_forall_mem_list fun a ha b hb =>
      (crowdedSecond_updated hb).trans_le (crowdedSecond_updated ha).ge
  all_goals simp [crowdedSecond]

theorem crowded_second_stalls : ¬Converges .reviews 2 1 crowdedSecond := by
  intro h
  have hlength : crowdedSecond.repo.pulls.length = 151 :=
    (length_map _).trans length_range
  rcases (h.clears rfl crowdedSecond_ok .refl 0).2 rfl with hfew | hfirst
  · have hall : pullsSince crowdedSecond.repo 0 = crowdedSecond.repo.pulls :=
      filter_eq_self.mpr fun p hp => by simp [isOld, crowdedSecond_updated hp]
    have hfew : (pullsSince crowdedSecond.repo 0).length ≤ REVIEW_FANOUT_LIMIT := hfew
    rw [hall, hlength] at hfew
    exact absurd hfew (by decide)
  · have hall : crowdedSecond.repo.pulls.filter (fun p => p.updated = 0 + 1) =
        crowdedSecond.repo.pulls :=
      filter_eq_self.mpr fun p hp => by simp [crowdedSecond_updated hp]
    have hfirst : (crowdedSecond.repo.pulls.filter fun p => p.updated = 0 + 1).length <
        REVIEW_FANOUT_LIMIT := hfirst
    rw [hall, hlength] at hfirst
    exact absurd hfirst (by decide)

end OmniSense.Sync
