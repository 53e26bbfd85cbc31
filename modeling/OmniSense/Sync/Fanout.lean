import OmniSense.Sync.Streams

/-! Reviews: what the walk over the changed pull requests and the reading of their reviews, one
after the other, keep of what the watermark promises. -/

namespace OmniSense.Sync

open Library Listing List Option

/-- What the repository and the store hold of reviews, the watermarks, and the two loops of
`_sync_reviews`. -/
structure Reviewed where
  pulls : List Pull
  reviewsOf : ℕ → List Review
  store : ℕ × ℕ → Option Review
  mark : Option ℤ
  loaded : Option ℤ
  pass : Option (Pass Pull)
  fan : Option Fan

def World.reviewed (w : World) : Reviewed :=
  ⟨w.repo.pulls, w.repo.reviewsOf, w.store.reviews, w.cursors .reviews, w.loaded .reviews,
    w.changedPass, w.fan⟩

namespace Reviewed

variable (v : Reviewed)

def changed : View Pull ℕ := ⟨v.pulls, fun _ => none, v.mark, v.loaded, v.pass⟩

def KeptUpTo (t : ℤ) : Prop :=
  ∀ p ∈ v.pulls, p.updated ≤ t → ∀ review ∈ v.reviewsOf p.number,
    v.store review.nodeId = some review

/-- The fan-out took its batch at `start`, out of what had changed since `since`, and the batch
reaches to `reach`. -/
structure FanOk (fan : Fan) (since reach start : ℤ) : Prop where
  kept : v.KeptUpTo since
  since_lt : since < start
  reach_le : reach ≤ start
  mark : ∀ t ∈ v.mark, t < start
  loaded : ∀ t ∈ v.loaded, t < start
  waiting : ∀ p ∈ fan.waiting, p.updated ≤ reach
  watermark : ∀ t ∈ fan.watermark, t ≤ reach
  inflight : ∀ p ∈ v.pulls, p.updated < start → ∀ review ∈ fan.artifacts ++ fan.walk.items,
    review.nodeId.1 = p.number → review ∈ v.reviewsOf p.number
  front : ∀ p ∈ fan.waiting.head?, p ∈ v.pulls → p.updated < start →
    fan.walk.items = (v.reviewsOf p.number).take fan.walk.offset
  covers : fan.walkComplete = true → ∀ p ∈ v.pulls, since < p.updated → p.updated < reach →
    p ∈ fan.waiting ∨ ∀ review ∈ v.reviewsOf p.number,
      save Review.nodeId fan.artifacts v.store review.nodeId = some review

end Reviewed

structure ReviewsOk (now : ℤ) (v : Reviewed) : Prop where
  past : Past Pull.updated now v.changed
  owner : ∀ n, ∀ review ∈ v.reviewsOf n, review.nodeId.1 = n
  distinct : ∀ n, ((v.reviewsOf n).map Review.nodeId).Nodup
  mark : ∀ t ∈ v.mark, v.KeptUpTo t
  loaded : ∀ t ∈ v.loaded, v.KeptUpTo t
  kept : ∀ pass ∈ v.pass, v.KeptUpTo pass.since
  pass : ∀ pass ∈ v.pass, PassOk Pull.number Pull.updated Pull.updated pass.bound
    (v.pulls.filter fun p => !isOld pass.since p) pass.walk
  fan : ∀ fan ∈ v.fan, ∃ since reach start, start ≤ now ∧ v.FanOk fan since reach start

namespace Reviewed.FanOk

variable {v : Reviewed} {fan : Fan} {since reach start : ℤ}

theorem sole (h : v.FanOk fan since reach start)
    (howner : ∀ n, ∀ review ∈ v.reviewsOf n, review.nodeId.1 = n)
    (hdistinct : ∀ n, ((v.reviewsOf n).map Review.nodeId).Nodup) {p : Pull} (hp : p ∈ v.pulls)
    (hlt : p.updated < start) {review : Review} (hreview : review ∈ v.reviewsOf p.number) :
    Sole Review.nodeId (fan.artifacts ++ fan.walk.items) review := by
  intro other hother heq
  have hnumber : other.nodeId.1 = p.number := by
    rw [heq]
    exact howner _ review hreview
  exact inj_on_of_nodup_map (hdistinct p.number) (h.inflight p hp hlt other hother hnumber)
    hreview heq

theorem read (h : v.FanOk fan since reach start)
    (howner : ∀ n, ∀ review ∈ v.reviewsOf n, review.nodeId.1 = n) {p : Pull}
    (hfront : fan.waiting.head? = some p) (size : ℕ) :
    v.FanOk { fan with walk := fan.walk.read (v.reviewsOf p.number) size fun _ => false }
      since reach start := by
  have hitems : (fan.walk.read (v.reviewsOf p.number) size fun _ => false).items =
      fan.walk.items ++ ((v.reviewsOf p.number).drop fan.walk.offset).take size :=
    congrArg (fan.walk.items ++ ·) (takeWhile_eq_self_iff.mpr fun _ _ => rfl)
  refine { h with inflight := ?_, front := ?_ }
  · intro q hq hlt review hreview hnumber
    rw [hitems, ← append_assoc] at hreview
    rcases mem_append.mp hreview with hreview | hpage
    · exact h.inflight q hq hlt review hreview hnumber
    · have hmem := mem_of_mem_drop (mem_of_mem_take hpage)
      rwa [← hnumber, howner _ review hmem]
  · intro q hq hmem hlt
    obtain rfl : p = q := Option.some.inj (hfront.symm.trans hq)
    rw [hitems, h.front p hfront hmem hlt]
    exact take_add.symm

theorem next (h : v.FanOk fan since reach start)
    (howner : ∀ n, ∀ review ∈ v.reviewsOf n, review.nodeId.1 = n)
    (hdistinct : ∀ n, ((v.reviewsOf n).map Review.nodeId).Nodup) {p : Pull} {waiting : List Pull}
    (hwaiting : fan.waiting = p :: waiting) (hend : (v.reviewsOf p.number).length ≤ fan.walk.offset)
    (fetched : ℕ) :
    v.FanOk { fan with
      waiting := waiting, walk := Walk.start REVIEW_PAGES
      artifacts := fan.artifacts ++ fan.walk.items, fetched := fetched
      watermark := some p.updated } since reach start := by
  refine { h with waiting := ?_, watermark := ?_, inflight := ?_, front := ?_, covers := ?_ }
  · intro q hq
    exact h.waiting q (hwaiting ▸ mem_cons_of_mem _ hq)
  · rintro t ⟨⟩
    exact h.waiting p (hwaiting ▸ mem_cons_self)
  · intro q hq hlt review hreview
    exact h.inflight q hq hlt review ((append_nil _).subst hreview)
  · intro q _ _ _
    rfl
  · intro hcomplete q hq hsince hreach
    have hlt := hreach.trans_le h.reach_le
    have hsole : ∀ review ∈ v.reviewsOf q.number, Sole Review.nodeId fan.walk.items review :=
      fun review hreview other hother =>
        h.sole howner hdistinct hq hlt hreview other (mem_append_right _ hother)
    by_cases hfront : q = p
    · -- It has just been read to its end.
      subst hfront
      right
      intro review hreview
      have hitems := h.front q (by rw [hwaiting]; rfl) hq hlt
      rw [take_of_length_le hend] at hitems
      exact last_of_mem fan.artifacts (hitems ▸ hreview) (hsole review hreview) _
    · rcases h.covers hcomplete q hq hsince hreach with hin | hread
      · rw [hwaiting] at hin
        exact .inl ((mem_cons.mp hin).resolve_left hfront)
      · right
        intro review hreview
        rw [save_append]
        exact save_sole (hread review hreview) (hsole review hreview)

theorem keptUpTo_flush (h : v.FanOk fan since reach start)
    (howner : ∀ n, ∀ review ∈ v.reviewsOf n, review.nodeId.1 = n)
    (hdistinct : ∀ n, ((v.reviewsOf n).map Review.nodeId).Nodup) {t : ℤ} (hlt : t < start)
    (hkept : v.KeptUpTo t) :
    Reviewed.KeptUpTo { v with store := save Review.nodeId fan.artifacts v.store } t := by
  intro p hp hle review hreview
  exact save_sole (hkept p hp hle review hreview) fun other hother =>
    h.sole howner hdistinct hp (hle.trans_lt hlt) hreview other (mem_append_left _ hother)

theorem flush (h : v.FanOk fan since reach start)
    (howner : ∀ n, ∀ review ∈ v.reviewsOf n, review.nodeId.1 = n)
    (hdistinct : ∀ n, ((v.reviewsOf n).map Review.nodeId).Nodup) :
    Reviewed.FanOk { v with store := save Review.nodeId fan.artifacts v.store }
      { fan with artifacts := [] } since reach start :=
  { h with
    kept := h.keptUpTo_flush howner hdistinct h.since_lt h.kept
    inflight := fun p hp hlt review hreview =>
      h.inflight p hp hlt review (mem_append_right _ hreview) }

theorem settled (h : v.FanOk fan since reach start)
    (howner : ∀ n, ∀ review ∈ v.reviewsOf n, review.nodeId.1 = n)
    (hdistinct : ∀ n, ((v.reviewsOf n).map Review.nodeId).Nodup) (hwaiting : fan.waiting = [])
    (hcomplete : fan.walkComplete = true) {newest : ℤ} (hnewest : fan.watermark = some newest) :
    Reviewed.KeptUpTo { v with store := save Review.nodeId fan.artifacts v.store } (newest - 1) := by
  intro p hp hle review hreview
  have hreach := h.watermark newest hnewest
  by_cases hold : p.updated ≤ since
  · exact h.keptUpTo_flush howner hdistinct h.since_lt h.kept p hp hold review hreview
  · rcases h.covers hcomplete p hp (not_le.mp hold) (by omega) with hin | hread
    · rw [hwaiting] at hin
      exact absurd hin not_mem_nil
    · exact hread review hreview

end Reviewed.FanOk

/-! ## A pull request changes -/

section

variable {v : Reviewed} {now : ℤ} {number revision : ℕ} {reviews : List Review}

def Reviewed.moved (v : Reviewed) (now : ℤ) (number revision : ℕ) (reviews : List Review) :
    Reviewed :=
  { v with
    pulls := Sync.moved now number revision v.pulls
    reviewsOf := Function.update v.reviewsOf number reviews }

theorem moved_old {p : Pull} (hp : p ∈ (v.moved now number revision reviews).pulls)
    (hlt : p.updated < now) :
    p ∈ v.pulls ∧ (v.moved now number revision reviews).reviewsOf p.number = v.reviewsOf p.number := by
  rcases mem_cons.mp hp with rfl | hp
  · exact absurd hlt (lt_irrefl _)
  · obtain ⟨hold, hne⟩ := mem_filter.mp hp
    exact ⟨hold, Function.update_of_ne (of_decide_eq_true hne) _ _⟩

theorem Reviewed.KeptUpTo.moved {t : ℤ} (h : v.KeptUpTo t) (hlt : t < now) :
    (v.moved now number revision reviews).KeptUpTo t := by
  intro p hp hle review hreview
  obtain ⟨hold, hsame⟩ := moved_old hp (hle.trans_lt hlt)
  exact h p hold hle review (hsame ▸ hreview)

theorem Reviewed.FanOk.moved {fan : Fan} {since reach start : ℤ}
    (h : v.FanOk fan since reach start) (hstart : start ≤ now) :
    (v.moved now number revision reviews).FanOk fan since reach start := by
  refine { h with kept := h.kept.moved (h.since_lt.trans_le hstart), inflight := ?_, front := ?_
                  covers := ?_ }
  · intro p hp hlt review hreview hnumber
    obtain ⟨hold, hsame⟩ := moved_old hp (hlt.trans_le hstart)
    rw [hsame]
    exact h.inflight p hold hlt review hreview hnumber
  · intro p hfront hp hlt
    obtain ⟨hold, hsame⟩ := moved_old hp (hlt.trans_le hstart)
    rw [hsame]
    exact h.front p hfront hold hlt
  · intro hcomplete p hp hsince hreach
    obtain ⟨hold, hsame⟩ := moved_old hp ((hreach.trans_le h.reach_le).trans_le hstart)
    rw [hsame]
    exact h.covers hcomplete p hold hsince hreach

end

/-! ## The batch -/

theorem Reviewed.FanOk.fanOut {v : Reviewed} {now since : ℤ} {task : Task} {walk : Walk Pull}
    (hpast : Past Pull.updated now v.changed)
    (hmem : v.pass = some ⟨since, walk, task.maxPages * PER_PAGE⟩) (hkept : v.KeptUpTo since)
    (hpass : PassOk Pull.number Pull.updated Pull.updated (task.maxPages * PER_PAGE)
      (v.pulls.filter fun p => !isOld since p) walk) (hover : walk.returned = true) :
    ∃ reach, v.FanOk (World.fanOut task walk.items) since reach now := by
  have hbatch : ∀ p ∈ (World.fanOut task walk.items).waiting, p ∈ walk.items := fun p hp =>
    (sortedBy_perm Pull.updated walk.items).mem_iff.mp (mem_of_mem_take hp)
  have hfan : ∀ reach ≤ now, (∀ p ∈ (World.fanOut task walk.items).waiting, p.updated ≤ reach) →
      (reach ≤ since ∨ ∃ q ∈ (World.fanOut task walk.items).waiting, q.updated = reach) →
      v.FanOk (World.fanOut task walk.items) since reach now := by
    intro reach hreach hwaiting hnewest
    refine
      { kept := hkept, since_lt := hpast.since _ hmem, reach_le := hreach, mark := hpast.mark
        loaded := hpast.loaded, waiting := hwaiting
        watermark := fun t ht => absurd ht (not_mem_none _)
        inflight := fun p _ _ review hreview => absurd hreview not_mem_nil
        front := fun p _ _ _ => rfl, covers := ?_ }
    intro hcomplete p hp hsince hlt
    rcases hnewest with hle | ⟨q, hq, rfl⟩
    · exact absurd (hsince.trans hlt) (not_lt.mpr hle)
    · left
      have hin : p ∈ v.pulls.filter fun p => !isOld since p :=
        mem_filter.mpr ⟨hp, by simpa [isOld] using hsince⟩
      have hread : p ∈ walk.items := by
        rcases hpass.done hover with hbound | hdone
        · exact absurd (of_decide_eq_true hcomplete) (not_lt.mpr hbound)
        · exact (hdone p hin q (hbatch q hq) hlt).mem
      exact mem_take_sortedBy hread hq hlt
  cases hnewest : ((World.fanOut task walk.items).waiting.map Pull.updated).max? with
  | none =>
    have hnil := map_eq_nil_iff.mp (List.max?_eq_none_iff.mp hnewest)
    refine ⟨since, hfan since (hpast.since _ hmem).le (fun p hp => ?_) (.inl le_rfl)⟩
    rw [hnil] at hp
    exact absurd hp not_mem_nil
  | some reach =>
    obtain ⟨hreach, hmax⟩ := List.max?_eq_some_iff.mp hnewest
    obtain ⟨q, hq, rfl⟩ := mem_map.mp hreach
    refine ⟨q.updated, hfan _ (hpast.items _ hmem q (hbatch q hq)) (fun p hp => ?_)
      (.inr ⟨q, hq, rfl⟩)⟩
    exact hmax _ (mem_map_of_mem hp)

/-! ## Steps -/

theorem Walk.read_end {α : Type} {walk : Walk α} {listing : List α} {size : ℕ}
    (hover : (walk.read listing size fun _ => false).returned = true)
    (hcut : walk.pages ≤ 1 → listing.length ≤ walk.offset + size) :
    listing.length ≤ walk.offset + size := by
  have hall : ((listing.drop walk.offset).take size).takeWhile (fun _ => !false) =
      (listing.drop walk.offset).take size := takeWhile_eq_self_iff.mpr fun _ _ => rfl
  unfold Walk.read at hover
  simp only [hall, lt_irrefl, Bool.or_eq_true, decide_eq_true_eq, false_or] at hover
  exact hover.elim id hcut

namespace ReviewsOk

variable {now : ℤ} {v : Reviewed}

theorem tick (h : ReviewsOk now v) {later : ℤ} (hle : now ≤ later) : ReviewsOk later v :=
  { h with
    past := h.past.mono hle
    fan := fun fan hfan => by
      obtain ⟨since, reach, start, hstart, hok⟩ := h.fan fan hfan
      exact ⟨since, reach, start, hstart.trans hle, hok⟩ }

theorem moved (h : ReviewsOk now v) (hunique : (v.pulls.map Pull.number).Nodup)
    (number revision : ℕ)
    {reviews : List (ℕ × ℕ)} (hnodup : (reviews.map Prod.fst).Nodup) :
    ReviewsOk now (v.moved now number revision
      (reviews.map fun review => ⟨(number, review.1), review.2⟩)) where
  past := h.past.moved number revision
  owner := update_owner h.owner
  distinct := update_distinct h.distinct hnodup
  mark := fun t ht => (h.mark t ht).moved (h.past.mark t ht)
  loaded := fun t ht => (h.loaded t ht).moved (h.past.loaded t ht)
  kept := fun pass hpass => (h.kept pass hpass).moved (h.past.since pass hpass)
  pass := by
    intro pass hpass
    have hok := (h.pass pass hpass).moved
      (hunique.sublist (filter_sublist.map _)) (h.past.items pass hpass) number revision
    rw [← moved_filter number revision v.pulls (h.past.since pass hpass)] at hok
    exact hok
  fan := by
    intro fan hfan
    obtain ⟨since, reach, start, hstart, hok⟩ := h.fan fan hfan
    exact ⟨since, reach, start, hstart, hok.moved hstart⟩

theorem idle (h : ReviewsOk now v) : ReviewsOk now { v with pass := none, fan := none } :=
  { h with
    past := h.past.idle
    kept := fun _ hpass => absurd hpass (not_mem_none _)
    pass := fun _ hpass => absurd hpass (not_mem_none _)
    fan := fun _ hfan => absurd hfan (not_mem_none _) }

theorem load (h : ReviewsOk now v) (hfan : v.fan = none) :
    ReviewsOk now { v with loaded := v.mark } :=
  { h with
    past := h.past.load
    loaded := h.mark
    fan := fun fan hmem => absurd (hfan ▸ hmem) (not_mem_none fan) }

theorem unload (h : ReviewsOk now v) :
    ReviewsOk now { v with loaded := none, pass := none, fan := none } :=
  { h.idle with
    past := h.past.unload
    loaded := fun _ ht => absurd ht (not_mem_none _)
    fan := fun _ hfan => absurd hfan (not_mem_none _) }

theorem start (h : ReviewsOk now v) (hfan : v.fan = none) {since : ℤ} (hlt : since < now)
    (pages bound : ℕ) (hsince : since ∈ v.loaded ∨ ∀ p ∈ v.pulls, since < p.updated) :
    ReviewsOk now { v with pass := some ⟨since, Walk.start pages, bound⟩ } :=
  { h with
    past := h.past.start hlt pages bound
    kept := by
      rintro pass ⟨⟩
      rcases hsince with hloaded | hreach
      · exact h.loaded since hloaded
      · exact fun p hp hle => absurd hle (not_le.mpr (hreach p hp))
    pass := by
      rintro pass ⟨⟩
      exact PassOk.start pages
    fan := fun fan hmem => absurd (hfan ▸ hmem) (not_mem_none fan) }

theorem read (h : ReviewsOk now v) (hsorted : v.pulls.Pairwise fun a b => b.updated ≤ a.updated)
    (hunique : (v.pulls.map Pull.number).Nodup) (hfan : v.fan = none) {pass : Pass Pull}
    (hmem : v.pass = some pass) (hopen : pass.walk.returned = false) (size : ℕ)
    (hcut : NotCut pass.bound (v.pulls.filter fun p => !isOld pass.since p) pass.walk size) :
    ReviewsOk now { v with
      pass := some { pass with walk := pass.walk.read v.pulls size (isOld pass.since) } } :=
  { h with
    past := h.past.read hmem (fun _ => id) size (isOld pass.since)
    kept := by
      rintro _ ⟨⟩
      exact h.kept pass hmem
    pass := by
      rintro _ ⟨⟩
      exact (h.pass pass hmem).read (isOld_mono pass.since hsorted) hsorted hunique rfl hopen size
        hcut fun _ _ => .inr (.inl le_rfl)
    fan := fun fan hmem => absurd (hfan ▸ hmem) (not_mem_none fan) }

theorem fanOut (h : ReviewsOk now v) {task : Task} {since : ℤ} {walk : Walk Pull}
    (hmem : v.pass = some ⟨since, walk, task.maxPages * PER_PAGE⟩) (hover : walk.returned = true) :
    ReviewsOk now { v with pass := none, fan := some (World.fanOut task walk.items) } :=
  { h.idle with
    fan := by
      rintro _ ⟨⟩
      obtain ⟨reach, hok⟩ :=
        Reviewed.FanOk.fanOut h.past hmem (h.kept _ hmem) (h.pass _ hmem) hover
      exact ⟨since, reach, now, le_rfl, { hok with }⟩ }

theorem refan (h : ReviewsOk now v) (hpass : v.pass = none) {fan fan' : Fan}
    (hmem : v.fan = some fan) {store : ℕ × ℕ → Option Review}
    (hfan : ∀ since reach start, v.FanOk fan since reach start →
      Reviewed.FanOk { v with store := store } fan' since reach start)
    (hkept : ∀ since reach start t, v.FanOk fan since reach start → t < start → v.KeptUpTo t →
      Reviewed.KeptUpTo { v with store := store } t) :
    ReviewsOk now { v with store := store, fan := some fan' } := by
  obtain ⟨since, reach, start, hstart, hok⟩ := h.fan fan hmem
  exact
    { h with
      mark := fun t ht => hkept since reach start t hok (hok.mark t ht) (h.mark t ht)
      loaded := fun t ht => hkept since reach start t hok (hok.loaded t ht) (h.loaded t ht)
      kept := fun _ hmem => absurd (hpass ▸ hmem) (not_mem_none _)
      fan := by
        rintro _ ⟨⟩
        exact ⟨since, reach, start, hstart, { hfan since reach start hok with }⟩ }

theorem settle (h : ReviewsOk now v) (hpass : v.pass = none) {fan : Fan} (hmem : v.fan = some fan)
    (hwaiting : fan.waiting = []) {mark : Option ℤ} (hmark : mark = v.mark ∨
      ∃ newest, mark = some (newest - 1) ∧ fan.walkComplete = true ∧
        fan.watermark = some newest) :
    ReviewsOk now { v with
      store := save Review.nodeId fan.artifacts v.store, mark := mark, fan := none } := by
  obtain ⟨since, reach, start, hstart, hok⟩ := h.fan fan hmem
  have hkept : ∀ t, t < start → v.KeptUpTo t →
      Reviewed.KeptUpTo { v with store := save Review.nodeId fan.artifacts v.store } t :=
    fun t ht hkept => hok.keptUpTo_flush h.owner h.distinct ht hkept
  have hreach : ∀ t ∈ fan.watermark, t ≤ now := fun t ht =>
    ((hok.watermark t ht).trans hok.reach_le).trans hstart
  refine
    { h with
      past := { h.past with mark := ?_ }, mark := ?_
      loaded := fun t ht => hkept t (hok.loaded t ht) (h.loaded t ht)
      kept := fun _ hmem => absurd (hpass ▸ hmem) (not_mem_none _)
      fan := fun _ hfan => absurd hfan (not_mem_none _) }
  · rcases hmark with rfl | ⟨newest, rfl, _, hnewest⟩
    · exact h.past.mark
    · rintro t ⟨⟩
      have hle := hreach newest hnewest
      omega
  · rcases hmark with rfl | ⟨newest, rfl, hcomplete, hnewest⟩
    · exact fun t ht => hkept t (hok.mark t ht) (h.mark t ht)
    · rintro t ⟨⟩
      exact hok.settled h.owner h.distinct hwaiting hcomplete hnewest

attribute [local simp] World.reviewed World.fan World.changedPass World.loaded World.enter

theorem step {w w' : World} {e : Event} (h : ReviewsOk w.now w.reviewed)
    (hpulls : PullsViewOk w.pullsView) (hsound : Sound w e) (hstep : Sync.step w e = some w') :
    ReviewsOk w'.now w'.reviewed := by
  cases step_moves hstep with
  | tick seconds => exact h.tick (by simp)
  | @change change repo hchange =>
    cases change with
    | push | createRun =>
      obtain ⟨_, hrepo⟩ := ite_none_right_eq_some.mp hchange
      cases hrepo
      exact h
    | pull number reviews =>
      obtain ⟨hnodup, hrepo⟩ := ite_none_right_eq_some.mp hchange
      cases hrepo
      exact h.moved hpulls.nodup number w.repo.revision hnodup
    | startRun | concludeRun =>
      cases hchange
      exact h
  | @sync _ task hnone hcursor hphase =>
    have hview := h.load (by simp [hnone])
    simpa [hnone, hcursor, hphase] using hview
  | stop results => exact h.unload
  | @start task stream streams htask hphase hstreams =>
    cases stream with
    | reviews =>
      have hnext : Stream.reviews ∈ task.next := by simp [Task.next, hphase, hstreams]
      have hloaded : w.reviewed.loaded = task.cursor .reviews := by simp [htask]
      have hfan : w.reviewed.fan = none := by simp [htask, hphase]
      have hview : ReviewsOk w.now { w.reviewed with
          pass := some (Pass.mk ((task.cursor .reviews).getD task.floor)
            (Walk.start task.maxPages) (task.maxPages * PER_PAGE)) } := by
        cases hcursor : task.cursor .reviews with
        | none =>
          obtain ⟨hfloor, hreach⟩ := hsound task htask .reviews hnext hcursor
          exact h.start hfan hfloor _ _ (.inr hreach)
        | some t =>
          rw [hcursor] at hloaded
          exact h.start hfan (h.past.loaded t hloaded) _ _ (.inl hloaded)
      simpa [htask, hphase, startStream] using hview
    | commits | pullRequests | ciRuns =>
      simpa [htask, hphase, startStream] using h
  | @abandon _ task htask results =>
    simpa [htask] using h.idle
  | readCommits htask hphase _ | readPulls htask hphase _ | readRuns htask hphase _ =>
    simpa [htask, hphase] using h
  | @readChanged task since walk size jobs htask hphase hopen =>
    have hmem : w.reviewed.pass = some ⟨since, walk, task.maxPages * PER_PAGE⟩ := by
      simp [htask, hphase]
    have hfan : w.reviewed.fan = none := by simp [htask, hphase]
    have hview := h.read hpulls.sorted hpulls.nodup hfan hmem hopen size (hsound.1.changed _ hmem)
    simpa [htask, hphase] using hview
  | @readReviews task fan p waiting size jobs htask hphase hwaiting =>
    have hmem : w.reviewed.fan = some fan := by simp [htask, hphase]
    have hpass : w.reviewed.pass = none := by simp [htask, hphase]
    have hfront : fan.waiting.head? = some p := by rw [hwaiting]; rfl
    have hcut := hsound.1.reviews fan hmem p hfront
    unfold World.readReviews
    dsimp only
    split_ifs with hover hflush
    · have hnext := fun since reach start (hok : w.reviewed.FanOk fan since reach start) =>
        (hok.read h.owner hfront size).next h.owner h.distinct hwaiting
          (Walk.read_end hover hcut) (fan.fetched + (fan.walk.read (w.repo.reviewsOf p.number) size
            fun _ => false).items.length)
      have hview := h.refan hpass hmem
        (fun since reach start hok => (hnext since reach start hok).flush h.owner h.distinct)
        fun since reach start t hok ht hkept =>
          (hnext since reach start hok).keptUpTo_flush h.owner h.distinct ht hkept
      simpa [World.flushReviews, htask, hphase] using hview
    · have hview : ReviewsOk w.now { w.reviewed with fan := some _ } :=
        h.refan hpass hmem (fun since reach start hok =>
          (hok.read h.owner hfront size).next h.owner h.distinct hwaiting
            (Walk.read_end hover hcut) (fan.fetched + (fan.walk.read (w.repo.reviewsOf p.number)
              size fun _ => false).items.length))
          fun _ _ _ _ _ _ hkept => hkept
      simpa [htask, hphase] using hview
    · have hview : ReviewsOk w.now { w.reviewed with fan := some _ } :=
        h.refan hpass hmem (fun since reach start hok => hok.read h.owner hfront size)
          fun _ _ _ _ _ _ hkept => hkept
      simpa [htask, hphase] using hview
  | settleCommits htask hphase _ | settlePulls htask hphase _ | settleRuns htask hphase _ =>
    simpa [World.settleCommits, World.settlePulls, World.settleRuns, World.report,
      World.advanceIf_cursors, htask, hphase] using h
  | @fanOut task since walk htask hphase hover =>
    have hmem : w.reviewed.pass = some ⟨since, walk, task.maxPages * PER_PAGE⟩ := by
      simp [htask, hphase]
    have hview := h.fanOut hmem hover
    simpa [htask, hphase] using hview
  | @settleReviews task fan htask hphase hwaiting =>
    have hmem : w.reviewed.fan = some fan := by simp [htask, hphase]
    have hpass : w.reviewed.pass = none := by simp [htask, hphase]
    have hmark := World.advanceIf_mark (w.flushReviews fan.artifacts) .reviews
      (fan.walkComplete = true) fan.watermark
    rw [Bool.decide_eq_true] at hmark
    have hview := h.settle hpass hmem hwaiting hmark
    simpa [World.settleReviews, World.flushReviews, World.report, htask, hphase] using hview

end ReviewsOk

end OmniSense.Sync
