import OmniSense.Sync.Watermarks

/-! One call of `sync_source` for one stream when nothing changes or fails and every page is full:
what it has read when it returns. -/

namespace OmniSense.Sync

open Library Listing List World

def World.quiet (w : World) : Option World :=
  w.task.bind fun task => (w.proceed task).or (w.answer task PER_PAGE none)

def finish : ℕ → World → World
  | 0, w => w
  | n + 1, w =>
    match w.quiet with
    | none => w
    | some w' => finish n w'

def budget (maxPages : ℕ) : ℕ := maxPages + REVIEW_FANOUT_LIMIT * REVIEW_PAGES + 4

def syncSource (stream : Stream) (maxPages : ℕ) (backfillDays : ℤ) (w : World) : World :=
  finish (budget maxPages) ((step w (.sync [stream] maxPages backfillDays)).getD w)

/-! ## Reaching the end -/

inductive Quietly : ℕ → World → World → Prop
  | refl (w : World) : Quietly 0 w w
  | step {n : ℕ} {w w' w'' : World} (h : w.quiet = some w') (hrest : Quietly n w' w'') :
      Quietly (n + 1) w w''

attribute [local simp] enter proceed quiet report flushReviews

theorem Quietly.trans {n m : ℕ} {w w' w'' : World} (h : Quietly n w w') (h' : Quietly m w' w'') :
    Quietly (m + n) w w'' := by
  induction h with
  | refl => exact h'
  | step hquiet _ ih => exact .step hquiet (ih h')

theorem Quietly.single {w w' : World} (h : w.quiet = some w') : Quietly 1 w w' := .step h (.refl w')

variable {w : World}

theorem finish_returned (h : w.task = none) (n : ℕ) : finish n w = w := by
  have hquiet : w.quiet = none := by
    unfold quiet
    rw [h]
    rfl
  cases n with
  | zero => rfl
  | succ n =>
    unfold finish
    rw [hquiet]

theorem Quietly.finish {n m : ℕ} {w w' : World} (h : Quietly n w w') (hreturned : w'.task = none)
    (hle : n ≤ m) : Sync.finish m w = w' := by
  induction h generalizing m with
  | refl w => exact finish_returned hreturned m
  | @step n w w₁ w₂ hquiet hrest ih =>
    obtain ⟨m, rfl⟩ : ∃ k, m = k + 1 := ⟨m - 1, by omega⟩
    unfold Sync.finish
    rw [hquiet]
    exact ih hreturned (by omega)

/-! ## Walks to their end -/

variable {α : Type}

def firstPages (maxPages : ℕ) (l : List α) : List α := l.take (maxPages * PER_PAGE)

theorem filter_unstopped (l : List α) : l.filter (fun _ => !false) = l :=
  filter_eq_self.mpr fun _ _ => rfl

variable {α : Type} {listing : List α} {stops : α → Bool} {maxPages : ℕ} {walk : Walk α}

/-- Where a walk stands that reads full pages: what is not old, so far, or all that it will read. -/
structure OnTrack (fresh : List α) (maxPages : ℕ) (walk : Walk α) : Prop where
  offset : walk.offset = (maxPages - walk.pages) * PER_PAGE
  pages : walk.pages ≤ maxPages
  items : walk.items = fresh.take walk.offset
  reads : walk.returned = false → 0 < walk.pages
  returned : walk.returned = true → walk.items = firstPages maxPages fresh

theorem OnTrack.start (fresh : List α) (maxPages : ℕ) :
    OnTrack fresh maxPages (Walk.start maxPages) where
  offset := by simp [Walk.start]
  pages := le_rfl
  items := by simp [Walk.start]
  reads := fun h => by
    have hne : maxPages ≠ 0 := of_decide_eq_false h
    exact Nat.pos_of_ne_zero hne
  returned := fun h => by
    obtain rfl : maxPages = 0 := of_decide_eq_true h
    simp [Walk.start, firstPages]

theorem OnTrack.read (hmono : listing.Pairwise fun a b => stops a = true → stops b = true)
    (h : OnTrack (listing.filter fun x => !stops x) maxPages walk)
    (hopen : walk.returned = false) :
    OnTrack (listing.filter fun x => !stops x) maxPages (walk.read listing PER_PAGE stops) ∧
      (walk.read listing PER_PAGE stops).pages < walk.pages := by
  have hpages := h.reads hopen
  have hle := h.pages
  have hoffset : walk.offset + PER_PAGE = (maxPages - (walk.pages - 1)) * PER_PAGE := by
    rw [h.offset, ← Nat.succ_mul]
    congr 1
    omega
  have hitems : walk.items ++ ((listing.drop walk.offset).take PER_PAGE).takeWhile
      (fun x => !stops x) = (listing.filter fun x => !stops x).take (walk.offset + PER_PAGE) := by
    rw [takeWhile_page hmono, h.items]
    exact take_add.symm
  have hkept := congrArg List.length (takeWhile_page hmono walk.offset PER_PAGE)
  refine ⟨⟨hoffset, (Nat.sub_le _ _).trans hle, hitems, fun hopen' => ?_, fun hover => ?_⟩,
    Nat.sub_lt hpages Nat.one_pos⟩
  · unfold Walk.read at hopen' ⊢
    simp only [Bool.or_eq_false_iff, decide_eq_false_iff_not] at hopen'
    dsimp only
    omega
  · -- It returned at an old item, at the end of the listing, or at the page bound.
    have hlength := length_filter_le (fun x => !stops x) listing
    unfold Walk.read at hover ⊢
    simp only [Bool.or_eq_true, decide_eq_true_eq, hkept] at hover
    dsimp only
    rw [hitems, firstPages]
    simp only [length_take, length_drop] at hover
    have hbound : walk.offset + PER_PAGE ≤ maxPages * PER_PAGE := by
      rw [hoffset]
      exact Nat.mul_le_mul_right _ (Nat.sub_le _ _)
    rcases hover with (hshort | hend) | hlast
    · rw [take_of_length_le (by omega), take_of_length_le (by omega)]
    · rw [take_of_length_le (by omega), take_of_length_le (by omega)]
    · rw [hoffset]
      congr 2
      omega

theorem OnTrack.read_unstopped (h : OnTrack listing maxPages walk) (hopen : walk.returned = false) :
    OnTrack listing maxPages (walk.read listing PER_PAGE fun _ => false) ∧
      (walk.read listing PER_PAGE fun _ => false).pages < walk.pages := by
  have hread := @OnTrack.read _ listing (fun _ => false) maxPages walk
    (pairwise_of_forall fun _ _ => id)
  rw [filter_unstopped] at hread
  exact hread h hopen

theorem reads_listing {w : World} {task : Task} {phase : Walk α → Phase}
    (hmono : listing.Pairwise fun a b => stops a = true → stops b = true)
    (hread : ∀ walk, walk.returned = false → (w.enter task (phase walk)).quiet =
      some (w.enter task (phase (walk.read listing PER_PAGE stops))))
    (h : OnTrack (listing.filter fun x => !stops x) maxPages walk) :
    ∃ n ≤ walk.pages, ∃ walk', Quietly n (w.enter task (phase walk)) (w.enter task (phase walk')) ∧
      walk'.returned = true ∧
      walk'.items = firstPages maxPages (listing.filter fun x => !stops x) := by
  induction hpages : walk.pages using Nat.strong_induction_on generalizing walk with
  | _ pages ih =>
    cases hopen : walk.returned with
    | true => exact ⟨0, Nat.zero_le _, walk, .refl _, hopen, h.returned hopen⟩
    | false =>
      obtain ⟨hnext, hlt⟩ := h.read hmono hopen
      obtain ⟨n, hn, walk', hquietly, hend⟩ := ih _ (hpages ▸ hlt) hnext rfl
      exact ⟨n + 1, by omega, walk', .step (hread walk hopen) hquietly, hend⟩

/-! ## One call -/

section

variable {w : World} {task : Task} {since : ℤ}

theorem quiet_readCommits {walk : Walk Commit} (hopen : walk.returned = false) :
    (w.enter task (.commits since walk)).quiet = some (w.enter task
      (.commits since (walk.read (commitsSince w.repo since) PER_PAGE fun _ => false))) := by
  simp [answer, hopen]

variable {walk : Walk Pull}

theorem quiet_readPulls (hopen : walk.returned = false) :
    (w.enter task (.pullRequests since walk)).quiet = some (w.enter task
      (.pullRequests since (walk.read w.repo.pulls PER_PAGE (isOld since)))) := by
  simp [answer, hopen]

theorem quiet_readChanged (hopen : walk.returned = false) :
    (w.enter task (.changed since walk)).quiet = some (w.enter task
      (.changed since (walk.read w.repo.pulls PER_PAGE (isOld since)))) := by
  simp [answer, hopen]

theorem quiet_readRuns {walk : Walk CiRun} (hopen : walk.returned = false) :
    (w.enter task (.ciRuns since walk)).quiet = some (w.enter task
      (.ciRuns since (walk.read (runsSince w.repo since) PER_PAGE fun _ => false))) := by
  simp [answer, hopen]

theorem quiet_settleCommits {walk : Walk Commit} (hover : walk.returned = true) :
    (w.enter task (.commits since walk)).quiet =
      some ((advanceIf { w.enter task (.commits since walk) with
        store.commits := save Commit.nodeId walk.items w.store.commits } .commits
          (walk.items.length < task.maxPages * PER_PAGE)
          (walk.items.map Commit.authored).max?).report task
        ⟨.commits, walk.items.length, walk.items.length < task.maxPages * PER_PAGE, none⟩) := by
  simp [settleCommits, hover]

theorem quiet_settlePulls (hover : walk.returned = true) :
    (w.enter task (.pullRequests since walk)).quiet =
      some ((advanceIf { w.enter task (.pullRequests since walk) with
        store.pulls := save Pull.number walk.items w.store.pulls } .pullRequests
          (walk.items.length < task.maxPages * PER_PAGE)
          (walk.items.map Pull.updated).max?).report task
        ⟨.pullRequests, walk.items.length, walk.items.length < task.maxPages * PER_PAGE, none⟩) := by
  simp [settlePulls, hover]

theorem quiet_settleRuns {walk : Walk CiRun} (hover : walk.returned = true) :
    (w.enter task (.ciRuns since walk)).quiet =
      some ((advanceIf { w.enter task (.ciRuns since walk) with
        store.runs := save CiRun.nodeId walk.items w.store.runs } .ciRuns
          (walk.items.length < task.maxPages * PER_PAGE)
          (walk.items.map CiRun.occurred).max?).report task
        ⟨.ciRuns, walk.items.length, walk.items.length < task.maxPages * PER_PAGE, none⟩) := by
  simp [settleRuns, hover]

theorem quiet_report (result : StreamResult) (h : task.streams = []) :
    (w.report task result).quiet =
      some { w with results := w.results ++ [result], task := none } := by
  simp [h]

end

def World.call (w : World) (maxPages : ℕ) (backfillDays : ℤ) : Task :=
  ⟨maxPages, w.now - backfillDays * 86400, w.cursors, [], .between⟩

def World.since (w : World) (stream : Stream) (backfillDays : ℤ) : ℤ :=
  (w.cursors stream).getD (w.now - backfillDays * 86400)

theorem syncSource_eq (hidle : w.task = none) {stream : Stream} {maxPages n : ℕ}
    {backfillDays : ℤ} {read settled : World} {result : StreamResult}
    (hreads : Quietly n ({ w with results := [] }.enter (w.call maxPages backfillDays)
      (startStream (w.call maxPages backfillDays) stream)) read)
    (hsettle : read.quiet = some (settled.report (w.call maxPages backfillDays) result))
    (hresults : settled.results = []) (hle : n + 3 ≤ budget maxPages) :
    syncSource stream maxPages backfillDays w =
      { settled with results := [result], task := none } := by
  have hstart : step w (.sync [stream] maxPages backfillDays) = some { w with
      results := []
      task := some ⟨maxPages, w.now - backfillDays * 86400, w.cursors, [stream], .between⟩ } := by
    simp [step, hidle]
  have hfirst : quiet { w with
      results := []
      task := some ⟨maxPages, w.now - backfillDays * 86400, w.cursors, [stream], .between⟩ } =
      some ({ w with results := [] }.enter (w.call maxPages backfillDays)
        (startStream (w.call maxPages backfillDays) stream)) := by
    simp [call, startStream]
  have hend := @quiet_report settled (w.call maxPages backfillDays) result rfl
  rw [hresults] at hend
  unfold syncSource
  rw [hstart]
  exact (((Quietly.single hfirst).trans hreads).trans
    ((Quietly.single hsettle).trans (Quietly.single hend))).finish rfl (by omega)

/-! ## The reviews of the batch -/

section

variable {w : World} {task : Task}

theorem quiet_fanOut {since : ℤ} {walk : Walk Pull} (hover : walk.returned = true) :
    (w.enter task (.changed since walk)).quiet =
      some (w.enter task (.reviews (fanOut task walk.items))) := by
  simp [fanOut, hover]

theorem quiet_readReviews {fan : Fan} {p : Pull} {waiting : List Pull}
    (hwaiting : fan.waiting = p :: waiting) : (w.enter task (.reviews fan)).quiet =
      some (w.readReviews task fan p waiting PER_PAGE) := by
  have hproceed : (w.enter task (.reviews fan)).proceed { task with phase := .reviews fan } =
      none := by
    simp [hwaiting]
  have hanswer : (w.enter task (.reviews fan)).answer { task with phase := .reviews fan } PER_PAGE
      none = some (w.readReviews task fan p waiting PER_PAGE) := by
    unfold answer
    dsimp only
    rw [hwaiting]
    change some ((w.enter task (.reviews fan)).readReviews { task with phase := .reviews fan } fan p
      waiting PER_PAGE) = _
    have hrepo : (w.enter task (.reviews fan)).repo = w.repo := rfl
    unfold readReviews
    dsimp only
    rw [hrepo]
    split_ifs <;> rfl
  change (proceed _ _).or _ = _
  rw [hproceed]
  exact hanswer

theorem quiet_settleReviews {fan : Fan} (hwaiting : fan.waiting = []) :
    (w.enter task (.reviews fan)).quiet =
      some ((((w.enter task (.reviews fan)).flushReviews fan.artifacts).advanceIf .reviews
        fan.walkComplete fan.watermark).report task
        ⟨.reviews, fan.fetched, fan.walkComplete && fan.skipped = 0, none⟩) := by
  simp [settleReviews, hwaiting]

theorem reads_front {fan : Fan} {p : Pull} {waiting : List Pull}
    (hwaiting : fan.waiting = p :: waiting) (hopen : fan.walk.returned = false)
    (h : OnTrack (w.repo.reviewsOf p.number) REVIEW_PAGES fan.walk) :
    ∃ n ≤ fan.walk.pages, ∃ store, ∃ fan' : Fan, Quietly n (w.enter task (.reviews fan))
        ({ w with store.reviews := store }.enter task (.reviews fan')) ∧
      fan'.waiting = waiting ∧ fan'.walk = Walk.start REVIEW_PAGES ∧
      fan'.watermark = some p.updated ∧ fan'.walkComplete = fan.walkComplete ∧
      fan'.skipped = fan.skipped ∧
      save Review.nodeId fan'.artifacts store = save Review.nodeId
        (fan.artifacts ++ firstPages REVIEW_PAGES (w.repo.reviewsOf p.number)) w.store.reviews := by
  induction hpages : fan.walk.pages using Nat.strong_induction_on generalizing fan with
  | _ pages ih =>
    have hquiet := @quiet_readReviews w task _ _ _ hwaiting
    obtain ⟨hnext, hlt⟩ := h.read_unstopped hopen
    unfold readReviews at hquiet
    dsimp only at hquiet
    cases hreturned : (fan.walk.read (w.repo.reviewsOf p.number) PER_PAGE
      fun _ => false).returned with
    | true =>
      rw [if_pos hreturned] at hquiet
      have hitems := hnext.returned hreturned
      rw [hitems] at hquiet
      cases hflush : decide (BATCH_SIZE ≤ (fan.artifacts ++
        firstPages REVIEW_PAGES (w.repo.reviewsOf p.number)).length) with
      | true =>
        rw [hflush] at hquiet
        exact ⟨1, by omega, _, _, .single hquiet, rfl, rfl, rfl, rfl, rfl, rfl⟩
      | false =>
        rw [hflush] at hquiet
        exact ⟨1, by omega, w.store.reviews, _, .single hquiet, rfl, rfl, rfl, rfl, rfl, rfl⟩
    | false =>
      rw [if_neg (by simp [hreturned])] at hquiet
      obtain ⟨n, hn, store, fan', hquietly, hend⟩ := @ih _ (hpages ▸ hlt) { fan with
        walk := fan.walk.read (w.repo.reviewsOf p.number) PER_PAGE fun _ => false } hwaiting
          hreturned hnext rfl
      dsimp only at hn
      exact ⟨n + 1, by omega, store, fan', .step hquiet hquietly, hend⟩

end

theorem reads_batch {task : Task} {fan : Fan}
    (hwalk : fan.walk = Walk.start REVIEW_PAGES) :
    ∃ n ≤ fan.waiting.length * REVIEW_PAGES, ∃ store, ∃ fan' : Fan,
      Quietly n (w.enter task (.reviews fan))
        ({ w with store.reviews := store }.enter task (.reviews fan')) ∧
      fan'.waiting = [] ∧
      fan'.watermark = (fan.waiting.getLast?.map Pull.updated).or fan.watermark ∧
      fan'.walkComplete = fan.walkComplete ∧ fan'.skipped = fan.skipped ∧
      save Review.nodeId fan'.artifacts store = save Review.nodeId
        (fan.artifacts ++ fan.waiting.flatMap fun p =>
          firstPages REVIEW_PAGES (w.repo.reviewsOf p.number)) w.store.reviews := by
  induction hwaiting : fan.waiting generalizing w fan with
  | nil =>
    exact ⟨0, Nat.zero_le _, w.store.reviews, fan, .refl _, hwaiting, rfl, rfl, rfl,
      by rw [flatMap_nil, append_nil]⟩
  | cons p waiting ih =>
    have hopen : fan.walk.returned = false := by
      rw [hwalk]
      rfl
    obtain ⟨n, hn, store, next, hfront, hwaiting', hwalk', hmark, hcomplete, hskipped, hstored⟩ :=
      @reads_front w task _ _ _ hwaiting hopen (hwalk ▸ OnTrack.start _ REVIEW_PAGES)
    obtain ⟨m, hm, store', fan', hrest, hend, hmark', hcomplete', hskipped', hstored'⟩ :=
      @ih { w with store.reviews := store } next hwalk' hwaiting'
    have hpages : fan.walk.pages = REVIEW_PAGES := by
      rw [hwalk]
      rfl
    refine ⟨m + n, ?_, store', fan', hfront.trans hrest, hend, ?_, hcomplete'.trans hcomplete,
      hskipped'.trans hskipped, ?_⟩
    · rw [length_cons, Nat.succ_mul]
      omega
    · rw [hmark', hmark]
      cases waiting with
      | nil => rfl
      | cons q rest =>
        rw [List.getLast?_cons_cons, List.getLast?_eq_some_getLast (cons_ne_nil q rest)]
        rfl
    · rw [hstored', save_append, hstored, ← save_append, append_assoc, flatMap_cons]

/-! ## What a call does -/

inductive Item
  | commit (c : Commit)
  | pull (p : Pull)
  | review (p : Pull) (review : Review)
  | run (run : CiRun)

def Item.stream : Item → Stream
  | .commit _ => .commits
  | .pull _ => .pullRequests
  | .review _ _ => .reviews
  | .run _ => .ciRuns

def Item.time : Item → ℤ
  | .commit c => c.committed
  | .pull p => p.updated
  | .review p _ => p.updated
  | .run r => r.created

def Repo.Has (repo : Repo) : Item → Prop
  | .commit c => c ∈ repo.commits
  | .pull p => p ∈ repo.pulls
  | .review p review => p ∈ repo.pulls ∧ review ∈ repo.reviewsOf p.number
  | .run run => run ∈ repo.runs

def Store.Holds (store : Store) : Item → Prop
  | .commit c => store.commits c.nodeId = some c
  | .pull p => store.pulls p.number = some p
  | .review _ review => store.reviews review.nodeId = some review
  | .run run => store.runs run.nodeId = some run

def Repo.batch (repo : Repo) (maxPages : ℕ) (since : ℤ) : List Pull :=
  (sortedBy Pull.updated (firstPages maxPages (pullsSince repo since))).take REVIEW_FANOUT_LIMIT

def Repo.Reads (repo : Repo) (maxPages : ℕ) (since : ℤ) : Item → Prop
  | .commit c => c ∈ firstPages maxPages (commitsSince repo since)
  | .pull p => p ∈ firstPages maxPages (pullsSince repo since)
  | .review p review => p ∈ repo.batch maxPages since ∧
      review ∈ firstPages REVIEW_PAGES (repo.reviewsOf p.number)
  | .run run => run ∈ firstPages maxPages (runsSince repo since)

def World.Complete (w : World) (stream : Stream) : Prop :=
  ∃ result ∈ w.results, result.stream = stream ∧ result.complete = true

structure Outcome (w w' : World) (stream : Stream) (maxPages : ℕ) (since : ℤ) (complete : Prop)
    (mark : Option ℤ) : Prop where
  repo : w'.repo = w.repo
  now : w'.now = w.now
  idle : w'.task = none
  mark : w'.cursors stream = mark
  complete : w'.Complete stream ↔ complete
  stores : ∀ item, item.stream = stream → w.repo.Has item →
    (w'.store.Holds item ↔ w.repo.Reads maxPages since item ∨ w.store.Holds item)

def markAfter (mark : Option ℤ) (complete : Prop) [Decidable complete] (newest : Option ℤ) :
    Option ℤ :=
  if complete then (newest.map (· - WATERMARK_OVERLAP)).or mark else mark

theorem advanceIf_cursors_eq (w : World) (stream : Stream) (complete : Prop) [Decidable complete]
    (newest : Option ℤ) : (w.advanceIf stream (decide complete) newest).cursors stream =
      markAfter (w.cursors stream) complete newest := by
  unfold advanceIf markAfter
  cases newest with
  | none => simp
  | some n =>
    by_cases hcomplete : complete
    · simp [hcomplete, advance]
    · simp [hcomplete]

theorem firstPages_length_lt {l : List α} {maxPages : ℕ} :
    (firstPages maxPages l).length < maxPages * PER_PAGE ↔ l.length < maxPages * PER_PAGE := by
  rw [firstPages, length_take]
  omega

theorem outcome_of_settled {w settled : World} {stream : Stream} {maxPages fetched : ℕ}
    {since : ℤ} {complete : Prop} [Decidable complete] {mark : Option ℤ}
    (hrepo : settled.repo = w.repo) (hnow : settled.now = w.now)
    (hmark : settled.cursors stream = mark)
    (hstores : ∀ item, item.stream = stream → w.repo.Has item →
      (settled.store.Holds item ↔ w.repo.Reads maxPages since item ∨ w.store.Holds item)) :
    Outcome w { settled with
      results := [⟨stream, fetched, complete, none⟩], task := none } stream maxPages since complete
      mark where
  repo := hrepo
  now := hnow
  idle := rfl
  mark := hmark
  complete := by simp [Complete]
  stores := hstores

theorem reads_call {w : World} {listing : List α} {stops : α → Bool} {maxPages : ℕ}
    {backfillDays : ℤ} {stream : Stream} {phase : Walk α → Phase}
    (hphase : startStream (w.call maxPages backfillDays) stream = phase (Walk.start maxPages))
    (hmono : listing.Pairwise fun a b => stops a = true → stops b = true)
    (hread : ∀ walk, walk.returned = false →
      ({ w with results := [] }.enter (w.call maxPages backfillDays) (phase walk)).quiet =
        some ({ w with results := [] }.enter (w.call maxPages backfillDays)
          (phase (walk.read listing PER_PAGE stops)))) :
    ∃ n ≤ maxPages, ∃ walk, Quietly n
      ({ w with results := [] }.enter (w.call maxPages backfillDays)
        (startStream (w.call maxPages backfillDays) stream))
      ({ w with results := [] }.enter (w.call maxPages backfillDays) (phase walk)) ∧
      walk.returned = true ∧
      walk.items = firstPages maxPages (listing.filter fun x => !stops x) := by
  rw [hphase]
  exact reads_listing hmono hread (OnTrack.start _ maxPages)

theorem syncSource_commits (hidle : w.task = none) (hok : w.repo.Ok) (maxPages : ℕ)
    (backfillDays : ℤ) {since : ℤ} (hsince : w.since .commits backfillDays = since) :
    Outcome w (syncSource .commits maxPages backfillDays w) .commits maxPages since
      ((firstPages maxPages (commitsSince w.repo since)).length < maxPages * PER_PAGE)
      (markAfter (w.cursors .commits)
        ((firstPages maxPages (commitsSince w.repo since)).length < maxPages * PER_PAGE)
        ((firstPages maxPages (commitsSince w.repo since)).map Commit.authored).max?) := by
  obtain ⟨n, hn, walk, hquietly, hover, hread⟩ :=
    @reads_call _ w (commitsSince w.repo since) (fun _ => false) maxPages backfillDays .commits
      (.commits since) (hsince ▸ rfl) (pairwise_of_forall fun _ _ => id)
      fun walk hopen => quiet_readCommits hopen
  rw [filter_unstopped] at hread
  rw [syncSource_eq hidle hquietly (quiet_settleCommits hover) (by simp)
    (by unfold budget; omega), ← hread]
  refine outcome_of_settled (by simp) (by simp)
    (advanceIf_cursors_eq _ _ _ _) fun item hstream hhas => ?_
  cases item with
  | commit c =>
    simp only [advanceIf_store]
    rw [Store.Holds, Repo.Reads, ← hread]
    exact save_iff hok.commits (fun y hy => mem_of_mem_filter
      (mem_of_mem_take (hread ▸ hy))) hhas
  | pull | review | run => exact absurd hstream (by simp [Item.stream])

theorem syncSource_pulls (hidle : w.task = none) (hok : w.repo.Ok) (maxPages : ℕ)
    (backfillDays : ℤ) {since : ℤ} (hsince : w.since .pullRequests backfillDays = since) :
    Outcome w (syncSource .pullRequests maxPages backfillDays w) .pullRequests maxPages since
      ((firstPages maxPages (pullsSince w.repo since)).length < maxPages * PER_PAGE)
      (markAfter (w.cursors .pullRequests)
        ((firstPages maxPages (pullsSince w.repo since)).length < maxPages * PER_PAGE)
        ((firstPages maxPages (pullsSince w.repo since)).map Pull.updated).max?) := by
  obtain ⟨n, hn, walk, hquietly, hover, hread⟩ :=
    @reads_call _ w w.repo.pulls (isOld since) maxPages backfillDays .pullRequests
      (.pullRequests since) (hsince ▸ rfl) (isOld_mono since hok.sorted)
      fun walk hopen => quiet_readPulls hopen
  change walk.items = firstPages maxPages (pullsSince w.repo since) at hread
  rw [syncSource_eq hidle hquietly (quiet_settlePulls hover) (by simp)
    (by unfold budget; omega), ← hread]
  refine outcome_of_settled (by simp) (by simp)
    (advanceIf_cursors_eq _ _ _ _) fun item hstream hhas => ?_
  cases item with
  | pull p =>
    simp only [advanceIf_store]
    rw [Store.Holds, Repo.Reads, ← hread]
    exact save_iff hok.pulls (fun y hy => mem_of_mem_filter
      (mem_of_mem_take (hread ▸ hy))) hhas
  | commit | review | run => exact absurd hstream (by simp [Item.stream])

theorem syncSource_runs (hidle : w.task = none) (hok : w.repo.Ok) (maxPages : ℕ)
    (backfillDays : ℤ) {since : ℤ} (hsince : w.since .ciRuns backfillDays = since) :
    Outcome w (syncSource .ciRuns maxPages backfillDays w) .ciRuns maxPages since
      ((firstPages maxPages (runsSince w.repo since)).length < maxPages * PER_PAGE)
      (markAfter (w.cursors .ciRuns)
        ((firstPages maxPages (runsSince w.repo since)).length < maxPages * PER_PAGE)
        ((firstPages maxPages (runsSince w.repo since)).map CiRun.occurred).max?) := by
  obtain ⟨n, hn, walk, hquietly, hover, hread⟩ :=
    @reads_call _ w (runsSince w.repo since) (fun _ => false) maxPages backfillDays .ciRuns
      (.ciRuns since) (hsince ▸ rfl) (pairwise_of_forall fun _ _ => id)
      fun walk hopen => quiet_readRuns hopen
  rw [filter_unstopped] at hread
  rw [syncSource_eq hidle hquietly (quiet_settleRuns hover) (by simp)
    (by unfold budget; omega), ← hread]
  refine outcome_of_settled (by simp) (by simp)
    (advanceIf_cursors_eq _ _ _ _) fun item hstream hhas => ?_
  cases item with
  | run r =>
    simp only [advanceIf_store]
    rw [Store.Holds, Repo.Reads, ← hread]
    exact save_iff hok.runs (fun y hy => mem_of_mem_filter
      (mem_of_mem_take (hread ▸ hy))) hhas
  | commit | pull | review => exact absurd hstream (by simp [Item.stream])

theorem batch_subset {repo : Repo} {maxPages : ℕ} {since : ℤ} {p : Pull}
    (hp : p ∈ repo.batch maxPages since) : p ∈ pullsSince repo since :=
  mem_of_mem_take ((sortedBy_perm _ _).mem_iff.mp (mem_of_mem_take hp))

theorem Repo.Ok.save_reviews {repo : Repo} (hok : repo.Ok) {batch : List Pull} {p : Pull}
    {review : Review} {store : ℕ × ℕ → Option Review} (hbatch : ∀ q ∈ batch, q ∈ repo.pulls)
    (hp : p ∈ repo.pulls) (hreview : review ∈ repo.reviewsOf p.number) :
    save Review.nodeId (batch.flatMap fun q => firstPages REVIEW_PAGES (repo.reviewsOf q.number))
        store review.nodeId = some review ↔
      (p ∈ batch ∧ review ∈ firstPages REVIEW_PAGES (repo.reviewsOf p.number)) ∨
        store review.nodeId = some review := by
  have howner := hok.owner _ review hreview
  have hother : ∀ q ∈ batch, ∀ other ∈ firstPages REVIEW_PAGES (repo.reviewsOf q.number),
      other.nodeId = review.nodeId → q = p ∧ other = review := by
    intro q hq other hother heq
    have hin := mem_of_mem_take hother
    have hnumber : q.number = p.number := by
      rw [← hok.owner _ other hin, heq, howner]
    have hqp := inj_on_of_nodup_map hok.pulls (hbatch q hq) hp hnumber
    subst hqp
    exact ⟨rfl, inj_on_of_nodup_map (hok.distinct q.number) hin hreview heq⟩
  by_cases hread : p ∈ batch ∧ review ∈ firstPages REVIEW_PAGES (repo.reviewsOf p.number)
  · refine ⟨fun _ => .inl hread, fun _ => ?_⟩
    refine last_of_mem [] (mem_flatMap.mpr ⟨p, hread⟩) (fun other hin heq => ?_) store
    obtain ⟨q, hq, hin⟩ := mem_flatMap.mp hin
    exact (hother q hq other hin heq).2
  · rw [save_of_ne fun other hin heq => ?_]
    · exact (or_iff_right hread).symm
    · obtain ⟨q, hq, hin⟩ := mem_flatMap.mp hin
      obtain ⟨rfl, rfl⟩ := hother q hq other hin heq
      exact hread ⟨hq, hin⟩

theorem syncSource_reviews (hidle : w.task = none) (hok : w.repo.Ok) (maxPages : ℕ)
    (backfillDays : ℤ) {since : ℤ} (hsince : w.since .reviews backfillDays = since) :
    Outcome w (syncSource .reviews maxPages backfillDays w) .reviews maxPages since
      ((firstPages maxPages (pullsSince w.repo since)).length < maxPages * PER_PAGE ∧
        (firstPages maxPages (pullsSince w.repo since)).length -
          (w.repo.batch maxPages since).length = 0)
      (markAfter (w.cursors .reviews)
        ((firstPages maxPages (pullsSince w.repo since)).length < maxPages * PER_PAGE)
        ((w.repo.batch maxPages since).getLast?.map Pull.updated)) := by
  obtain ⟨n, hn, walk, hquietly, hover, hread⟩ :=
    @reads_call _ w w.repo.pulls (isOld since) maxPages backfillDays .reviews
      (.changed since) (hsince ▸ rfl) (isOld_mono since hok.sorted)
      fun walk hopen => quiet_readChanged hopen
  change walk.items = firstPages maxPages (pullsSince w.repo since) at hread
  obtain ⟨m, hm, store, fan, hrest, hwaiting, hmark, hcomplete, hskipped, hstored⟩ :=
    @reads_batch { w with results := [] } (w.call maxPages backfillDays)
      (fanOut (w.call maxPages backfillDays) walk.items) rfl
  have hbatch : (fanOut (w.call maxPages backfillDays) walk.items).waiting =
      w.repo.batch maxPages since := by
    rw [Repo.batch, ← hread]
    rfl
  rw [hbatch] at hm hmark hstored
  have hfew : (w.repo.batch maxPages since).length ≤ REVIEW_FANOUT_LIMIT := length_take_le _ _
  have hcomplete' : fan.walkComplete = decide
      ((firstPages maxPages (pullsSince w.repo since)).length < maxPages * PER_PAGE) := by
    rw [hcomplete, ← hread]
    rfl
  have hskipped' : fan.skipped = (firstPages maxPages (pullsSince w.repo since)).length -
      (w.repo.batch maxPages since).length := by
    rw [hskipped, ← hbatch, ← hread]
    rfl
  have hmark' : fan.watermark = (w.repo.batch maxPages since).getLast?.map Pull.updated :=
    hmark.trans (Option.or_none)
  rw [syncSource_eq hidle ((hquietly.trans (.single (quiet_fanOut hover))).trans hrest)
    (quiet_settleReviews hwaiting) (by simp)
    (by unfold budget; have := Nat.mul_le_mul_right REVIEW_PAGES hfew; omega),
    hcomplete', hskipped', hmark', ← Bool.decide_and]
  refine outcome_of_settled (by simp)
    (by simp) (advanceIf_cursors_eq _ _ _ _)
    fun item hstream hhas => ?_
  cases item with
  | review p review =>
    simp only [advanceIf_store]
    rw [Store.Holds, Repo.Reads]
    change save Review.nodeId fan.artifacts store review.nodeId = some review ↔ _
    rw [hstored]
    exact hok.save_reviews (fun q hq => mem_of_mem_filter (batch_subset hq)) hhas.1 hhas.2
  | commit | pull | run => exact absurd hstream (by simp [Item.stream])

end OmniSense.Sync
