import Mathlib.Algebra.Order.Ring.Int
import OmniSense.Library.Blocks
import OmniSense.Library.Listing

/-! The artifacts of a repository, and the listings that show them. -/

namespace OmniSense.Sync

open Library Listing List Function

/-! `GitHubReader` and `ArtifactSync.sync_source`, request by request: the listings of a repository
that goes on changing, what is stored of them, and the watermark of each stream. -/

section

/-! ## The repository -/

structure Commit where
  nodeId : ℕ
  authored : ℤ
  committed : ℤ
  deriving DecidableEq

structure Pull where
  number : ℕ
  updated : ℤ
  revision : ℕ
  deriving DecidableEq

structure Review where
  nodeId : ℕ × ℕ
  body : ℕ
  deriving DecidableEq

inductive Conclusion
  | success | skipped | failure
  deriving DecidableEq

structure CiRun where
  nodeId : ℕ
  created : ℤ
  runStarted : Option ℤ
  conclusion : Option Conclusion
  deriving DecidableEq

/-- `map_workflow_run`: `run_started_at` when present, `created_at` otherwise. -/
def CiRun.occurred (run : CiRun) : ℤ := run.runStarted.getD run.created

/-- `conclusion not in (None, "success", "skipped")`. -/
def CiRun.needsJobs (run : CiRun) : Bool := run.conclusion = some .failure

structure Repo where
  commits : List Commit
  pulls : List Pull
  reviewsOf : ℕ → List Review
  runs : List CiRun
  revision : ℕ

inductive Change
  | push (c : Commit)
  -- A pull request is opened, or it or its reviews change; the reviews it has then.
  | pull (number : ℕ) (reviews : List (ℕ × ℕ))
  | createRun (nodeId : ℕ)
  | startRun (nodeId : ℕ)
  | concludeRun (nodeId : ℕ) (conclusion : Conclusion)

namespace Repo

variable (repo : Repo)

def push (c : Commit) : Repo :=
  { repo with commits := repo.commits.orderedInsert (fun a b => b.committed ≤ a.committed) c }

/-- Whatever changes about a pull request, its `updated_at` becomes the present. -/
def changePull (now : ℤ) (number : ℕ) (reviews : List (ℕ × ℕ)) : Repo :=
  { repo with
    pulls := ⟨number, now, repo.revision⟩ :: repo.pulls.filter fun p => p.number ≠ number
    reviewsOf := Function.update repo.reviewsOf number
      (reviews.map fun review => ⟨(number, review.1), review.2⟩)
    revision := repo.revision + 1 }

def changeRun (nodeId : ℕ) (f : CiRun → CiRun) : Repo :=
  { repo with
    runs := repo.runs.map fun run =>
      if run.nodeId = nodeId ∧ run.conclusion = none then f run else run }

def change (now : ℤ) : Change → Option Repo
  | .push c =>
    if ∀ other ∈ repo.commits, other.nodeId ≠ c.nodeId then some (repo.push c) else none
  | .pull number reviews =>
    if (reviews.map Prod.fst).Nodup then some (repo.changePull now number reviews) else none
  | .createRun nodeId =>
    if ∀ other ∈ repo.runs, other.nodeId ≠ nodeId then
      some { repo with runs := ⟨nodeId, now, none, none⟩ :: repo.runs }
    else none
  | .startRun nodeId =>
    some (repo.changeRun nodeId fun run =>
      { run with runStarted := some (run.runStarted.getD now) })
  | .concludeRun nodeId conclusion =>
    some (repo.changeRun nodeId fun run => { run with conclusion := some conclusion })

end Repo

/-! ## Walking a listing -/

def PER_PAGE : ℕ := 100

/-- `_paginate` between two requests: how many pages it may still ask for, the offset that the next
URL names, what it has yielded, and whether it has returned. -/
structure Walk (α : Type) where
  pages : ℕ
  offset : ℕ
  items : List α
  returned : Bool

namespace Walk

variable {α : Type}

def start (maxPages : ℕ) : Walk α := ⟨maxPages, 0, [], maxPages = 0⟩

def read (walk : Walk α) (listing : List α) (size : ℕ) (stops : α → Bool) : Walk α :=
  let payload := (listing.drop walk.offset).take size
  let kept := payload.takeWhile fun x => !stops x
  { pages := walk.pages - 1
    offset := walk.offset + size
    items := walk.items ++ kept
    returned :=
      kept.length < payload.length || listing.length ≤ walk.offset + size || walk.pages ≤ 1 }

end Walk

/-! ## The sync -/

inductive Stream
  | commits | pullRequests | reviews | ciRuns
  deriving DecidableEq

def STREAMS : List Stream := [.commits, .pullRequests, .reviews, .ciRuns]

def WATERMARK_OVERLAP : ℤ := 1

def REVIEW_FANOUT_LIMIT : ℕ := 150

/-- `max_pages` of the reviews of one pull request. -/
def REVIEW_PAGES : ℕ := 5

def BATCH_SIZE : ℕ := 500

def DEFAULT_BACKFILL_DAYS : ℤ := 90

inductive Fault
  | quota | auth | transient | permanent
  deriving DecidableEq

structure StreamResult where
  stream : Stream
  fetched : ℕ
  complete : Bool
  error : Option Fault
  deriving DecidableEq

structure Store where
  commits : ℕ → Option Commit
  pulls : ℕ → Option Pull
  reviews : ℕ × ℕ → Option Review
  runs : ℕ → Option CiRun

/-- The loops of `_sync_reviews` over the batch: the pull requests still to read, the first of them
being read, and what is not flushed yet. -/
structure Fan where
  waiting : List Pull
  walk : Walk Review
  artifacts : List Review
  fetched : ℕ
  watermark : Option ℤ
  walkComplete : Bool
  skipped : ℕ

inductive Phase
  -- Between two streams.
  | between
  | commits (since : ℤ) (walk : Walk Commit)
  | pullRequests (since : ℤ) (walk : Walk Pull)
  -- The first loop of `_sync_reviews`.
  | changed (since : ℤ) (walk : Walk Pull)
  | reviews (fan : Fan)
  | ciRuns (since : ℤ) (walk : Walk CiRun)

/-- A call of `sync_source`; the cursors are those of the source it loaded. -/
structure Task where
  maxPages : ℕ
  floor : ℤ
  cursor : Stream → Option ℤ
  streams : List Stream
  phase : Phase

/-- `snapshot` is no part of the code: the runs there were when the watermark of `ci_runs` was last
set. -/
structure World where
  now : ℤ
  repo : Repo
  store : Store
  cursors : Stream → Option ℤ
  snapshot : List CiRun
  results : List StreamResult
  task : Option Task

def startStream (task : Task) (stream : Stream) : Phase :=
  let since := (task.cursor stream).getD task.floor
  match stream with
  | .commits => .commits since (Walk.start task.maxPages)
  | .pullRequests => .pullRequests since (Walk.start task.maxPages)
  | .reviews => .changed since (Walk.start task.maxPages)
  | .ciRuns => .ciRuns since (Walk.start task.maxPages)

/-- What a listing holds for `since`. -/
def commitsSince (repo : Repo) (since : ℤ) : List Commit :=
  repo.commits.filter fun c => since ≤ c.committed

def runsSince (repo : Repo) (since : ℤ) : List CiRun :=
  repo.runs.filter fun run => since ≤ run.created

def isOld (since : ℤ) (p : Pull) : Bool := p.updated ≤ since

def pullsSince (repo : Repo) (since : ℤ) : List Pull :=
  repo.pulls.filter fun p => !isOld since p

namespace World

variable (w : World)

def advance (stream : Stream) (newest : ℤ) : World :=
  { w with
    cursors := Function.update w.cursors stream (some (newest - WATERMARK_OVERLAP))
    snapshot := if stream = .ciRuns then w.repo.runs else w.snapshot }

/-- `if newest and clean: await self._advance(...)`. -/
def advanceIf (stream : Stream) (clean : Bool) (newest : Option ℤ) : World :=
  match newest with
  | some newest => if clean then w.advance stream newest else w
  | none => w

def enter (task : Task) (phase : Phase) : World := { w with task := some { task with phase } }

def report (task : Task) (result : StreamResult) : World :=
  { w with results := w.results ++ [result] }.enter task .between

def settleCommits (task : Task) (items : List Commit) : World :=
  let stored := { w with store.commits := save Commit.nodeId items w.store.commits }
  let complete := decide (items.length < task.maxPages * PER_PAGE)
  (stored.advanceIf .commits complete (items.map Commit.authored).max?).report task
    ⟨.commits, items.length, complete, none⟩

def settlePulls (task : Task) (items : List Pull) : World :=
  let stored := { w with store.pulls := save Pull.number items w.store.pulls }
  let complete := decide (items.length < task.maxPages * PER_PAGE)
  (stored.advanceIf .pullRequests complete (items.map Pull.updated).max?).report task
    ⟨.pullRequests, items.length, complete, none⟩

def settleRuns (task : Task) (items : List CiRun) : World :=
  let stored := { w with store.runs := save CiRun.nodeId items w.store.runs }
  let complete := decide (items.length < task.maxPages * PER_PAGE)
  (stored.advanceIf .ciRuns complete (items.map CiRun.occurred).max?).report task
    ⟨.ciRuns, items.length, complete, none⟩

/-- `await self._flush(...)` in `_sync_reviews`. -/
def flushReviews (artifacts : List Review) : World :=
  { w with store.reviews := save Review.nodeId artifacts w.store.reviews }

def settleReviews (task : Task) (fan : Fan) : World :=
  ((w.flushReviews fan.artifacts).advanceIf .reviews fan.walkComplete fan.watermark).report task
    ⟨.reviews, fan.fetched, fan.walkComplete && fan.skipped = 0, none⟩

def fanOut (task : Task) (changed : List Pull) : Fan :=
  let batch := (sortedBy Pull.updated changed).take REVIEW_FANOUT_LIMIT
  { waiting := batch
    walk := Walk.start REVIEW_PAGES
    artifacts := []
    fetched := 0
    watermark := none
    walkComplete := decide (changed.length < task.maxPages * PER_PAGE)
    skipped := changed.length - batch.length }

def proceed (task : Task) : Option World :=
  match task.phase with
  | .between =>
    match task.streams with
    | [] => some { w with task := none }
    | stream :: streams =>
      some (w.enter { task with streams } (startStream task stream))
  | .commits _ walk => if walk.returned then some (w.settleCommits task walk.items) else none
  | .pullRequests _ walk => if walk.returned then some (w.settlePulls task walk.items) else none
  | .changed _ walk =>
    if walk.returned then some (w.enter task (.reviews (fanOut task walk.items))) else none
  | .reviews fan => if fan.waiting = [] then some (w.settleReviews task fan) else none
  | .ciRuns _ walk => if walk.returned then some (w.settleRuns task walk.items) else none

/-- `except (QuotaError, AuthError)` ends the run, `except ConnectorError` the stream. -/
def fail (task : Task) (stream : Stream) (fault : Fault) : World :=
  let result : StreamResult := ⟨stream, 0, false, some fault⟩
  match fault with
  | .quota | .auth => { w with results := w.results ++ [result], task := none }
  | .transient | .permanent => w.report task result

def readReviews (task : Task) (fan : Fan) (p : Pull) (waiting : List Pull) (size : ℕ) : World :=
  let walk := fan.walk.read (w.repo.reviewsOf p.number) size fun _ => false
  if walk.returned then
    let artifacts := fan.artifacts ++ walk.items
    let flushes := decide (BATCH_SIZE ≤ artifacts.length)
    let next : Fan := { fan with
      waiting, walk := Walk.start REVIEW_PAGES, artifacts := if flushes then [] else artifacts
      fetched := fan.fetched + walk.items.length, watermark := some p.updated }
    (if flushes then w.flushReviews artifacts else w).enter task (.reviews next)
  else w.enter task (.reviews { fan with walk })

/-- The server answers the request with a page of the size; `jobs` is the first quota or auth error
that the requests for the jobs of its failed runs meet. -/
def answer (task : Task) (size : ℕ) (jobs : Option Fault) : Option World :=
  match task.phase with
  | .between => none
  | .commits since walk =>
    if walk.returned then none
    else
      let walk := walk.read (commitsSince w.repo since) size fun _ => false
      some (w.enter task (.commits since walk))
  | .pullRequests since walk =>
    if walk.returned then none
    else some (w.enter task (.pullRequests since (walk.read w.repo.pulls size (isOld since))))
  | .changed since walk =>
    if walk.returned then none
    else some (w.enter task (.changed since (walk.read w.repo.pulls size (isOld since))))
  | .reviews fan =>
    match fan.waiting with
    | [] => none
    | p :: waiting => some (w.readReviews task fan p waiting size)
  | .ciRuns since walk =>
    if walk.returned then none
    else
      let payload := ((runsSince w.repo since).drop walk.offset).take size
      match jobs.filter fun fault =>
        (fault = .quota ∨ fault = .auth) ∧ payload.any CiRun.needsJobs with
      | some fault => some (w.fail task .ciRuns fault)
      | none =>
        let walk := walk.read (runsSince w.repo since) size fun _ => false
        some (w.enter task (.ciRuns since walk))

def waitingFor : Phase → Option Stream
  | .between => none
  | .commits _ walk => if walk.returned then none else some .commits
  | .pullRequests _ walk => if walk.returned then none else some .pullRequests
  | .changed _ walk => if walk.returned then none else some .reviews
  | .reviews fan => if fan.waiting = [] then none else some .reviews
  | .ciRuns _ walk => if walk.returned then none else some .ciRuns

end World

inductive Event
  | tick (seconds : ℕ)
  | change (change : Change)
  | sync (streams : List Stream) (maxPages : ℕ) (backfillDays : ℤ)
  | proceed
  | page (size : ℕ) (jobs : Option Fault)
  | fault (fault : Fault)

def step (w : World) : Event → Option World
  | .tick seconds => some { w with now := w.now + seconds }
  | .change change => (w.repo.change w.now change).map fun repo => { w with repo }
  | .sync streams maxPages backfillDays =>
    if w.task.isNone then
      some { w with
        results := []
        task := some ⟨maxPages, w.now - backfillDays * 86400, w.cursors, streams, .between⟩ }
    else none
  | .proceed => w.task.bind w.proceed
  | .page size jobs =>
    if 1 ≤ size ∧ size ≤ PER_PAGE then w.task.bind fun task => w.answer task size jobs else none
  | .fault fault =>
    w.task.bind fun task => (World.waitingFor task.phase).map fun stream => w.fail task stream fault

def World.initial (now : ℤ) : World where
  now := now
  repo := ⟨[], [], fun _ => [], [], 0⟩
  store := ⟨fun _ => none, fun _ => none, fun _ => none, fun _ => none⟩
  cursors := fun _ => none
  snapshot := []
  results := []
  task := none

end

/-! Every change of a repository leaves its listings in order, with nothing in them twice. -/

section

theorem fresh_nodup {α κ : Type} {key : α → κ} {l : List α} {x : α}
    (hnodup : (l.map key).Nodup) (hfresh : ∀ y ∈ l, key y ≠ key x) :
    ((x :: l).map key).Nodup := by
  refine nodup_cons.mpr ⟨fun hin => ?_, hnodup⟩
  obtain ⟨y, hy, heq⟩ := mem_map.mp hin
  exact hfresh y hy heq

/-! ## Commits -/

theorem push_sorted {l : List Commit} (c : Commit)
    (h : l.Pairwise fun a b => b.committed ≤ a.committed) :
    (l.orderedInsert (fun a b => b.committed ≤ a.committed) c).Pairwise
      fun a b => b.committed ≤ a.committed := by
  exact List.Pairwise.orderedInsert c l h

theorem push_nodup {repo : Repo} {c : Commit} (hnodup : (repo.commits.map Commit.nodeId).Nodup)
    (hfresh : ∀ other ∈ repo.commits, other.nodeId ≠ c.nodeId) :
    ((repo.push c).commits.map Commit.nodeId).Nodup :=
  ((perm_orderedInsert _ c _).map Commit.nodeId).nodup_iff.mpr (fresh_nodup hnodup hfresh)

/-! ## Pull requests -/

def moved (now : ℤ) (number revision : ℕ) (pulls : List Pull) : List Pull :=
  ⟨number, now, revision⟩ :: pulls.filter fun p => p.number ≠ number

section

variable {now : ℤ} {pulls : List Pull}

theorem moved_past (hpast : ∀ p ∈ pulls, p.updated ≤ now) (number revision : ℕ) :
    ∀ p ∈ moved now number revision pulls, p.updated ≤ now := by
  intro p hp
  rcases mem_cons.mp hp with rfl | hp
  · exact le_rfl
  · exact hpast p (mem_of_mem_filter hp)

theorem moved_sorted (hsorted : pulls.Pairwise fun a b => b.updated ≤ a.updated)
    (hpast : ∀ p ∈ pulls, p.updated ≤ now) (number revision : ℕ) :
    (moved now number revision pulls).Pairwise fun a b => b.updated ≤ a.updated :=
  pairwise_cons.mpr
    ⟨fun p hp => hpast p (mem_of_mem_filter hp), hsorted.filter _⟩

theorem moved_nodup (hnodup : (pulls.map Pull.number).Nodup) (number revision : ℕ) :
    ((moved now number revision pulls).map Pull.number).Nodup :=
  fresh_nodup (hnodup.sublist (filter_sublist.map _)) fun _ hp =>
    of_decide_eq_true (mem_filter.mp hp).2

end

/-! ## Reviews -/

section

variable {reviewsOf : ℕ → List Review} {number : ℕ} {reviews : List (ℕ × ℕ)}

theorem update_owner (h : ∀ n, ∀ review ∈ reviewsOf n, review.nodeId.1 = n) :
    ∀ n, ∀ review ∈ Function.update reviewsOf number
      (reviews.map fun review => ⟨(number, review.1), review.2⟩) n, review.nodeId.1 = n := by
  intro n review hreview
  by_cases hn : n = number
  · subst hn
    rw [update_self] at hreview
    obtain ⟨_, _, rfl⟩ := mem_map.mp hreview
    rfl
  · rw [update_of_ne hn] at hreview
    exact h n review hreview

theorem update_distinct (h : ∀ n, ((reviewsOf n).map Review.nodeId).Nodup)
    (hnodup : (reviews.map Prod.fst).Nodup) :
    ∀ n, ((Function.update reviewsOf number
      (reviews.map fun review => ⟨(number, review.1), review.2⟩) n).map Review.nodeId).Nodup := by
  intro n
  by_cases hn : n = number
  · subst hn
    have hkeys : (reviews.map Prod.fst).map (fun node => (n, node)) =
        reviews.map (Review.nodeId ∘ fun review => ⟨(n, review.1), review.2⟩) := map_map
    rw [update_self, map_map, ← hkeys]
    exact hnodup.map fun _ _ heq => (Prod.mk.inj heq).2
  · rw [update_of_ne hn]
    exact h n

end

/-! ## Runs -/

theorem changeRun_nodup {repo : Repo} {nodeId : ℕ} {f : CiRun → CiRun}
    (hnodup : (repo.runs.map CiRun.nodeId).Nodup) (hf : ∀ run, (f run).nodeId = run.nodeId) :
    ((repo.changeRun nodeId f).runs.map CiRun.nodeId).Nodup := by
  unfold Repo.changeRun
  have hids : (repo.runs.map fun run => if run.nodeId = nodeId ∧ run.conclusion = none then f run
      else run).map CiRun.nodeId = repo.runs.map CiRun.nodeId := by
    rw [map_map]
    refine map_congr_left fun run _ => ?_
    rw [comp_apply]
    split_ifs
    · exact hf run
    · rfl
  rw [hids]
  exact hnodup

/-! ## The repository -/

/-- The pull requests are in the order that they are asked for, and nothing is listed twice. -/
structure Repo.Ok (repo : Repo) : Prop where
  commits : (repo.commits.map Commit.nodeId).Nodup
  pulls : (repo.pulls.map Pull.number).Nodup
  sorted : repo.pulls.Pairwise fun a b => b.updated ≤ a.updated
  owner : ∀ n, ∀ review ∈ repo.reviewsOf n, review.nodeId.1 = n
  distinct : ∀ n, ((repo.reviewsOf n).map Review.nodeId).Nodup
  runs : (repo.runs.map CiRun.nodeId).Nodup

theorem Repo.Ok.change {repo repo' : Repo} {now : ℤ} {change : Change} (hok : repo.Ok)
    (hpast : ∀ p ∈ repo.pulls, p.updated ≤ now) (h : repo.change now change = some repo') :
    repo'.Ok ∧ ∀ p ∈ repo'.pulls, p.updated ≤ now := by
  cases change with
  | push c =>
    obtain ⟨hfresh, hrepo⟩ := Option.ite_none_right_eq_some.mp h
    cases hrepo
    exact ⟨{ hok with commits := push_nodup hok.commits hfresh }, hpast⟩
  | pull number reviews =>
    obtain ⟨hnodup, hrepo⟩ := Option.ite_none_right_eq_some.mp h
    cases hrepo
    exact ⟨{ hok with
      pulls := moved_nodup hok.pulls number repo.revision
      sorted := moved_sorted hok.sorted hpast number repo.revision
      owner := update_owner hok.owner
      distinct := update_distinct hok.distinct hnodup }, moved_past hpast number repo.revision⟩
  | createRun nodeId =>
    obtain ⟨hfresh, hrepo⟩ := Option.ite_none_right_eq_some.mp h
    cases hrepo
    exact ⟨{ hok with runs := fresh_nodup hok.runs hfresh }, hpast⟩
  | startRun | concludeRun =>
    cases h
    exact ⟨{ hok with runs := changeRun_nodup hok.runs fun _ => rfl }, hpast⟩

end

end OmniSense.Sync
