import OmniSense.Library.Runs
import OmniSense.Sync.Passes

/-! What the watermarks of a source promise, and the steps that keep the promise. -/

namespace OmniSense.Sync

open Library Listing Option

/-! ## Views -/

namespace World

variable (w : World)

def loaded (stream : Stream) : Option ℤ := w.task.bind fun task => task.cursor stream

def commitsPass : Option (Pass Commit) :=
  w.task.bind fun task =>
    match task.phase with
    | .commits since walk => some ⟨since, walk, task.maxPages * PER_PAGE⟩
    | _ => none

def pullsPass : Option (Pass Pull) :=
  w.task.bind fun task =>
    match task.phase with
    | .pullRequests since walk => some ⟨since, walk, task.maxPages * PER_PAGE⟩
    | _ => none

def changedPass : Option (Pass Pull) :=
  w.task.bind fun task =>
    match task.phase with
    | .changed since walk => some ⟨since, walk, task.maxPages * PER_PAGE⟩
    | _ => none

def fan : Option Fan :=
  w.task.bind fun task =>
    match task.phase with
    | .reviews fan => some fan
    | _ => none

def runsPass : Option (Pass CiRun) :=
  w.task.bind fun task =>
    match task.phase with
    | .ciRuns since walk => some ⟨since, walk, task.maxPages * PER_PAGE⟩
    | _ => none

def commitsView : View Commit ℕ :=
  ⟨w.repo.commits, w.store.commits, w.cursors .commits, w.loaded .commits, w.commitsPass⟩

def pullsView : View Pull ℕ :=
  ⟨w.repo.pulls, w.store.pulls, w.cursors .pullRequests, w.loaded .pullRequests, w.pullsPass⟩

def runsView : View CiRun ℕ :=
  ⟨w.repo.runs, w.store.runs, w.cursors .ciRuns, w.loaded .ciRuns, w.runsPass⟩

end World

/-! ## The promise -/

structure CiRun.UpTo (old new : CiRun) : Prop where
  created : new.created = old.created
  runStarted : ∀ t ∈ old.runStarted, new.runStarted = some t
  conclusion : ∀ c ∈ old.conclusion, new.conclusion = some c

/-- What is not newer than its watermark is stored as it is; a run, as it was when the watermark was
set or later, and a run unfinished then is among those that are asked for from the watermark on. -/
structure Safe (w : World) : Prop where
  commits : ∀ t ∈ w.cursors .commits, ∀ c ∈ w.repo.commits, c.committed ≤ t →
    w.store.commits c.nodeId = some c
  pulls : ∀ t ∈ w.cursors .pullRequests, ∀ p ∈ w.repo.pulls, p.updated ≤ t →
    w.store.pulls p.number = some p
  reviews : ∀ t ∈ w.cursors .reviews, ∀ p ∈ w.repo.pulls, p.updated ≤ t →
    ∀ review ∈ w.repo.reviewsOf p.number, w.store.reviews review.nodeId = some review
  runs : ∀ t ∈ w.cursors .ciRuns, ∀ run ∈ w.repo.runs, run.created ≤ t →
    ∃ stored, w.store.runs run.nodeId = some stored ∧
      ∀ old ∈ w.snapshot, old.nodeId = run.nodeId → old.UpTo stored
  unfinished : ∀ t ∈ w.cursors .ciRuns, ∀ old ∈ w.snapshot, old.conclusion = none →
    ∀ run ∈ w.repo.runs, run.nodeId = old.nodeId → run ∈ runsSince w.repo t

/-! ## The condition -/

variable (w : World)

/-- A pushed commit is not authored after its commit date, which lies past the watermarks in force
and not before what the pass in progress asks for or has read. -/
def PushInOrder (c : Commit) : Prop :=
  c.authored ≤ c.committed ∧ (∀ t ∈ w.cursors .commits, t < c.committed) ∧
    (∀ t ∈ w.loaded .commits, t < c.committed) ∧
    ∀ pass ∈ w.commitsPass,
      pass.since ≤ c.committed ∧ ∀ y ∈ pass.walk.items, y.authored ≤ c.committed

/-- A run that the pass in progress has read unfinished does not go on, unless it was not created
before the newest time read. -/
def RunUnread (nodeId : ℕ) : Prop :=
  ∀ pass ∈ w.runsPass, ∀ run ∈ pass.walk.items, run.nodeId = nodeId → run.conclusion = none →
    ∀ y ∈ pass.walk.items, y.occurred ≤ run.created

def Reaches (floor : ℤ) : Stream → Prop
  | .commits => ∀ c ∈ w.repo.commits, floor ≤ c.committed
  | .pullRequests | .reviews => ∀ p ∈ w.repo.pulls, floor < p.updated
  | .ciRuns => ∀ run ∈ w.repo.runs, floor ≤ run.created

def Task.next (task : Task) : Option Stream :=
  match task.phase with
  | .between => task.streams.head?
  | _ => none

/-- A page of runs: on a later page none has started after the newest time read, and an unfinished
run is at most a second older than it. -/
def RunsInOrder (size : ℕ) : Prop :=
  ∀ pass ∈ w.runsPass,
    let page := ((runsSince w.repo pass.since).drop pass.walk.offset).take size
    (∀ run ∈ page, pass.walk.offset = 0 ∨ run.occurred ≤ run.created ∨
      ∃ y ∈ pass.walk.items, run.occurred ≤ y.occurred) ∧
    ∀ run ∈ pass.walk.items ++ page, run.conclusion = none →
      ∀ y ∈ pass.walk.items ++ page, y.occurred ≤ run.created + 1

structure Uncut (w : World) (size : ℕ) : Prop where
  commits : ∀ pass ∈ w.commitsPass,
    NotCut pass.bound (commitsSince w.repo pass.since) pass.walk size
  pulls : ∀ pass ∈ w.pullsPass, NotCut pass.bound (pullsSince w.repo pass.since) pass.walk size
  changed : ∀ pass ∈ w.changedPass, NotCut pass.bound (pullsSince w.repo pass.since) pass.walk size
  reviews : ∀ fan ∈ w.fan, ∀ p ∈ fan.waiting.head?, fan.walk.pages ≤ 1 →
    (w.repo.reviewsOf p.number).length ≤ fan.walk.offset + size
  runs : ∀ pass ∈ w.runsPass, NotCut pass.bound (runsSince w.repo pass.since) pass.walk size

def Sound : Event → Prop
  | .change (.push c) => PushInOrder w c
  | .change (.startRun nodeId) => RunUnread w nodeId
  | .change (.concludeRun nodeId _) => RunUnread w nodeId
  | .proceed => ∀ task ∈ w.task, ∀ stream ∈ task.next, task.cursor stream = none →
      task.floor < w.now ∧ Reaches w task.floor stream
  | .page size _ => Uncut w size ∧ RunsInOrder w size
  | _ => True

section

variable (w : World)

instance (c : Commit) : Decidable (PushInOrder w c) :=
  inferInstanceAs (Decidable (_ ∧ (∀ t ∈ w.cursors .commits, t < c.committed) ∧
    (∀ t ∈ w.loaded .commits, t < c.committed) ∧ ∀ pass ∈ w.commitsPass, _ ∧ _))

instance (nodeId : ℕ) : Decidable (RunUnread w nodeId) :=
  inferInstanceAs (Decidable (∀ pass ∈ w.runsPass, ∀ run ∈ pass.walk.items, run.nodeId = nodeId →
    run.conclusion = none → ∀ y ∈ pass.walk.items, y.occurred ≤ run.created))

instance (floor : ℤ) : (stream : Stream) → Decidable (Reaches w floor stream)
  | .commits => inferInstanceAs (Decidable (∀ c ∈ w.repo.commits, floor ≤ c.committed))
  | .pullRequests => inferInstanceAs (Decidable (∀ p ∈ w.repo.pulls, floor < p.updated))
  | .reviews => inferInstanceAs (Decidable (∀ p ∈ w.repo.pulls, floor < p.updated))
  | .ciRuns => inferInstanceAs (Decidable (∀ run ∈ w.repo.runs, floor ≤ run.created))

instance (size : ℕ) : Decidable (RunsInOrder w size) :=
  inferInstanceAs (Decidable (∀ pass ∈ w.runsPass,
    (∀ run ∈ ((runsSince w.repo pass.since).drop pass.walk.offset).take size,
      pass.walk.offset = 0 ∨ run.occurred ≤ run.created ∨
        ∃ y ∈ pass.walk.items, run.occurred ≤ y.occurred) ∧
    ∀ run ∈ pass.walk.items ++ ((runsSince w.repo pass.since).drop pass.walk.offset).take size,
      run.conclusion = none → ∀ y ∈ pass.walk.items ++
        ((runsSince w.repo pass.since).drop pass.walk.offset).take size,
        y.occurred ≤ run.created + 1))

instance {α : Type} (bound : ℕ) (l : List α) (walk : Walk α) (size : ℕ) :
    Decidable (NotCut bound l walk size) :=
  inferInstanceAs (Decidable (_ → _ ∨ _))

theorem uncut_iff (size : ℕ) : Uncut w size ↔
    (∀ pass ∈ w.commitsPass,
      NotCut pass.bound (commitsSince w.repo pass.since) pass.walk size) ∧
    (∀ pass ∈ w.pullsPass, NotCut pass.bound (pullsSince w.repo pass.since) pass.walk size) ∧
    (∀ pass ∈ w.changedPass, NotCut pass.bound (pullsSince w.repo pass.since) pass.walk size) ∧
    (∀ fan ∈ w.fan, ∀ p ∈ fan.waiting.head?, fan.walk.pages ≤ 1 →
      (w.repo.reviewsOf p.number).length ≤ fan.walk.offset + size) ∧
    ∀ pass ∈ w.runsPass, NotCut pass.bound (runsSince w.repo pass.since) pass.walk size := by
  constructor
  · exact fun h => ⟨h.commits, h.pulls, h.changed, h.reviews, h.runs⟩
  · rintro ⟨hcommits, hpulls, hchanged, hreviews, hruns⟩
    exact ⟨hcommits, hpulls, hchanged, hreviews, hruns⟩

instance (size : ℕ) : Decidable (Uncut w size) := decidable_of_iff' _ (uncut_iff w size)

instance (w : World) : (e : Event) → Decidable (Sound w e)
  | .change (.push c) => inferInstanceAs (Decidable (PushInOrder w c))
  | .change (.startRun nodeId) => inferInstanceAs (Decidable (RunUnread w nodeId))
  | .change (.concludeRun nodeId _) => inferInstanceAs (Decidable (RunUnread w nodeId))
  | .proceed => inferInstanceAs (Decidable (∀ task ∈ w.task, ∀ stream ∈ task.next,
      task.cursor stream = none → task.floor < w.now ∧ Reaches w task.floor stream))
  | .page size _ => inferInstanceAs (Decidable (Uncut w size ∧ RunsInOrder w size))
  | .change (.pull _ _) => .isTrue trivial
  | .change (.createRun _) => .isTrue trivial
  | .tick _ => .isTrue trivial
  | .sync _ _ _ => .isTrue trivial
  | .fault _ => .isTrue trivial

end

/-! ## Frames -/

namespace World

variable {w : World} {stream other : Stream} {clean : Bool} {newest : Option ℤ}

@[simp] theorem advanceIf_now : (w.advanceIf stream clean newest).now = w.now := by
  unfold advanceIf
  split <;> [split_ifs <;> rfl; rfl]

@[simp] theorem advanceIf_repo : (w.advanceIf stream clean newest).repo = w.repo := by
  unfold advanceIf
  split <;> [split_ifs <;> rfl; rfl]

@[simp] theorem advanceIf_store : (w.advanceIf stream clean newest).store = w.store := by
  unfold advanceIf
  split <;> [split_ifs <;> rfl; rfl]

@[simp] theorem advanceIf_results :
    (w.advanceIf stream clean newest).results = w.results := by
  unfold advanceIf
  split <;> [split_ifs <;> rfl; rfl]

theorem advanceIf_cursors (h : other ≠ stream) :
    (w.advanceIf stream clean newest).cursors other = w.cursors other := by
  unfold advanceIf
  split
  · split_ifs
    · exact Function.update_of_ne h _ _
    · rfl
  · rfl

theorem advanceIf_snapshot (h : stream ≠ .ciRuns) :
    (w.advanceIf stream clean newest).snapshot = w.snapshot := by
  unfold advanceIf
  split
  · split_ifs
    · exact if_neg h
    · rfl
  · rfl

theorem advanceIf_mark (w : World) (stream : Stream) (clean : Prop) [Decidable clean]
    (newest : Option ℤ) :
    (w.advanceIf stream (decide clean) newest).cursors stream = w.cursors stream ∨
      ∃ n, (w.advanceIf stream (decide clean) newest).cursors stream = some (n - 1) ∧ clean ∧
        newest = some n := by
  unfold advanceIf
  cases newest with
  | none => exact .inl rfl
  | some n =>
    by_cases hclean : clean
    · refine .inr ⟨n, ?_, hclean, rfl⟩
      simp [hclean, advance, WATERMARK_OVERLAP]
    · simp [hclean]

end World

/-! ## What a step does -/

inductive Moves (w : World) : Event → World → Prop
  | tick (seconds : ℕ) : Moves w (.tick seconds) { w with now := w.now + seconds }
  | change {change : Change} {repo : Repo} (h : w.repo.change w.now change = some repo) :
      Moves w (.change change) { w with repo := repo }
  | sync {e : Event} {task : Task} (h : w.task = none) (hcursor : task.cursor = w.cursors)
      (hphase : task.phase = .between) : Moves w e { w with results := [], task := some task }
  | stop {e : Event} (results : List StreamResult) :
      Moves w e { w with results := results, task := none }
  | start {task : Task} {stream : Stream} {streams : List Stream} (h : w.task = some task)
      (hphase : task.phase = .between) (hstreams : task.streams = stream :: streams) :
      Moves w .proceed (w.enter { task with streams := streams } (startStream task stream))
  | abandon {e : Event} {task : Task} (h : w.task = some task) (results : List StreamResult) :
      Moves w e ({ w with results := results }.enter task .between)
  | readCommits {task : Task} {since : ℤ} {walk : Walk Commit} {size : ℕ} {jobs : Option Fault}
      (h : w.task = some task) (hphase : task.phase = .commits since walk)
      (hopen : walk.returned = false) :
      Moves w (.page size jobs)
        (w.enter task (.commits since (walk.read (commitsSince w.repo since) size fun _ => false)))
  | readPulls {task : Task} {since : ℤ} {walk : Walk Pull} {size : ℕ} {jobs : Option Fault}
      (h : w.task = some task) (hphase : task.phase = .pullRequests since walk)
      (hopen : walk.returned = false) :
      Moves w (.page size jobs)
        (w.enter task (.pullRequests since (walk.read w.repo.pulls size (isOld since))))
  | readChanged {task : Task} {since : ℤ} {walk : Walk Pull} {size : ℕ} {jobs : Option Fault}
      (h : w.task = some task) (hphase : task.phase = .changed since walk)
      (hopen : walk.returned = false) :
      Moves w (.page size jobs)
        (w.enter task (.changed since (walk.read w.repo.pulls size (isOld since))))
  | readReviews {task : Task} {fan : Fan} {p : Pull} {waiting : List Pull} {size : ℕ}
      {jobs : Option Fault} (h : w.task = some task) (hphase : task.phase = .reviews fan)
      (hwaiting : fan.waiting = p :: waiting) :
      Moves w (.page size jobs) (w.readReviews task fan p waiting size)
  | readRuns {task : Task} {since : ℤ} {walk : Walk CiRun} {size : ℕ} {jobs : Option Fault}
      (h : w.task = some task) (hphase : task.phase = .ciRuns since walk)
      (hopen : walk.returned = false) :
      Moves w (.page size jobs)
        (w.enter task (.ciRuns since (walk.read (runsSince w.repo since) size fun _ => false)))
  | settleCommits {task : Task} {since : ℤ} {walk : Walk Commit} (h : w.task = some task)
      (hphase : task.phase = .commits since walk) (hover : walk.returned = true) :
      Moves w .proceed (w.settleCommits task walk.items)
  | settlePulls {task : Task} {since : ℤ} {walk : Walk Pull} (h : w.task = some task)
      (hphase : task.phase = .pullRequests since walk) (hover : walk.returned = true) :
      Moves w .proceed (w.settlePulls task walk.items)
  | fanOut {task : Task} {since : ℤ} {walk : Walk Pull} (h : w.task = some task)
      (hphase : task.phase = .changed since walk) (hover : walk.returned = true) :
      Moves w .proceed (w.enter task (.reviews (World.fanOut task walk.items)))
  | settleReviews {task : Task} {fan : Fan} (h : w.task = some task)
      (hphase : task.phase = .reviews fan) (hwaiting : fan.waiting = []) :
      Moves w .proceed (w.settleReviews task fan)
  | settleRuns {task : Task} {since : ℤ} {walk : Walk CiRun} (h : w.task = some task)
      (hphase : task.phase = .ciRuns since walk) (hover : walk.returned = true) :
      Moves w .proceed (w.settleRuns task walk.items)

variable {w w' : World} {task : Task}

theorem fail_moves {w : World} (h : w.task = some task) (e : Event)
    (stream : Stream) (fault : Fault) : Moves w e (w.fail task stream fault) := by
  cases fault with
  | quota | auth => exact .stop _
  | transient | permanent => exact .abandon h _

theorem proceed_moves (h : w.task = some task)
    (hstep : w.proceed task = some w') : Moves w .proceed w' := by
  unfold World.proceed at hstep
  cases hphase : task.phase with
  | between =>
    rw [hphase] at hstep
    cases hstreams : task.streams with
    | nil =>
      rw [hstreams] at hstep
      cases hstep
      exact .stop w.results
    | cons stream streams =>
      rw [hstreams] at hstep
      cases hstep
      exact .start h hphase hstreams
  | commits since walk =>
    rw [hphase] at hstep
    obtain ⟨hover, hw⟩ := ite_none_right_eq_some.mp hstep
    cases hw
    exact .settleCommits h hphase hover
  | pullRequests since walk =>
    rw [hphase] at hstep
    obtain ⟨hover, hw⟩ := ite_none_right_eq_some.mp hstep
    cases hw
    exact .settlePulls h hphase hover
  | changed since walk =>
    rw [hphase] at hstep
    obtain ⟨hover, hw⟩ := ite_none_right_eq_some.mp hstep
    cases hw
    exact .fanOut h hphase hover
  | reviews fan =>
    rw [hphase] at hstep
    obtain ⟨hwaiting, hw⟩ := ite_none_right_eq_some.mp hstep
    cases hw
    exact .settleReviews h hphase hwaiting
  | ciRuns since walk =>
    rw [hphase] at hstep
    obtain ⟨hover, hw⟩ := ite_none_right_eq_some.mp hstep
    cases hw
    exact .settleRuns h hphase hover

theorem answer_moves {size : ℕ} {jobs : Option Fault}
    (h : w.task = some task) (hstep : w.answer task size jobs = some w') :
    Moves w (.page size jobs) w' := by
  unfold World.answer at hstep
  cases hphase : task.phase with
  | between =>
    rw [hphase] at hstep
    exact absurd hstep (by simp)
  | commits since walk =>
    rw [hphase] at hstep
    obtain ⟨hopen, hw⟩ := ite_none_left_eq_some.mp hstep
    cases hw
    exact .readCommits h hphase (Bool.eq_false_iff.mpr hopen)
  | pullRequests since walk =>
    rw [hphase] at hstep
    obtain ⟨hopen, hw⟩ := ite_none_left_eq_some.mp hstep
    cases hw
    exact .readPulls h hphase (Bool.eq_false_iff.mpr hopen)
  | changed since walk =>
    rw [hphase] at hstep
    obtain ⟨hopen, hw⟩ := ite_none_left_eq_some.mp hstep
    cases hw
    exact .readChanged h hphase (Bool.eq_false_iff.mpr hopen)
  | reviews fan =>
    rw [hphase] at hstep
    dsimp only at hstep
    cases hwaiting : fan.waiting with
    | nil =>
      rw [hwaiting] at hstep
      exact absurd hstep (by simp)
    | cons p waiting =>
      rw [hwaiting] at hstep
      cases hstep
      exact .readReviews h hphase hwaiting
  | ciRuns since walk =>
    rw [hphase] at hstep
    obtain ⟨hopen, hw⟩ := ite_none_left_eq_some.mp hstep
    dsimp only at hw
    split at hw
    · cases hw
      exact fail_moves h _ _ _
    · cases hw
      exact .readRuns h hphase (Bool.eq_false_iff.mpr hopen)

theorem step_moves {e : Event} (h : step w e = some w') : Moves w e w' := by
  cases e with
  | tick seconds =>
    cases h
    exact .tick seconds
  | change change =>
    obtain ⟨repo, hrepo, rfl⟩ := map_eq_some_iff.mp h
    exact .change hrepo
  | sync streams maxPages backfillDays =>
    obtain ⟨hnone, hw⟩ := ite_none_right_eq_some.mp h
    cases hw
    exact .sync (isNone_iff_eq_none.mp hnone) rfl rfl
  | proceed =>
    obtain ⟨task, htask, hw⟩ := bind_eq_some_iff.mp h
    exact proceed_moves htask hw
  | page size jobs =>
    obtain ⟨_, hw⟩ := ite_none_right_eq_some.mp h
    obtain ⟨task, htask, hw⟩ := bind_eq_some_iff.mp hw
    exact answer_moves htask hw
  | fault fault =>
    obtain ⟨task, htask, hw⟩ := bind_eq_some_iff.mp h
    obtain ⟨stream, _, rfl⟩ := map_eq_some_iff.mp hw
    exact fail_moves htask _ stream fault

theorem Moves.repo {e : Event} (h : Moves w e w') :
    (∃ change, w.repo.change w.now change = some w'.repo ∧ w'.now = w.now) ∨
      w'.repo = w.repo ∧ w.now ≤ w'.now := by
  cases h with
  | tick seconds => exact .inr ⟨rfl, by simp⟩
  | @change change repo hchange => exact .inl ⟨change, hchange, rfl⟩
  | readReviews =>
    unfold World.readReviews
    dsimp only
    split_ifs <;> exact .inr ⟨rfl, le_rfl⟩
  | settleCommits => simp [World.settleCommits, World.report, World.enter]
  | settlePulls => simp [World.settlePulls, World.report, World.enter]
  | settleReviews => simp [World.settleReviews, World.flushReviews, World.report, World.enter]
  | settleRuns => simp [World.settleRuns, World.report, World.enter]
  | sync | stop | start | abandon | readCommits | readPulls | readChanged | readRuns | fanOut =>
    exact .inr ⟨rfl, le_rfl⟩

end OmniSense.Sync
