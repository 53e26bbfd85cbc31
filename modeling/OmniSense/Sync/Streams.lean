import OmniSense.Sync.Watermarks

/-! Commits and pull requests: each step keeps what the watermark of the stream promises. -/

namespace OmniSense.Sync

open Library Listing List World

/-! ## Commits -/

abbrev CommitsViewOk : View Commit ℕ → Prop :=
  ViewOk Commit.nodeId Commit.committed Commit.authored (fun since c => since ≤ c.committed)
    fun t c => c.committed ≤ t

structure CommitsOk (w : World) : Prop where
  view : CommitsViewOk w.commitsView
  dated : ∀ c ∈ w.repo.commits, c.authored ≤ c.committed

attribute [local simp] loaded enter commitsView pullsView commitsPass pullsPass report flushReviews

theorem CommitsOk.push {w : World} {c : Commit} (h : CommitsOk w) (horder : PushInOrder w c)
    (hfresh : ∀ other ∈ w.repo.commits, other.nodeId ≠ c.nodeId) :
    CommitsOk { w with repo := w.repo.push c } := by
  obtain ⟨hdated, hmark, hloaded, hpass⟩ := horder
  have hmem : ∀ x, x ∈ (w.repo.push c).commits ↔ x = c ∨ x ∈ w.repo.commits := fun x =>
    mem_orderedInsert _
  refine ⟨h.view.change ?_ ?_ ?_ ?_, fun x hx => ?_⟩
  · exact push_sorted c h.view.sorted
  · exact push_nodup h.view.nodup hfresh
  · intro x hx
    refine ((hmem x).mp hx).symm.imp_right ?_
    rintro rfl
    refine ⟨?_, fun pass hpass' => decide_eq_true (hpass pass hpass').1⟩
    rintro t (ht | ht)
    · exact not_le.mpr (hmark t ht)
    · exact not_le.mpr (hloaded t ht)
  · intro pass hpass' x' hx'
    obtain ⟨hin, hgate⟩ := mem_filter.mp hx'
    rcases (hmem x').mp hin with rfl | hold
    · exact .inl (hpass pass hpass').2
    · right
      refine ⟨x', mem_filter.mpr ⟨hold, hgate⟩, rfl, id, fun n hn => ?_⟩
      have hc : decide (pass.since ≤ c.committed) = true := decide_eq_true (hpass pass hpass').1
      change x' ∈ ((w.repo.commits.orderedInsert _ c).filter _).drop n
      rw [orderedInsert_eq_take_drop, filter_append,
        @filter_cons_of_pos _ (fun c : Commit => decide (pass.since ≤ c.committed)) _ _ hc]
      refine mem_drop_insert ?_
      rw [← filter_append, takeWhile_append_dropWhile]
      exact hn
  · rcases (hmem x).mp hx with rfl | hold
    · exact hdated
    · exact h.dated x hold

theorem CommitsOk.step {w w' : World} {e : Event} (h : CommitsOk w) (hsound : Sound w e)
    (hstep : Sync.step w e = some w') : CommitsOk w' := by
  cases step_moves hstep with
  | tick seconds => exact ⟨h.view, h.dated⟩
  | @change change repo hchange =>
    cases change with
    | push c =>
      obtain ⟨hfresh, hrepo⟩ := Option.ite_none_right_eq_some.mp hchange
      cases hrepo
      exact h.push hsound hfresh
    | pull | createRun =>
      obtain ⟨_, hrepo⟩ := Option.ite_none_right_eq_some.mp hchange
      cases hrepo
      exact ⟨h.view, h.dated⟩
    | startRun | concludeRun =>
      cases hchange
      exact ⟨h.view, h.dated⟩
  | @sync _ task hnone hcursor hphase =>
    have hview := h.view.load
    refine ⟨?_, h.dated⟩
    simpa [hnone, hcursor, hphase] using hview
  | stop results => exact ⟨h.view.unload, h.dated⟩
  | @start task stream streams htask hphase hstreams =>
    refine ⟨?_, h.dated⟩
    have hidle : w.commitsView.pass = none := by simp [htask, hphase]
    cases stream with
    | commits =>
      have hview := h.view.start hidle ((task.cursor .commits).getD task.floor) task.maxPages
        (task.maxPages * PER_PAGE) ?_
      · simpa [htask, startStream] using hview
      · intro x hx hgate
        have hlt : x.committed < (task.cursor .commits).getD task.floor :=
          not_le.mp (of_decide_eq_false hgate)
        cases hcursor : task.cursor .commits with
        | none =>
          have hnext : Stream.commits ∈ task.next := by simp [Task.next, hphase, hstreams]
          have hreach := (hsound task htask .commits hnext hcursor).2 x hx
          rw [hcursor] at hlt
          exact absurd hreach (not_le.mpr hlt)
        | some t =>
          rw [hcursor] at hlt
          refine ⟨t, ?_, hlt.le⟩
          simp [htask, hcursor]
    | pullRequests | reviews | ciRuns =>
      simpa [htask, hphase, startStream] using h.view
  | @abandon _ task htask results =>
    refine ⟨?_, h.dated⟩
    simpa [htask] using h.view.idle
  | @readCommits task since walk size jobs htask hphase hopen =>
    refine ⟨?_, h.dated⟩
    have hmem : w.commitsView.pass = some ⟨since, walk, task.maxPages * PER_PAGE⟩ := by
      simp [htask, hphase]
    have hview := h.view.read hmem hopen (commitsSince w.repo since) size (fun _ => false)
      (filter_eq_self.mpr fun _ _ => rfl).symm filter_sublist
      (pairwise_of_forall fun _ _ => id) (hsound.1.commits _ hmem) fun y hy =>
        .inr (.inl (h.dated y
          (mem_of_mem_filter (mem_of_mem_drop (mem_of_mem_take hy)))))
    simpa [htask] using hview
  | readPulls htask hphase _ | readChanged htask hphase _ | readRuns htask hphase _
  | fanOut htask hphase _ =>
    refine ⟨?_, h.dated⟩
    simpa [htask, hphase] using h.view
  | @readReviews task fan p waiting size jobs htask hphase hwaiting =>
    refine ⟨?_, ?_⟩
    · unfold readReviews
      dsimp only
      split_ifs <;>
        simpa [htask, hphase] using h.view
    · unfold readReviews
      dsimp only
      split_ifs <;> exact h.dated
  | @settleCommits task since walk htask hphase hover =>
    have hmem : w.commitsView.pass = some ⟨since, walk, task.maxPages * PER_PAGE⟩ := by
      simp [htask, hphase]
    refine ⟨?_, ?_⟩
    · have hview := h.view.settle hmem hover (fun t c hc => by omega)
        (advanceIf_mark
          { w with store.commits := save Commit.nodeId walk.items w.store.commits } .commits
          (walk.items.length < task.maxPages * PER_PAGE) (walk.items.map Commit.authored).max?)
      simpa [settleCommits, htask, hphase] using hview
    · simpa [settleCommits] using h.dated
  | settlePulls htask hphase _ | settleReviews htask hphase _ | settleRuns htask hphase _ =>
    refine ⟨?_, ?_⟩
    · simpa [settlePulls, settleReviews, settleRuns, advanceIf_cursors, htask, hphase] using h.view
    · simpa [settlePulls, settleReviews, settleRuns] using h.dated

/-! ## Pull requests -/

abbrev PullsViewOk : View Pull ℕ → Prop :=
  ViewOk Pull.number Pull.updated Pull.updated (fun since p => !isOld since p)
    fun t p => p.updated ≤ t

structure PullsOk (now : ℤ) (v : View Pull ℕ) : Prop where
  view : PullsViewOk v
  past : Past Pull.updated now v

theorem moved_filter {now since : ℤ} (number revision : ℕ) (pulls : List Pull)
    (hsince : since < now) : (moved now number revision pulls).filter (fun p => !isOld since p) =
      moved now number revision (pulls.filter fun p => !isOld since p) := by
  unfold moved
  rw [filter_cons_of_pos (by simpa [isOld] using hsince), filter_filter,
    filter_filter]
  simp only [Bool.and_comm]

variable {now : ℤ}

theorem PassOk.moved {pulls : List Pull} {bound : ℕ} {walk : Walk Pull}
    (h : PassOk Pull.number Pull.updated Pull.updated bound pulls walk)
    (hnodup : (pulls.map Pull.number).Nodup) (hitems : ∀ p ∈ walk.items, p.updated ≤ now)
    (number revision : ℕ) :
    PassOk Pull.number Pull.updated Pull.updated bound (moved now number revision pulls) walk := by
  refine h.change fun p hp => ?_
  rcases mem_cons.mp hp with rfl | hp
  · exact .inl hitems
  · obtain ⟨hold, hne⟩ := mem_filter.mp hp
    exact .inr ⟨p, hold, rfl, id, fun n hn =>
      mem_drop_moved hnodup hn (of_decide_eq_true hne) _⟩

theorem Past.moved {κ : Type} {v : View Pull κ} (h : Past Pull.updated now v)
    (number revision : ℕ) :
    Past Pull.updated now { v with all := Sync.moved now number revision v.all } :=
  h.change (moved_past h.all number revision)

theorem PullsOk.moved {v : View Pull ℕ} (h : PullsOk now v) (number revision : ℕ) :
    PullsOk now { v with all := moved now number revision v.all } := by
  have hmem : ∀ p ∈ Sync.moved now number revision v.all,
      p = ⟨number, now, revision⟩ ∨ p ∈ v.all ∧ p.number ≠ number := by
    intro p hp
    refine (mem_cons.mp hp).imp_right fun hp => ?_
    exact (mem_filter.mp hp).imp_right of_decide_eq_true
  refine ⟨h.view.change ?_ ?_ ?_ ?_, h.past.moved number revision⟩
  · exact moved_sorted h.view.sorted h.past.all number revision
  · exact moved_nodup h.view.nodup number revision
  · intro p hp
    rcases hmem p hp with rfl | ⟨hold, _⟩
    · refine .inr ⟨fun t ht => not_le.mpr ?_, fun pass hpass => ?_⟩
      · exact ht.elim (h.past.mark t) (h.past.loaded t)
      · simpa [isOld] using h.past.since pass hpass
    · exact .inl hold
  · intro pass hpass p hp
    rw [moved_filter number revision v.all (h.past.since pass hpass)] at hp
    rcases mem_cons.mp hp with rfl | hp'
    · exact .inl (h.past.items pass hpass)
    · obtain ⟨hold, hne⟩ := mem_filter.mp hp'
      refine .inr ⟨p, hold, rfl, id, fun n hn => ?_⟩
      rw [moved_filter number revision v.all (h.past.since pass hpass)]
      exact mem_drop_moved (h.view.nodup.sublist (filter_sublist.map _)) hn
        (of_decide_eq_true hne) _

theorem PullsOk.step {w w' : World} {e : Event} (h : PullsOk w.now w.pullsView) (hsound : Sound w e)
    (hstep : Sync.step w e = some w') : PullsOk w'.now w'.pullsView := by
  cases step_moves hstep with
  | tick seconds => exact ⟨h.view, h.past.mono (by simp)⟩
  | @change change repo hchange =>
    cases change with
    | push | createRun =>
      obtain ⟨_, hrepo⟩ := Option.ite_none_right_eq_some.mp hchange
      cases hrepo
      exact h
    | pull number reviews =>
      obtain ⟨_, hrepo⟩ := Option.ite_none_right_eq_some.mp hchange
      cases hrepo
      exact h.moved number w.repo.revision
    | startRun | concludeRun =>
      cases hchange
      exact h
  | @sync _ task hnone hcursor hphase =>
    have hview : PullsOk w.now _ := ⟨h.view.load, h.past.load⟩
    simpa [hnone, hcursor, hphase] using hview
  | stop results => exact ⟨h.view.unload, h.past.unload⟩
  | @start task stream streams htask hphase hstreams =>
    have hidle : w.pullsView.pass = none := by simp [htask, hphase]
    cases stream with
    | pullRequests =>
      have hnext : Stream.pullRequests ∈ task.next := by simp [Task.next, hphase, hstreams]
      have hloaded : w.pullsView.loaded = task.cursor .pullRequests := by simp [htask]
      have hview : PullsOk w.now { w.pullsView with
          pass := some (Pass.mk ((task.cursor .pullRequests).getD task.floor)
            (Walk.start task.maxPages) (task.maxPages * PER_PAGE)) } := by
        cases hcursor : task.cursor .pullRequests with
        | none =>
          obtain ⟨hfloor, hreach⟩ := hsound task htask .pullRequests hnext hcursor
          refine ⟨h.view.start hidle _ _ _ fun p hp hgate => ?_, h.past.start hfloor _ _⟩
          exact absurd (hreach p hp) (not_lt.mpr (by simpa [isOld] using hgate))
        | some t =>
          rw [hcursor] at hloaded
          refine ⟨h.view.start hidle _ _ _ fun p hp hgate => ⟨t, hloaded, ?_⟩,
            h.past.start (h.past.loaded t hloaded) _ _⟩
          simpa [isOld] using hgate
      simpa [htask, startStream] using hview
    | commits | reviews | ciRuns =>
      simpa [htask, hphase, startStream] using h
  | @abandon _ task htask results =>
    have hview : PullsOk w.now _ := ⟨h.view.idle, h.past.idle⟩
    simpa [htask] using hview
  | readCommits htask hphase _ | readChanged htask hphase _ | readRuns htask hphase _
  | fanOut htask hphase _ =>
    simpa [htask, hphase] using h
  | @readPulls task since walk size jobs htask hphase hopen =>
    have hmem : w.pullsView.pass = some ⟨since, walk, task.maxPages * PER_PAGE⟩ := by
      simp [htask, hphase]
    have hview : PullsOk w.now _ :=
      ⟨h.view.read hmem hopen w.repo.pulls size (isOld since) rfl (List.Sublist.refl _)
        (isOld_mono since h.view.sorted) (hsound.1.pulls _ hmem) fun _ _ => .inr (.inl le_rfl),
      h.past.read hmem (fun _ => id) size (isOld since)⟩
    simpa [htask] using hview
  | @readReviews task fan p waiting size jobs htask hphase hwaiting =>
    unfold readReviews
    dsimp only
    split_ifs <;>
      simpa [htask, hphase] using h
  | settleCommits htask hphase _ | settleReviews htask hphase _ | settleRuns htask hphase _ =>
    simpa [settleCommits, settleReviews, settleRuns, advanceIf_cursors, htask, hphase] using h
  | @settlePulls task since walk htask hphase hover =>
    have hmem : w.pullsView.pass = some ⟨since, walk, task.maxPages * PER_PAGE⟩ := by
      simp [htask, hphase]
    have hmark := advanceIf_mark
      { w with store.pulls := save Pull.number walk.items w.store.pulls } .pullRequests
      (walk.items.length < task.maxPages * PER_PAGE) (walk.items.map Pull.updated).max?
    have hview : PullsOk w.now _ :=
      ⟨h.view.settle hmem hover (fun t p hp => by omega) hmark, h.past.settle hmem _ hmark⟩
    simpa [settlePulls, htask, hphase] using hview

end OmniSense.Sync
