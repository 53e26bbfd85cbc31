import OmniSense.Sync.Watermarks

/-! Workflow runs: what their watermark promises of runs that go on after they were read, and the
steps that keep it. -/

namespace OmniSense.Sync

open Library Listing List World

attribute [local simp] runsView runsPass loaded enter report

theorem CiRun.UpTo.refl (run : CiRun) : run.UpTo run := ⟨rfl, fun _ h => h, fun _ h => h⟩

theorem CiRun.UpTo.trans {a b c : CiRun} (hab : a.UpTo b) (hbc : b.UpTo c) : a.UpTo c :=
  ⟨hbc.created.trans hab.created, fun t h => hbc.runStarted t (hab.runStarted t h),
    fun t h => hbc.conclusion t (hab.conclusion t h)⟩

abbrev RunsViewOk : View CiRun ℕ → Prop :=
  ViewOk CiRun.nodeId CiRun.created CiRun.occurred (fun since run => since ≤ run.created)
    fun t run => run.created < t

def View.From {α κ : Type} (v : View α κ) (t : ℤ) : Prop :=
  t ∈ v.mark ∨ t ∈ v.loaded ∨ ∃ pass ∈ v.pass, pass.since = t

structure RunsOk (now : ℤ) (v : View CiRun ℕ) (snapshot : List CiRun) : Prop where
  view : RunsViewOk v
  past : Past CiRun.occurred now v
  dated : ∀ run ∈ v.all, run.created ≤ run.occurred
  finished : ∀ t, v.From t → ∀ run ∈ v.all, run.created < t → run.conclusion ≠ none
  settled : ∀ run ∈ v.items, run.conclusion = none → ∀ y ∈ v.items, y.occurred ≤ run.created + 1
  exists_all : ∀ old ∈ snapshot, ∃ run ∈ v.all, run.nodeId = old.nodeId
  known : ∀ run, run ∈ v.all ∨ run ∈ v.items → ∀ old ∈ snapshot, old.nodeId = run.nodeId →
    old.UpTo run
  edge : ∀ t ∈ v.mark, ∀ run ∈ v.all, run.created ≤ t →
    ∃ stored, v.store run.nodeId = some stored ∧
      ∀ old ∈ snapshot, old.nodeId = run.nodeId → old.UpTo stored
  unfinished : ∀ t ∈ v.mark, ∀ old ∈ snapshot, old.conclusion = none → t ≤ old.created

namespace RunsOk

variable {now : ℤ} {v : View CiRun ℕ} {snapshot : List CiRun} {pass : Pass CiRun}

theorem idle (h : RunsOk now v snapshot) : RunsOk now { v with pass := none } snapshot where
  view := h.view.idle
  past := h.past.idle
  dated := h.dated
  finished := by
    rintro t (ht | ht | ⟨_, hpass, _⟩)
    · exact h.finished t (.inl ht)
    · exact h.finished t (.inr (.inl ht))
    · exact absurd hpass (Option.not_mem_none _)
  settled := fun _ hrun => absurd hrun not_mem_nil
  exists_all := h.exists_all
  known := fun run hrun => h.known run (.inl (hrun.resolve_right not_mem_nil))
  edge := h.edge
  unfinished := h.unfinished

theorem load (h : RunsOk now v snapshot) : RunsOk now { v with loaded := v.mark } snapshot :=
  { h with
    view := h.view.load
    past := h.past.load
    finished := by
      rintro t (ht | ht | ht)
      · exact h.finished t (.inl ht)
      · exact h.finished t (.inl ht)
      · exact h.finished t (.inr (.inr ht)) }

theorem unload (h : RunsOk now v snapshot) :
    RunsOk now { v with loaded := none, pass := none } snapshot :=
  { h.idle with
    view := h.view.unload
    past := h.past.unload
    finished := by
      rintro t (ht | ht | ht)
      · exact h.idle.finished t (.inl ht)
      · exact absurd ht (Option.not_mem_none _)
      · exact h.idle.finished t (.inr (.inr ht)) }

theorem start (h : RunsOk now v snapshot) (hidle : v.pass = none) {since : ℤ} (hlt : since < now)
    (pages bound : ℕ)
    (hsince : since ∈ v.loaded ∨ ∀ run ∈ v.all, since ≤ run.created) :
    RunsOk now { v with pass := some ⟨since, Walk.start pages, bound⟩ } snapshot :=
  { h.idle with
    view := by
      refine h.view.start hidle since pages bound fun run hrun hgate => ?_
      have hold : run.created < since := not_le.mp (of_decide_eq_false hgate)
      rcases hsince with hloaded | hreach
      · exact ⟨since, hloaded, hold⟩
      · exact absurd hold (not_lt.mpr (hreach run hrun))
    past := h.past.start hlt pages bound
    finished := by
      rintro t (ht | ht | ⟨pass, hpass, rfl⟩)
      · exact h.finished t (.inl ht)
      · exact h.finished t (.inr (.inl ht))
      · cases hpass
        intro run hrun hold
        rcases hsince with hloaded | hreach
        · exact h.finished since (.inr (.inl hloaded)) run hrun hold
        · exact absurd hold (not_lt.mpr (hreach run hrun)) }

theorem create (h : RunsOk now v snapshot) (nodeId : ℕ)
    (hfresh : ∀ other ∈ v.all, other.nodeId ≠ nodeId) :
    RunsOk now { v with all := ⟨nodeId, now, none, none⟩ :: v.all } snapshot := by
  have hfrom : ∀ t, v.From t → t < now := by
    rintro t (ht | ht | ⟨pass, hpass, rfl⟩)
    · exact h.past.mark t ht
    · exact h.past.loaded t ht
    · exact h.past.since pass hpass
  have hnew : ∀ old ∈ snapshot, old.nodeId ≠ nodeId := by
    intro old hold
    obtain ⟨run, hrun, heq⟩ := h.exists_all old hold
    exact heq ▸ hfresh run hrun
  refine
    { view := h.view.change ?_ ?_ ?_ ?_, past := h.past.change ?_, dated := ?_, finished := ?_
      settled := h.settled, exists_all := ?_, known := ?_, edge := ?_, unfinished := h.unfinished }
  · exact pairwise_cons.mpr ⟨fun run hrun => (h.dated run hrun).trans (h.past.all run hrun),
      h.view.sorted⟩
  · exact fresh_nodup h.view.nodup hfresh
  · intro run hrun
    rcases mem_cons.mp hrun with rfl | hrun
    · refine .inr ⟨fun t ht => not_lt.mpr (hfrom t (ht.imp_right .inl)).le, fun pass hpass => ?_⟩
      exact decide_eq_true (hfrom pass.since (.inr (.inr ⟨pass, hpass, rfl⟩))).le
    · exact .inl hrun
  · intro pass hpass run hrun
    have hgate : decide (pass.since ≤ now) = true :=
      decide_eq_true (hfrom pass.since (.inr (.inr ⟨pass, hpass, rfl⟩))).le
    rw [@filter_cons_of_pos _ (fun run : CiRun => decide (pass.since ≤ run.created)) _ _ hgate]
      at hrun ⊢
    rcases mem_cons.mp hrun with rfl | hrun
    · exact .inl (h.past.items pass hpass)
    · exact .inr ⟨run, hrun, rfl, id, fun n hn => mem_drop_insert (a := []) hn⟩
  · intro run hrun
    rcases mem_cons.mp hrun with rfl | hrun
    · exact le_rfl
    · exact h.past.all run hrun
  · intro run hrun
    rcases mem_cons.mp hrun with rfl | hrun
    · exact le_rfl
    · exact h.dated run hrun
  · intro t ht run hrun hlt
    rcases mem_cons.mp hrun with rfl | hrun
    · exact absurd hlt (not_lt.mpr (hfrom t ht).le)
    · exact h.finished t ht run hrun hlt
  · intro old hold
    obtain ⟨run, hrun, heq⟩ := h.exists_all old hold
    exact ⟨run, .tail _ hrun, heq⟩
  · intro run hrun old hold heq
    rcases hrun with hrun | hrun
    · rcases mem_cons.mp hrun with rfl | hrun
      · exact absurd heq (hnew old hold)
      · exact h.known run (.inl hrun) old hold heq
    · exact h.known run (.inr hrun) old hold heq
  · intro t ht run hrun hle
    rcases mem_cons.mp hrun with rfl | hrun
    · exact absurd hle (not_le.mpr (hfrom t (.inl ht)))
    · exact h.edge t ht run hrun hle

theorem changed (h : RunsOk now v snapshot) (g : CiRun → CiRun)
    (hid : ∀ run ∈ v.all, (g run).nodeId = run.nodeId) (hup : ∀ run ∈ v.all, run.UpTo (g run))
    (hdated : ∀ run ∈ v.all, run.created ≤ (g run).occurred ∧ (g run).occurred ≤ now)
    (hsame : ∀ run ∈ v.all, g run = run ∨ run.conclusion = none ∧
      ∀ pass ∈ v.pass, run ∈ pass.walk.items → ∀ y ∈ pass.walk.items, y.occurred ≤ run.created) :
    RunsOk now { v with all := v.all.map g } snapshot := by
  have hcreated : ∀ run ∈ v.all, (g run).created = run.created := fun run hrun =>
    (hup run hrun).created
  have hids : (v.all.map g).map CiRun.nodeId = v.all.map CiRun.nodeId := by
    rw [map_map]
    exact map_congr_left hid
  have hgate : ∀ since, (v.all.map g).filter (fun run => decide (since ≤ run.created)) =
      (v.all.filter fun run => decide (since ≤ run.created)).map g := by
    intro since
    rw [filter_map]
    refine congrArg _ (filter_congr fun run hrun => ?_)
    rw [Function.comp_apply, hcreated run hrun]
  -- A run that changes was unfinished, so no watermark has passed it.
  have hopen : ∀ run ∈ v.all, g run = run ∨ ∀ t, v.From t → t ≤ run.created := by
    intro run hrun
    refine (hsame run hrun).imp_right fun hnone t ht => ?_
    by_contra hlt
    exact h.finished t ht run hrun (not_le.mp hlt) hnone.1
  refine
    { view := h.view.change ?_ ?_ ?_ ?_, past := h.past.change ?_, dated := ?_, finished := ?_
      settled := h.settled, exists_all := ?_, known := ?_, edge := ?_, unfinished := h.unfinished }
  · rw [pairwise_map]
    refine h.view.sorted.imp_of_mem fun {a b} ha hb hab => ?_
    rw [hcreated a ha, hcreated b hb]
    exact hab
  · rw [hids]
    exact h.view.nodup
  · intro run' hrun'
    obtain ⟨run, hrun, rfl⟩ := mem_map.mp hrun'
    rcases hopen run hrun with heq | hfrom
    · exact .inl (heq.symm ▸ hrun)
    · rw [hcreated run hrun]
      exact .inr ⟨fun t ht => not_lt.mpr (hfrom t (ht.imp_right .inl)), fun pass hpass =>
        decide_eq_true (hfrom pass.since (.inr (.inr ⟨pass, hpass, rfl⟩)))⟩
  · intro pass hpass run' hrun'
    rw [hgate] at hrun' ⊢
    obtain ⟨run, hrun, rfl⟩ := mem_map.mp hrun'
    have hall := mem_of_mem_filter hrun
    rw [hcreated run hall]
    by_cases hread : run ∈ pass.walk.items ∧ g run ≠ run
    · left
      exact ((hsame run hall).resolve_left hread.2).2 pass hpass hread.1
    · refine .inr ⟨run, hrun, rfl, fun hlast => ?_, fun n hn => ?_⟩
      · by_cases heq : g run = run
        · exact heq.symm ▸ hlast
        · exact absurd ⟨hlast.mem, heq⟩ hread
      · rw [← map_drop]
        exact mem_map_of_mem hn
  · intro run' hrun'
    obtain ⟨run, hrun, rfl⟩ := mem_map.mp hrun'
    exact (hdated run hrun).2
  · intro run' hrun'
    obtain ⟨run, hrun, rfl⟩ := mem_map.mp hrun'
    rw [hcreated run hrun]
    exact (hdated run hrun).1
  · intro t ht run' hrun' hlt
    obtain ⟨run, hrun, rfl⟩ := mem_map.mp hrun'
    rw [hcreated run hrun] at hlt
    rcases hopen run hrun with heq | hfrom
    · rw [heq]
      exact h.finished t ht run hrun hlt
    · exact absurd hlt (not_lt.mpr (hfrom t ht))
  · intro old hold
    obtain ⟨run, hrun, heq⟩ := h.exists_all old hold
    exact ⟨g run, mem_map_of_mem hrun, (hid run hrun).trans heq⟩
  · intro run' hrun' old hold heq
    rcases hrun' with hrun' | hread
    · obtain ⟨run, hrun, rfl⟩ := mem_map.mp hrun'
      rw [hid run hrun] at heq
      exact (h.known run (.inl hrun) old hold heq).trans (hup run hrun)
    · exact h.known run' (.inr hread) old hold heq
  · intro t ht run' hrun' hle
    obtain ⟨run, hrun, rfl⟩ := mem_map.mp hrun'
    rw [hcreated run hrun] at hle
    rw [hid run hrun]
    exact h.edge t ht run hrun hle

theorem read (h : RunsOk now v snapshot) (hmem : v.pass = some pass)
    (hopen : pass.walk.returned = false) (size : ℕ)
    (hcut : NotCut pass.bound (v.all.filter fun run => pass.since ≤ run.created) pass.walk size)
    (horder : ∀ run ∈ ((v.all.filter fun run => pass.since ≤ run.created).drop
        pass.walk.offset).take size,
      pass.walk.offset = 0 ∨ run.occurred ≤ run.created ∨
        ∃ y ∈ pass.walk.items, run.occurred ≤ y.occurred)
    (hsettled : ∀ run ∈ pass.walk.items ++ ((v.all.filter fun run =>
        pass.since ≤ run.created).drop pass.walk.offset).take size, run.conclusion = none →
      ∀ y ∈ pass.walk.items ++ ((v.all.filter fun run => pass.since ≤ run.created).drop
        pass.walk.offset).take size, y.occurred ≤ run.created + 1) :
    RunsOk now { v with pass := some { pass with
      walk := pass.walk.read (v.all.filter fun run => pass.since ≤ run.created) size
        fun _ => false } } snapshot := by
  have hitems : (pass.walk.read (v.all.filter fun run => pass.since ≤ run.created) size
      fun _ => false).items = pass.walk.items ++ ((v.all.filter fun run =>
        pass.since ≤ run.created).drop pass.walk.offset).take size :=
    congrArg (pass.walk.items ++ ·) (takeWhile_eq_self_iff.mpr fun _ _ => rfl)
  have hold : v.items = pass.walk.items := by
    unfold View.items
    rw [hmem]
    rfl
  exact
    { h with
      view := h.view.read hmem hopen _ size (fun _ => false)
        (filter_eq_self.mpr fun _ _ => rfl).symm filter_sublist
        (pairwise_of_forall fun _ _ => id) hcut horder
      past := h.past.read hmem (fun run hrun => mem_of_mem_filter hrun) size fun _ => false
      finished := by
        rintro t (ht | ht | ⟨_, hpass, rfl⟩)
        · exact h.finished t (.inl ht)
        · exact h.finished t (.inr (.inl ht))
        · cases hpass
          exact h.finished _ (.inr (.inr ⟨pass, hmem, rfl⟩))
      settled := by
        intro run hrun hnone y hy
        exact hsettled run (hitems ▸ hrun) hnone y (hitems ▸ hy)
      known := by
        intro run hrun
        rcases hrun with hrun | hrun
        · exact h.known run (.inl hrun)
        · rcases Walk.mem_read hrun with hrun | hrun
          · exact h.known run (.inr (hold.symm ▸ hrun))
          · exact h.known run (.inl (mem_of_mem_filter hrun)) }

theorem final (h : RunsOk now v snapshot) (hmem : v.pass = some pass)
    (hover : pass.walk.returned = true) (hcomplete : pass.walk.items.length < pass.bound)
    {newest : ℤ} (hnewest : (pass.walk.items.map CiRun.occurred).max? = some newest)
    {run : CiRun} (hrun : run ∈ v.all) (hlt : run.created < newest) :
    save CiRun.nodeId pass.walk.items v.store run.nodeId = some run ∧
      (run.created < newest - 1 → run.conclusion ≠ none) := by
  have hitems : v.items = pass.walk.items := by
    unfold View.items
    rw [hmem]
    rfl
  by_cases hgate : pass.since ≤ run.created
  · have hlast := (h.view.pass pass hmem).final hover hcomplete hnewest run
      (mem_filter.mpr ⟨hrun, decide_eq_true hgate⟩) hlt
    refine ⟨hlast _, fun hold hnone => ?_⟩
    obtain ⟨y, hy, rfl⟩ := mem_map.mp (List.max?_mem hnewest)
    have hle := h.settled run (hitems ▸ hlast.mem) hnone y (hitems ▸ hy)
    omega
  · obtain ⟨hstored, hsole⟩ := h.view.kept pass hmem run hrun (decide_eq_false hgate)
    exact ⟨save_sole hstored (hitems ▸ hsole), fun _ =>
      h.finished _ (.inr (.inr ⟨pass, hmem, rfl⟩)) run hrun (not_le.mp hgate)⟩

theorem settle_stay (h : RunsOk now v snapshot) (hmem : v.pass = some pass)
    (hover : pass.walk.returned = true) :
    RunsOk now { v with store := save CiRun.nodeId pass.walk.items v.store, pass := none }
      snapshot := by
  have hitems : v.items = pass.walk.items := by
    unfold View.items
    rw [hmem]
    rfl
  refine
    { h.idle with
      view := h.view.settle hmem hover (fun t run hrun => by omega) (.inl rfl)
      past := h.past.settle hmem _ (.inl rfl)
      edge := fun t ht run hrun hle => ?_ }
  obtain ⟨stored, hstored, hup⟩ := h.edge t ht run hrun hle
  obtain ⟨later, hlater, heq | ⟨hread, hkey⟩⟩ :=
    @save_mem _ _ _ _ CiRun.nodeId _ pass.walk.items _ hstored
  · exact ⟨later, hlater, heq ▸ hup⟩
  · exact ⟨later, hlater, fun old hold heq =>
      h.known later (.inr (hitems ▸ hread)) old hold (heq.trans hkey.symm)⟩

theorem settle_advance (h : RunsOk now v snapshot) (hmem : v.pass = some pass)
    (hover : pass.walk.returned = true) (hcomplete : pass.walk.items.length < pass.bound)
    {newest : ℤ} (hnewest : (pass.walk.items.map CiRun.occurred).max? = some newest) :
    RunsOk now { v with
      store := save CiRun.nodeId pass.walk.items v.store, mark := some (newest - 1), pass := none }
      v.all where
  view := h.view.settle hmem hover (fun t run hrun => by omega)
    (.inr ⟨newest, rfl, hcomplete, hnewest⟩)
  past := h.past.settle hmem _ (.inr ⟨newest, rfl, hcomplete, hnewest⟩)
  dated := h.dated
  finished := by
    rintro t (ht | ht | ⟨_, hpass, _⟩) run hrun hlt
    · cases ht
      exact (h.final hmem hover hcomplete hnewest hrun (by omega)).2 hlt
    · exact h.finished t (.inr (.inl ht)) run hrun hlt
    · exact absurd hpass (Option.not_mem_none _)
  settled := fun _ hrun => absurd hrun not_mem_nil
  exists_all := fun old hold => ⟨old, hold, rfl⟩
  known := by
    intro run hrun old hold heq
    have hall := hrun.resolve_right not_mem_nil
    rw [inj_on_of_nodup_map h.view.nodup hold hall heq]
    exact CiRun.UpTo.refl run
  edge := by
    intro t ht run hrun hle
    cases ht
    refine ⟨run, (h.final hmem hover hcomplete hnewest hrun (by omega)).1, fun old hold heq => ?_⟩
    rw [inj_on_of_nodup_map h.view.nodup hold hrun heq]
    exact CiRun.UpTo.refl run
  unfinished := by
    intro t ht old hold hnone
    cases ht
    by_contra hlt
    exact (h.final hmem hover hcomplete hnewest hold (by omega)).2 (not_le.mp hlt) hnone

theorem changeRun {w : World} (h : RunsOk w.now w.runsView w.snapshot) {nodeId : ℕ}
    (hunread : RunUnread w nodeId) (f : CiRun → CiRun) (hid : ∀ run, (f run).nodeId = run.nodeId)
    (hup : ∀ run : CiRun, run.conclusion = none → run.UpTo (f run))
    (hoccurred : ∀ run : CiRun, (f run).occurred = run.occurred ∨
      (f run).occurred = w.now) :
    RunsOk w.now { w.runsView with all := (w.repo.changeRun nodeId f).runs } w.snapshot := by
  have hnow : ∀ run ∈ w.repo.runs, run.created ≤ w.now := fun run hrun =>
    (h.dated run hrun).trans (h.past.all run hrun)
  refine h.changed _ ?_ ?_ ?_ ?_
  · intro run _
    split_ifs
    · exact hid run
    · rfl
  · intro run _
    split_ifs with hrun
    · exact hup run hrun.2
    · exact CiRun.UpTo.refl run
  · intro run hrun
    split_ifs with hgoes
    · rcases hoccurred run with heq | heq <;> rw [heq]
      · exact ⟨h.dated run hrun, h.past.all run hrun⟩
      · exact ⟨hnow run hrun, le_rfl⟩
    · exact ⟨h.dated run hrun, h.past.all run hrun⟩
  · intro run hrun
    split_ifs with hgoes
    · exact .inr ⟨hgoes.2, fun pass hpass hread => hunread pass hpass run hread hgoes.1 hgoes.2⟩
    · exact .inl rfl

theorem step {w w' : World} {e : Event} (h : RunsOk w.now w.runsView w.snapshot)
    (hsound : Sound w e) (hstep : Sync.step w e = some w') :
    RunsOk w'.now w'.runsView w'.snapshot := by
  cases step_moves hstep with
  | tick seconds => exact { h with past := h.past.mono (by simp) }
  | @change change repo hchange =>
    cases change with
    | push | pull =>
      obtain ⟨_, hrepo⟩ := Option.ite_none_right_eq_some.mp hchange
      cases hrepo
      exact h
    | createRun nodeId =>
      obtain ⟨hfresh, hrepo⟩ := Option.ite_none_right_eq_some.mp hchange
      cases hrepo
      exact h.create nodeId hfresh
    | startRun nodeId =>
      cases hchange
      refine h.changeRun hsound _ (fun _ => rfl) (fun run _ => ⟨rfl, fun t ht => ?_,
        fun _ hc => hc⟩)
        fun run => ?_
      · simp [Option.mem_def.mp ht]
      · cases hstarted : run.runStarted <;> simp [CiRun.occurred, hstarted]
    | concludeRun nodeId conclusion =>
      cases hchange
      refine h.changeRun hsound _ (fun _ => rfl)
        (fun run hnone => ⟨rfl, fun _ ht => ht, fun c hc => ?_⟩) fun run => .inl rfl
      rw [hnone] at hc
      exact absurd hc (Option.not_mem_none _)
  | @sync _ task hnone hcursor hphase =>
    simpa [hnone, hcursor, hphase] using h.load
  | stop results => exact h.unload
  | @start task stream streams htask hphase hstreams =>
    have hidle : w.runsView.pass = none := by simp [htask, hphase]
    cases stream with
    | ciRuns =>
      have hnext : Stream.ciRuns ∈ task.next := by simp [Task.next, hphase, hstreams]
      have hloaded : w.runsView.loaded = task.cursor .ciRuns := by simp [htask]
      have hview : RunsOk w.now { w.runsView with
          pass := some (Pass.mk ((task.cursor .ciRuns).getD task.floor)
            (Walk.start task.maxPages) (task.maxPages * PER_PAGE)) } w.snapshot := by
        cases hcursor : task.cursor .ciRuns with
        | none =>
          obtain ⟨hfloor, hreach⟩ := hsound task htask .ciRuns hnext hcursor
          exact h.start hidle hfloor _ _ (.inr hreach)
        | some t =>
          rw [hcursor] at hloaded
          exact h.start hidle (h.past.loaded t hloaded) _ _ (.inl hloaded)
      simpa [htask, startStream] using hview
    | commits | pullRequests | reviews =>
      simpa [htask, hphase, startStream] using h
  | @abandon _ task htask results =>
    simpa [htask] using h.idle
  | readCommits htask hphase _ | readPulls htask hphase _ | readChanged htask hphase _
  | fanOut htask hphase _ =>
    simpa [htask, hphase] using h
  | @readReviews task fan p waiting size jobs htask hphase hwaiting =>
    unfold readReviews
    dsimp only
    split_ifs <;>
      simpa [flushReviews, htask, hphase] using h
  | @readRuns task since walk size jobs htask hphase hopen =>
    have hmem : w.runsView.pass = some ⟨since, walk, task.maxPages * PER_PAGE⟩ := by
      simp [htask, hphase]
    obtain ⟨horder, hsettled⟩ := hsound.2 _ hmem
    have hview := h.read hmem hopen size (hsound.1.runs _ hmem) horder hsettled
    simpa [htask, runsSince] using hview
  | settleCommits htask hphase _ | settlePulls htask hphase _ | settleReviews htask hphase _ =>
    simpa [settleCommits, settlePulls, settleReviews, flushReviews, advanceIf_cursors,
      advanceIf_snapshot, htask, hphase] using h
  | @settleRuns task since walk htask hphase hover =>
    have hmem : w.runsView.pass = some ⟨since, walk, task.maxPages * PER_PAGE⟩ := by
      simp [htask, hphase]
    have hstay := h.settle_stay hmem hover
    unfold settleRuns advanceIf
    cases hnewest : (walk.items.map CiRun.occurred).max? with
    | none =>
      simpa [htask, hphase] using hstay
    | some newest =>
      dsimp only
      split_ifs with hcomplete
      · have hadvance := h.settle_advance hmem hover (of_decide_eq_true hcomplete) hnewest
        simpa [advance, WATERMARK_OVERLAP, htask, hphase] using hadvance
      · simpa [htask, hphase] using hstay

end RunsOk

end OmniSense.Sync
