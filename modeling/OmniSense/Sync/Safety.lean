import OmniSense.Sync.CiRuns
import OmniSense.Sync.Fanout

/-! The watermarks of a source never pass unread work, in every run whose steps are sound. -/

namespace OmniSense.Sync

open Library Listing World

structure SyncOk (w : World) : Prop where
  commits : CommitsOk w
  pulls : PullsOk w.now w.pullsView
  reviews : ReviewsOk w.now w.reviewed
  runs : RunsOk w.now w.runsView w.snapshot

theorem SyncOk.step {w w' : World} {e : Event} (h : SyncOk w) (hsound : Sound w e)
    (hstep : Sync.step w e = some w') : SyncOk w' where
  commits := h.commits.step hsound hstep
  pulls := h.pulls.step hsound hstep
  reviews := h.reviews.step h.pulls.view hsound hstep
  runs := h.runs.step hsound hstep

theorem SyncOk.safe {w : World} (h : SyncOk w) : Safe w where
  commits := fun t ht c hc hle => (h.commits.view.mark t ht c hc hle).1
  pulls := fun t ht p hp hle => (h.pulls.view.mark t ht p hp hle).1
  reviews := h.reviews.mark
  runs := h.runs.edge
  unfinished := by
    intro t ht old hold hnone run hrun heq
    have hcreated := (h.runs.known run (.inl hrun) old hold heq.symm).created
    refine List.mem_filter.mpr ⟨hrun, decide_eq_true ?_⟩
    rw [hcreated]
    exact h.runs.unfinished t ht old hold hnone

theorem initial_ok (now : ℤ) : SyncOk (initial now) := by
  have hnone : ∀ {α : Type} {P : α → Prop}, ∀ x ∈ (none : Option α), P x :=
    fun x hx => absurd hx (Option.not_mem_none x)
  have hnil : ∀ {α : Type} {P : α → Prop}, ∀ x ∈ ([] : List α), P x :=
    fun x hx => absurd hx List.not_mem_nil
  refine ⟨⟨⟨.nil, .nil, hnone, hnone, hnone, hnone⟩, hnil⟩,
    ⟨⟨.nil, .nil, hnone, hnone, hnone, hnone⟩, ⟨hnil, hnone, hnone, hnone, hnone⟩⟩,
    ⟨⟨hnil, hnone, hnone, hnone, hnone⟩, fun _ => hnil, fun _ => .nil, hnone, hnone, hnone, hnone,
      hnone⟩,
    { view := ⟨.nil, .nil, hnone, hnone, hnone, hnone⟩
      past := ⟨hnil, hnone, hnone, hnone, hnone⟩
      dated := hnil, finished := fun _ _ => hnil, settled := hnil, exists_all := hnil
      known := fun _ _ => hnil, edge := hnone, unfinished := hnone }⟩

/-- Whatever the runs of the sync meet while the repository goes on changing. -/
theorem watermarks_safe {now : ℤ} {es : List Event} {w : World}
    (hrun : runs step (initial now) es = some w)
    (hsound : Along step Sound (initial now) es) : Safe w :=
  (runs_keeps (fun _ _ _ h hsound hstep => h.step hsound hstep) (initial_ok now) hsound hrun).safe

/-- Two commits, a pull request with two reviews, a run that has failed and one that goes on; a sync
of them, more of each, and a sync again. -/
def twoSyncs : List Event :=
  [.change (.push ⟨1, 10, 10⟩), .change (.push ⟨2, 20, 20⟩), .change (.pull 7 [(1, 0), (2, 0)]),
    .change (.createRun 5), .tick 1, .change (.startRun 5), .tick 1,
    .change (.concludeRun 5 .failure), .change (.createRun 6), .tick 1,
    .sync STREAMS 10 90, .proceed, .page 1 none, .page 1 none, .proceed,
    .proceed, .page 100 none, .proceed,
    .proceed, .page 100 none, .proceed, .page 1 none, .page 1 none, .proceed,
    .proceed, .page 100 (some .transient), .proceed, .proceed,
    .tick 5, .change (.push ⟨3, 90, 95⟩), .change (.concludeRun 6 .success),
    .change (.pull 7 [(1, 1)]), .tick 1,
    .sync STREAMS 10 90, .proceed, .page 100 none, .proceed,
    .proceed, .fault .transient,
    .proceed, .page 100 none, .proceed, .page 100 none, .proceed,
    .proceed, .page 100 none, .proceed, .proceed]

theorem watermarks_safe_twoSyncs : ∃ w, runs step (initial 100) twoSyncs = some w ∧
    w.cursors .ciRuns = some 101 ∧ Safe w := by
  have hrun : ((runs step (initial 100) twoSyncs).map fun w => w.cursors .ciRuns) =
      some (some 101) := by decide
  obtain ⟨w, hw, hcursor⟩ := Option.map_eq_some_iff.mp hrun
  exact ⟨w, hw, hcursor, watermarks_safe hw (by decide)⟩

/-- One page of one commit is fewer than a hundred, so it looks like all of them. -/
theorem short_page_passes_commit : ∃ w, runs step (initial 100)
    [.change (.push ⟨1, 10, 10⟩), .change (.push ⟨2, 20, 20⟩), .sync [.commits] 1 90, .proceed,
      .page 1 none, .proceed] = some w ∧ ¬Safe w := by
  refine ⟨_, rfl, fun h => ?_⟩
  have hstored := h.commits 19 rfl ⟨1, 10, 10⟩ (by decide) (by decide)
  exact absurd hstored (by decide)

end OmniSense.Sync
