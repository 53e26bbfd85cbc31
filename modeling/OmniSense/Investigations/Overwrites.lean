import OmniSense.Investigations.Driver

/-! What stands in an investigation's row once it is finished, over every interleaving of the
service's calls with the workers: it stays unless a worker's `_finish` finds it there. -/

namespace OmniSense.Investigations

open Agents Library List World
open Option hiding all_eq_true

variable {Json : Type} {autoflush : Bool} {w w' : World Json} {i : ℕ}

/-! ## What a committed state leaves to the next one -/

def Version.Seals (v v' : Version Json) : Prop :=
  v.row.status.isTerminal = true →
    v'.row.status = v.row.status ∧ v'.row.completedAt = v.row.completedAt ∧
      v'.row.error = v.row.error

instance : DecidableRel (@Version.Seals Json) :=
  fun _ _ => inferInstanceAs (Decidable (_ → _ ∧ _ ∧ _))

instance : IsTrans (Version Json) Version.Seals := by
  refine ⟨fun a b d h h' hterminal => ?_⟩
  obtain ⟨hstatus, hcompleted, herror⟩ := h hterminal
  obtain ⟨hstatus', hcompleted', herror'⟩ := h' (hstatus ▸ hterminal)
  exact ⟨hstatus'.trans hstatus, hcompleted'.trans hcompleted, herror'.trans herror⟩

def Truthful (ending : GraphRun × InvestigationStatus) : Prop :=
  ending.2 = .completed ∨ ending.2 = .completedWithFindings →
    ending.1.final.status ≠ .failed ∧ ending.1.final.status ≠ .cancelled

instance (ending : GraphRun × InvestigationStatus) : Decidable (Truthful ending) :=
  inferInstanceAs (Decidable (_ → _ ∧ _))

def Write.Open : Write Json → Prop
  | .set current _ => current.isTerminal = false
  | _ => True

variable {d : Driver Json} {write : Write Json} {tenantId : String}

theorem check_open {row : InvestigationRow Json} {now : ℤ} {call : Call Json}
    (h : call.check tenantId row now = .ok write) : write.Open := by
  cases call with
  | transition target error expected =>
    dsimp only [Call.check] at h
    split_ifs at h
    split at h
    · cases h
    · obtain ⟨⟨⟩, hrequire, rfl⟩ := ok_of_map h
      exact (requireTransition_ok hrequire).1
  | recordPlan | appendStep =>
    dsimp only [Call.check] at h
    split_ifs at h
    cases h
    trivial

theorem update_seals {row row' : InvestigationRow Json}
    (hopen : write.Open) (h : write.update tenantId row = some row')
    (hterminal : row.status.isTerminal = true) :
    row'.status = row.status ∧ row'.completedAt = row.completedAt ∧ row'.error = row.error := by
  cases write with
  | set current values =>
    dsimp only [Write.update] at h
    split_ifs at h with hmatch
    rw [hmatch.2, show current.isTerminal = false from hopen] at hterminal
    cases hterminal
  | plan newPlan =>
    cases h
    exact ⟨rfl, rfl, rfl⟩
  | step newStep =>
    dsimp only [Write.update] at h
    split_ifs at h <;> cases h <;> exact ⟨rfl, rfl, rfl⟩

/-! ## The invariant -/

structure Orderly (w : World Json) : Prop where
  guarded : ∀ t ∈ w.db.tasks, ∀ write ∈ t.write?, write.Open
  -- The row that a call holds is what its `UPDATE` makes of the committed one.
  pending : ∀ t ∈ w.db.tasks, ∀ row ∈ t.updated?, ∀ write ∈ t.write?,
    ∃ tenantId, write.update tenantId w.db.row = some row
  -- At most one transaction holds the row, and a worker only while it is not terminal.
  alone : ∀ (i j : ℕ), ∀ t ∈ w.db.tasks[i]?, ∀ t' ∈ w.db.tasks[j]?, t.updated?.isSome = true →
    t'.updated?.isSome = true → i = j
  locked : ∀ d ∈ w.drivers, d.locks = true →
    w.db.isFree = true ∧ w.db.row.status.isTerminal = false
  lockedAlone : ∀ (i j : ℕ), ∀ d ∈ w.drivers[i]?, ∀ d' ∈ w.drivers[j]?, d.locks = true →
    d'.locks = true → i = j
  last : ∃ v ∈ w.db.versions.getLast?, v.row = w.db.row
  sealed : w.db.versions.IsChain Version.Seals

theorem world_isFree_iff :
    w.isFree = true ↔ w.db.isFree = true ∧ ∀ d ∈ w.drivers, d.locks = false := by
  unfold isFree
  rw [Bool.and_eq_true, all_eq_true]
  simp only [Bool.not_eq_true']

/-! ## The service's steps -/

theorem Orderly.others (h : Orderly w) {t : Task Json} (ht : w.db.tasks[i]? = some t)
    (hheld : t.updated?.isSome = true) (j : ℕ) (hj : j ≠ i) :
    ∀ t ∈ w.db.tasks[j]?, t.updated? = none :=
  fun t' ht' => not_isSome_iff_eq_none.mp (AtMostOne.others h.alone ht hheld j hj t' ht')

theorem Orderly.unlocked (h : Orderly w) {t : Task Json} (ht : t ∈ w.db.tasks)
    (hheld : t.updated?.isSome = true) : ∀ d ∈ w.drivers, d.locks = false := by
  intro d hd
  by_contra hlocks
  have hfree := (h.locked d hd (Bool.not_eq_false _ ▸ hlocks)).1
  rw [isFree_iff.mp hfree t ht] at hheld
  cases hheld

theorem Orderly.putTask (h : Orderly w) {task : Task Json}
    (hguarded : ∀ write ∈ task.write?, write.Open)
    (hpending : ∀ row ∈ task.updated?,
      (∀ (j : ℕ), j ≠ i → ∀ t ∈ w.db.tasks[j]?, t.updated? = none) ∧
      (∀ write ∈ task.write?, ∃ tenantId, write.update tenantId w.db.row = some row) ∧
      ∀ d ∈ w.drivers, d.locks = false) :
    Orderly { w with db := w.db.put i task } := by
  refine ⟨fun t ht => ?_, fun t ht row hrow => ?_,
    AtMostOne.set h.alone fun hheld j hj t ht hother => ?_,
    fun d hd hlocks => ⟨?_, (h.locked d hd hlocks).2⟩, h.lockedAlone, h.last, h.sealed⟩
  · rcases mem_set_cases ht with rfl | ⟨j, _, hj⟩
    · exact hguarded
    · exact h.guarded t (mem_of_getElem? hj)
  · rcases mem_set_cases ht with rfl | ⟨j, _, hj⟩
    · exact (hpending row hrow).2.1
    · exact h.pending t (mem_of_getElem? hj) row hrow
  · obtain ⟨row, hrow⟩ := isSome_iff_exists.mp hheld
    rw [(hpending row hrow).1 j hj t ht] at hother
    cases hother
  · have hfree := isFree_iff.mp (h.locked d hd hlocks).1
    refine isFree_iff.mpr fun t ht => ?_
    rcases mem_set_cases ht with rfl | ⟨j, _, hj⟩
    · by_contra hheld
      obtain ⟨row, hrow⟩ := ne_none_iff_exists'.mp hheld
      rw [(hpending row hrow).2.2 d hd] at hlocks
      cases hlocks
    · exact hfree t (mem_of_getElem? hj)

theorem Orderly.commitTask (h : Orderly w) {inserted heard : Bool} {row : InvestigationRow Json}
    (htask : w.db.tasks[i]? = some (.writing tenantId write inserted (some row))) :
    Orderly { w with db := w.db.commit i write row heard } := by
  have hmem := mem_of_getElem? htask
  obtain ⟨tenantId', hupdate⟩ := h.pending _ hmem row rfl write rfl
  obtain ⟨v, hv, hrow⟩ := h.last
  have hnone := h.others htask rfl
  have hunlocked := h.unlocked hmem rfl
  refine ⟨fun t ht => ?_, fun t ht row' hrow' => ?_, AtMostOne.set h.alone Bool.noConfusion,
    fun d hd hlocks => ?_, h.lockedAlone, ⟨_, List.getLast?_concat, rfl⟩, ?_⟩
  · rcases mem_set_cases ht with rfl | ⟨j, _, hj⟩
    · exact fun write h => absurd h (not_mem_none write)
    · exact h.guarded t (mem_of_getElem? hj)
  · rcases mem_set_cases ht with rfl | ⟨j, hij, hj⟩
    · cases hrow'
    · rw [hnone j hij t hj] at hrow'
      cases hrow'
  · rw [hunlocked d hd] at hlocks
    cases hlocks
  · refine isChain_append.mpr ⟨h.sealed, .singleton _, ?_⟩
    rintro v' hlast _ ⟨⟩ hterminal
    obtain rfl : v = v' := mem_unique hv hlast
    rw [hrow] at hterminal ⊢
    exact update_seals (h.guarded _ hmem write rfl) hupdate hterminal

theorem Orderly.service (h : Orderly w) {e : ℕ × Action Json} {db : State Json}
    (hunlocked : db.isFree = true ∨ ∀ d ∈ w.drivers, d.locks = false)
    (hstep : w.db.step autoflush e = some db) : Orderly { w with db := db } := by
  cases step_does hstep with
  | opened tenantId call =>
    have hnew : ∀ t ∈ w.db.tasks ++ [.opened tenantId call], t ∈ w.db.tasks ∨
        t.write? = none ∧ t.updated? = none := by
      intro t ht
      rcases mem_append.mp ht with ht | ht
      · exact .inl ht
      · obtain rfl := mem_singleton.mp ht
        exact .inr ⟨rfl, rfl⟩
    refine ⟨fun t ht write hwrite => ?_, fun t ht row hrow => ?_,
      AtMostOne.concat h.alone Bool.noConfusion,
      fun d hd hlocks => ⟨isFree_iff.mpr fun t ht => ?_, (h.locked d hd hlocks).2⟩,
      h.lockedAlone, h.last, h.sealed⟩
    · rcases hnew t ht with ht | ht
      · exact h.guarded t ht write hwrite
      · rw [ht.1] at hwrite
        cases hwrite
    · rcases hnew t ht with ht | ht
      · exact h.pending t ht row hrow
      · rw [ht.2] at hrow
        cases hrow
    · rcases hnew t ht with ht | ht
      · exact isFree_iff.mp (h.locked d hd hlocks).1 t ht
      · exact ht.2
  | loaded now htask hcheck =>
    refine h.putTask ?_ fun row hrow => absurd hrow (not_mem_none row)
    rintro _ ⟨⟩
    exact check_open hcheck
  | failed i err =>
    exact h.putTask (fun write h => absurd h (not_mem_none write))
      fun row hrow => absurd hrow (not_mem_none row)
  | inserted htask =>
    have hmem := mem_of_getElem? htask
    have hguarded := h.guarded _ hmem
    refine h.putTask hguarded fun row hrow => ⟨h.others htask (isSome_of_mem hrow),
      h.pending _ hmem row hrow, h.unlocked hmem (isSome_of_mem hrow)⟩
  | @updated i tenantId write inserted row htask hfree hupdate =>
    have hmem := mem_of_getElem? htask
    have hguarded := h.guarded _ hmem
    refine h.putTask hguarded ?_
    rintro _ ⟨⟩
    refine ⟨fun j _ t ht => isFree_iff.mp hfree t (mem_of_getElem? ht), ?_, ?_⟩
    · rintro _ ⟨⟩
      exact ⟨_, hupdate⟩
    · -- The call holds the row now, so no worker does.
      refine hunlocked.resolve_left fun hstill => ?_
      have hset : .writing tenantId write inserted (some row) ∈
          (w.db.put i (.writing tenantId write inserted (some row))).tasks :=
        mem_of_getElem? (List.getElem?_set_self (List.getElem?_eq_some_iff.mp htask).1)
      have hheld := isFree_iff.mp hstill _ hset
      cases hheld
  | committed heard _ htask => exact h.commitTask htask

/-! ## The workers' steps -/

theorem Orderly.putDriver (h : Orderly w)
    (hlocks : d.locks = true → w.db.isFree = true ∧ w.db.row.status.isTerminal = false ∧
      ∀ (j : ℕ), j ≠ i → ∀ d' ∈ w.drivers[j]?, d'.locks = false) : Orderly (w.put i d) := by
  refine ⟨h.guarded, h.pending, h.alone, fun d' hd' hheld => ?_,
    AtMostOne.set h.lockedAlone fun hheld j hj d' hd' hother => ?_, h.last, h.sealed⟩
  · rcases mem_set_cases hd' with rfl | ⟨j, _, hj⟩
    · exact ⟨(hlocks hheld).1, (hlocks hheld).2.1⟩
    · exact h.locked d' (mem_of_getElem? hj) hheld
  · rw [(hlocks hheld).2.2 j hj d' hd'] at hother
    cases hother

theorem Orderly.release (h : Orderly w) (hlocks : d.locks = false) : Orderly (w.put i d) :=
  h.putDriver fun hd => absurd (hd.symm.trans hlocks) Bool.noConfusion

theorem Orderly.holder (h : Orderly w) (hd : w.drivers[i]? = some d)
    (hlocks : d.locks = true) : w.db.isFree = true ∧ w.db.row.status.isTerminal = false ∧
      ∀ (j : ℕ), j ≠ i → ∀ d' ∈ w.drivers[j]?, d'.locks = false := by
  obtain ⟨hfree, hlive⟩ := h.locked d (mem_of_getElem? hd) hlocks
  exact ⟨hfree, hlive, fun j hj d' hd' =>
    Bool.eq_false_of_not_eq_true (AtMostOne.others h.lockedAlone hd hlocks j hj d' hd')⟩

theorem Orderly.taking (h : Orderly w) (hfree : w.isFree = true)
    (hlive : w.db.row.status.isTerminal = false) (d : Driver Json) : Orderly (w.put i d) := by
  obtain ⟨hdb, hdrivers⟩ := world_isFree_iff.mp hfree
  exact h.putDriver fun _ => ⟨hdb, hlive, fun j _ d' hd' => hdrivers d' (mem_of_getElem? hd')⟩

theorem Orderly.commitDriver (h : Orderly w) {d d' : Driver Json} (hd : w.drivers[i]? = some d)
    (hlocks : d.locks = true) (hlocks' : d'.locks = false) (row : InvestigationRow Json) :
    Orderly ((w.commitRow row).put i d') := by
  obtain ⟨hfree, hlive, hothers⟩ := h.holder hd hlocks
  obtain ⟨v, hv, hrow⟩ := h.last
  have hnone := isFree_iff.mp hfree
  refine ⟨h.guarded, fun t ht row' hrow' => ?_, h.alone, fun d'' hd'' hheld => ?_,
    AtMostOne.set h.lockedAlone fun hheld => ?_, ⟨_, List.getLast?_concat, rfl⟩, ?_⟩
  · rw [hnone t ht] at hrow'
    cases hrow'
  · rcases mem_set_cases hd'' with rfl | ⟨j, hji, hj⟩
    · rw [hlocks'] at hheld
      cases hheld
    · rw [hothers j hji d'' hj] at hheld
      cases hheld
  · rw [hlocks'] at hheld
    cases hheld
  · refine isChain_append.mpr ⟨h.sealed, .singleton _, ?_⟩
    rintro v' hlast _ ⟨⟩ hterminal
    obtain rfl : v = v' := mem_unique hv hlast
    rw [hrow, hlive] at hterminal
    cases hterminal

theorem raised_unlocked (ending : Option GraphRun) (message : String) :
    (Driver.raised ending message : Driver Json).locks = false := by
  unfold Driver.raised
  split_ifs <;> rfl

/-- No worker writes over a finished investigation, and none takes a run that failed or was
cancelled for a success. -/
def World.Respects (w : World Json) : Event Json → Prop
  | .worker _ (.finish _) => w.db.row.status.isTerminal = false
  | .worker _ (.graphEnded g) => g.final.status ≠ .failed ∧ g.final.status ≠ .cancelled
  | _ => True

theorem Orderly.worker (h : Orderly w) {action : DriverAction}
    (hrespects : w.Respects (.worker i action)) (hstep : w.workerStep i action = some w') :
    Orderly w' := by
  cases action with
  | tick =>
    obtain ⟨-, hstep⟩ := ite_none_right_eq_some.mp hstep
    cases hstep
    refine ⟨h.guarded, h.pending, h.alone, fun d hd hheld => ?_,
      AtMostOne.concat h.lockedAlone Bool.noConfusion, h.last, h.sealed⟩
    rcases mem_append.mp hd with hd | hd
    · exact h.locked d hd hheld
    · obtain rfl := mem_singleton.mp hd
      cases hheld
  | select =>
    dsimp only [workerStep] at hstep
    split at hstep
    · cases hstep
      split_ifs with hqueued
      · exact h.taking hqueued.1 (by rw [hqueued.2]; rfl) _
      · exact h.release rfl
    · cases hstep
  | mark now =>
    dsimp only [workerStep] at hstep
    split at hstep
    · next hd =>
      cases hstep
      exact h.putDriver fun _ => h.holder hd rfl
    · cases hstep
  | graphEnded g =>
    dsimp only [workerStep] at hstep
    split at hstep
    · cases hstep
      exact h.release rfl
    · cases hstep
  | raise message =>
    dsimp only [workerStep] at hstep
    split at hstep
    · cases hstep
      exact h.release rfl
    · cases hstep
      exact h.release (raised_unlocked ..)
    · cases hstep
      exact h.release (raised_unlocked ..)
    · cases hstep
  | finish now =>
    dsimp only [workerStep] at hstep
    split at hstep
    · obtain ⟨hfree, hstep⟩ := ite_none_right_eq_some.mp hstep
      cases hstep
      exact h.taking hfree hrespects _
    · cases hstep
  | commit error =>
    dsimp only [workerStep] at hstep
    split at hstep
    · next row hd =>
      cases hstep
      exact h.commitDriver hd rfl (by split_ifs <;> rfl) row
    · next status failure ending row hd =>
      cases hstep
      have hreleased : ((error.map (Driver.raised ending)).getD .ended : Driver Json).locks =
          false := by
        cases error with
        | none => rfl
        | some message => exact raised_unlocked ..
      obtain ⟨hguarded, hpending, halone, hlocked, hlockedAlone, hlast, hsealed⟩ :=
        h.commitDriver hd rfl hreleased row
      exact ⟨hguarded, hpending, halone, hlocked, hlockedAlone, hlast, hsealed⟩
    · cases hstep
  | abort =>
    dsimp only [workerStep] at hstep
    split at hstep
    · cases hstep
    · cases hstep
    · cases hstep
      exact h.release rfl

theorem step_orderly (h : Orderly w) {e : Event Json} (hrespects : w.Respects e)
    (hstep : w.step autoflush e = some w') : Orderly w' := by
  cases e with
  | service e =>
    obtain ⟨db, hdb, hstep⟩ := bind_eq_some_iff.mp hstep
    obtain ⟨hunlocked, hstep⟩ := ite_none_right_eq_some.mp hstep
    cases hstep
    rw [Bool.or_eq_true, all_eq_true] at hunlocked
    simp only [Bool.not_eq_true'] at hunlocked
    exact h.service hunlocked hdb
  | worker i action => exact h.worker hrespects hstep

/-! ## What the workers commit -/

def Driver.ending? : Driver Json → Option GraphRun
  | finishing _ _ ending | finished _ _ ending _ => ending
  | claiming | selected | marked _ | driving | ended => none

def Succeeded (g : GraphRun) : Prop := g.final.status ≠ .failed ∧ g.final.status ≠ .cancelled

structure Honest (w : World Json) : Prop where
  committed : ∀ ending ∈ w.endings, Truthful ending
  underway : ∀ d ∈ w.drivers, ∀ g ∈ d.ending?, Succeeded g

theorem Honest.put (h : Honest w) (hd : ∀ g ∈ d.ending?, Succeeded g) : Honest (w.put i d) := by
  refine ⟨h.committed, fun d' hd' => ?_⟩
  rcases mem_set_cases hd' with rfl | ⟨j, _, hj⟩
  · exact hd
  · exact h.underway d' (mem_of_getElem? hj)

theorem Honest.drop (h : Honest w) (hd : d.ending? = none) : Honest (w.put i d) :=
  h.put fun g hg => absurd (hd ▸ hg) (not_mem_none g)

theorem raised_ending (ending : Option GraphRun) (message : String) :
    (Driver.raised ending message : Driver Json).ending? = none := by
  unfold Driver.raised
  split_ifs <;> rfl

theorem Honest.worker (h : Honest w) {action : DriverAction}
    (hrespects : w.Respects (.worker i action)) (hstep : w.workerStep i action = some w') :
    Honest w' := by
  cases action with
  | tick =>
    obtain ⟨-, hstep⟩ := ite_none_right_eq_some.mp hstep
    cases hstep
    refine ⟨h.committed, fun d hd => ?_⟩
    rcases mem_append.mp hd with hd | hd
    · exact h.underway d hd
    · obtain rfl := mem_singleton.mp hd
      exact fun g hg => absurd hg (not_mem_none g)
  | select | mark =>
    dsimp only [workerStep] at hstep
    split at hstep <;> cases hstep
    exact h.drop (by split_ifs <;> rfl)
  | graphEnded g =>
    dsimp only [workerStep] at hstep
    split at hstep <;> cases hstep
    refine h.put ?_
    rintro _ ⟨⟩
    exact hrespects
  | raise message =>
    dsimp only [workerStep] at hstep
    split at hstep <;> cases hstep
    · exact h.drop rfl
    · exact h.drop (raised_ending ..)
    · exact h.drop (raised_ending ..)
  | finish now =>
    dsimp only [workerStep] at hstep
    split at hstep
    · next status error ending hd =>
      obtain ⟨-, hstep⟩ := ite_none_right_eq_some.mp hstep
      cases hstep
      have hending := h.underway _ (mem_of_getElem? hd)
      split_ifs
      · exact h.put hending
      · exact h.drop (raised_ending ..)
    · cases hstep
  | commit error =>
    dsimp only [workerStep] at hstep
    split at hstep
    · next row hd =>
      cases hstep
      have hkept : Honest (w.commitRow row) := ⟨h.committed, h.underway⟩
      exact hkept.drop (by split_ifs <;> rfl)
    · next status failure ending row hd =>
      cases hstep
      have hending := h.underway _ (mem_of_getElem? hd)
      have hkept : Honest { w.commitRow row with
          endings := w.endings ++ (ending.map fun g => (g, status)).toList } := by
        refine ⟨fun e he => ?_, h.underway⟩
        rcases mem_append.mp he with he | he
        · exact h.committed e he
        · rw [mem_toList] at he
          obtain ⟨g, hg, rfl⟩ := map_eq_some_iff.mp he
          exact fun _ => hending g hg
      refine hkept.drop ?_
      cases error with
      | none => rfl
      | some message => exact raised_ending ..
    · cases hstep
  | abort =>
    dsimp only [workerStep] at hstep
    split at hstep <;> cases hstep
    exact h.drop rfl

theorem step_honest (h : Honest w) {e : Event Json} (hrespects : w.Respects e)
    (hstep : w.step autoflush e = some w') : Honest w' := by
  cases e with
  | service e =>
    obtain ⟨db, hdb, hstep⟩ := bind_eq_some_iff.mp hstep
    obtain ⟨-, hstep⟩ := ite_none_right_eq_some.mp hstep
    cases hstep
    exact ⟨h.committed, h.underway⟩
  | worker i action => exact h.worker hrespects hstep

theorem created_orderly (tenantId : String) : Orderly (created tenantId : World Json) where
  guarded t ht := absurd ht not_mem_nil
  pending t ht := absurd ht not_mem_nil
  alone i j t ht := by cases ht
  locked d hd := absurd hd not_mem_nil
  lockedAlone i j d hd := by cases hd
  last := ⟨_, rfl, rfl⟩
  sealed := .singleton _

/-- A finished investigation stays as it is, and success is only written of a run that succeeded,
over every interleaving in which the workers' last writes respect both. -/
theorem terminal_status_stands (autoflush : Bool) (tenantId : String) (events : List (Event Json))
    {w : World Json} (hrun : runs (step autoflush) (.created tenantId) events = some w)
    (hrespects : Along (step autoflush) Respects (.created tenantId) events) :
    w.db.versions.Pairwise Version.Seals ∧ ∀ ending ∈ w.endings, Truthful ending := by
  have horderly : Orderly w :=
    runs_keeps (fun _ _ _ h hC hs => step_orderly h hC hs) (created_orderly tenantId) hrespects hrun
  have hhonest : Honest w := by
    refine runs_keeps (fun _ _ _ h hC hs => step_honest h hC hs) ⟨?_, ?_⟩ hrespects hrun
    · exact fun e he => absurd he not_mem_nil
    · exact fun d hd => absurd hd not_mem_nil
  exact ⟨isChain_iff_pairwise.mp horderly.sealed, hhonest.committed⟩

def acceptedRun : GraphRun where
  start := newState 900
  deltas := [{ status := some .planning }, { report := some (some [("title", .str "Acme")]) },
    { status := some .completed }]

def completedRun : List (Event String) :=
  [.worker 0 .tick, .worker 0 .select, .worker 0 (.mark 5), .service (0, .open "acme" (.cancel none)),
    .service (0, .load 6), .worker 0 (.commit none), .service (0, .update),
    .worker 0 (.graphEnded acceptedRun), .worker 0 (.finish 90), .worker 0 (.commit none),
    .service (1, .open "acme" (.cancel none)), .service (1, .load 91)]

instance (w : World Json) : (e : Event Json) → Decidable (w.Respects e)
  | .worker _ (.finish _) => inferInstanceAs (Decidable (_ = _))
  | .worker _ (.graphEnded _) => inferInstanceAs (Decidable (_ ∧ _))
  | .service _ | .worker _ .tick | .worker _ .select | .worker _ (.mark _) | .worker _ (.raise _)
  | .worker _ (.commit _) | .worker _ .abort => .isTrue trivial

theorem terminal_status_stands_completed :
    ∃ w, runs (step false) (.created "acme") completedRun = some w ∧
      w.db.versions.Pairwise Version.Seals ∧ ∀ ending ∈ w.endings, Truthful ending := by
  have hsome : (runs (step false) (.created "acme") completedRun).isSome = true := by
    decide
  obtain ⟨w, hw⟩ := isSome_iff_exists.mp hsome
  exact ⟨w, hw, terminal_status_stands false "acme" completedRun hw (by decide)⟩

def failedRun : GraphRun where
  start := newState 900
  deltas := [{ status := some .planning }, { status := some .failed }]

def cancelledRun : List (Event String) :=
  [.worker 0 .tick, .worker 0 .select, .worker 0 (.mark 5), .worker 0 (.commit none),
    .service (0, .open "acme" (.cancel none)), .service (0, .load 6), .service (0, .update),
    .service (0, .commit true), .worker 0 (.graphEnded failedRun), .worker 0 (.finish 90),
    .worker 0 (.commit none)]

theorem cancelled_then_completed :
    ∃ w, runs (step false) (.created "acme") cancelledRun = some w ∧
      w.db.versions.map (fun v => (v.row.status, v.row.completedAt)) =
        [(.queued, none), (.planning, none), (.cancelled, some 6), (.completed, some 90)] ∧
      ¬w.db.versions.Pairwise Version.Seals ∧ ¬∀ ending ∈ w.endings, Truthful ending := by
  have hlate : ∀ w ∈ runs (step false) (.created "acme") cancelledRun,
      w.db.versions.map (fun v => (v.row.status, v.row.completedAt)) =
        [(.queued, none), (.planning, none), (.cancelled, some 6), (.completed, some 90)] ∧
      ¬w.db.versions.Pairwise Version.Seals ∧ ¬∀ ending ∈ w.endings, Truthful ending := by
    decide
  have hsome : (runs (step false) (.created "acme") cancelledRun).isSome = true := by
    decide
  obtain ⟨w, hw⟩ := isSome_iff_exists.mp hsome
  exact ⟨w, hw, hlate w hw⟩

end OmniSense.Investigations
