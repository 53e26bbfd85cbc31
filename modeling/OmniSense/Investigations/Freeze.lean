import Mathlib.Data.List.Chain
import OmniSense.Investigations.Service

/-! What the committed states of an investigation have in common over every interleaving: the
compare-and-swap keeps the status on its walk; the plan and the steps are written without one. -/

namespace OmniSense.Investigations

open Agents Library List
open Option hiding all_eq_true

variable {Json : Type} {autoflush : Bool} {s s' : State Json} {i : ℕ} {e : ℕ × Action Json}
  {row row' : InvestigationRow Json} {write : Write Json} {tenantId : String}

/-! ## Steps -/

def Task.write? : Task Json → Option (Write Json)
  | .writing _ write _ _ => some write
  | _ => none

inductive Does (s : State Json) (e : ℕ × Action Json) : State Json → Prop
  | opened (tenantId : String) (call : Call Json) :
      Does s e { s with tasks := s.tasks ++ [.opened tenantId call] }
  | loaded {i : ℕ} {tenantId : String} {call : Call Json} {write : Write Json} (now : ℤ)
      (h : s.tasks[i]? = some (.opened tenantId call))
      (hcheck : call.check tenantId s.row now = .ok write) :
      Does s e (s.put i (.writing tenantId write false none))
  | failed (i : ℕ) (err : Failure) : Does s e (s.fail i err)
  | inserted {i : ℕ} {tenantId : String} {newStep : InvestigationStepRow Json}
      {updated : Option (InvestigationRow Json)}
      (h : s.tasks[i]? = some (.writing tenantId (.step newStep) false updated)) :
      Does s e (s.put i (.writing tenantId (.step newStep) true updated))
  | updated {i : ℕ} {tenantId : String} {write : Write Json} {inserted : Bool}
      {row : InvestigationRow Json}
      (h : s.tasks[i]? = some (.writing tenantId write inserted none)) (hfree : s.isFree = true)
      (hupdate : write.update tenantId s.row = some row) :
      Does s e (s.put i (.writing tenantId write inserted (some row)))
  | committed {i : ℕ} {tenantId : String} {write : Write Json} {inserted : Bool}
      {row : InvestigationRow Json} (heard : Bool) (he : e = (i, .commit heard))
      (h : s.tasks[i]? = some (.writing tenantId write inserted (some row))) :
      Does s e (s.commit i write row heard)

theorem insert_does {newStep : InvestigationStepRow Json} {updated : Option (InvestigationRow Json)}
    (h : s.tasks[i]? = some (.writing tenantId (.step newStep) false updated))
    (hinsert : s.insert i tenantId newStep updated = some s') : Does s e s' := by
  unfold State.insert at hinsert
  split_ifs at hinsert
  · cases hinsert
    exact .failed i _
  · cases hinsert
    exact .inserted h

theorem update_does {inserted : Bool}
    (h : s.tasks[i]? = some (.writing tenantId write inserted none))
    (hupdate : s.update i tenantId write inserted = some s') : Does s e s' := by
  unfold State.update at hupdate
  split_ifs at hupdate with hfree
  split at hupdate
  · next hrow =>
    split_ifs at hupdate <;> cases hupdate
    · exact .updated h hfree hrow
    · exact .failed i _
  all_goals
    cases hupdate
    exact .failed i _

theorem step_does (h : s.step autoflush e = some s') : Does s e s' := by
  obtain ⟨i, action⟩ := e
  dsimp only [State.step] at h
  split at h
  · split_ifs at h
    cases h
    exact .opened _ _
  · next htask =>
    split at h <;> cases h
    · next hcheck => exact .loaded _ htask hcheck
    · exact .failed i _
  · next htask =>
    split_ifs at h
    exact insert_does htask h
  · next htask =>
    split at h
    · split_ifs at h
      exact update_does htask h
    · exact update_does htask h
  · next htask =>
    split at h
    · split_ifs at h
      cases h
      exact .committed _ rfl htask
    · cases h
      exact .committed _ rfl htask
  · cases h
  · cases h
    exact .failed i _
  · cases h

/-! ## A row -/

structure InvestigationRow.WellFormed (row : InvestigationRow Json) : Prop where
  waiting : row.status = .queued → row.startedAt = none
  underway : row.status = .planning ∨ row.status = .running ∨ row.status = .reflecting →
    row.startedAt.isSome = true
  completed : row.completedAt.isSome = true → row.startedAt.isSome = true
  known : row.status ≠ .unknown

theorem InvestigationRow.WellFormed.started_eq (h : row.WellFormed) (h' : row'.WellFormed)
    (hstatus : row.status = row'.status) (hlive : row.status.isTerminal = false) :
    row.startedAt.isSome = row'.startedAt.isSome := by
  -- The status of a live row tells whether it was started.
  cases hrow : row.status with
  | queued => rw [h.waiting hrow, h'.waiting (hstatus ▸ hrow)]
  | planning => rw [h.underway (.inl hrow), h'.underway (.inl (hstatus ▸ hrow))]
  | running => rw [h.underway (.inr (.inl hrow)), h'.underway (.inr (.inl (hstatus ▸ hrow)))]
  | reflecting => rw [h.underway (.inr (.inr hrow)), h'.underway (.inr (.inr (hstatus ▸ hrow)))]
  | unknown => exact absurd hrow h.known
  | completed | completedWithFindings | failed | cancelled =>
    rw [hrow] at hlive
    cases hlive

theorem InvestigationRow.WellFormed.queued_of_live (h : row.WellFormed)
    (hlive : row.status.isTerminal = false) (hstarted : row.startedAt = none) :
    row.status = .queued := by
  have hnot : ¬(row.status = .planning ∨ row.status = .running ∨ row.status = .reflecting) := by
    intro hrunning
    have hcontra := h.underway hrunning
    rw [hstarted] at hcontra
    cases hcontra
  cases hstatus : row.status with
  | queued => rfl
  | planning | running | reflecting => simp [hstatus] at hnot
  | unknown => exact absurd hstatus h.known
  | completed | completedWithFindings | failed | cancelled =>
    rw [hstatus] at hlive
    cases hlive

def StatusMoves (current target : InvestigationStatus) : Prop :=
  target ∈ ALLOWED_TRANSITIONS current ∨ target = current ∧ current.isTerminal = false

instance (current target : InvestigationStatus) : Decidable (StatusMoves current target) :=
  inferInstanceAs (Decidable (_ ∨ _))

variable {current target : InvestigationStatus}

theorem requireTransition_ok
    (h : requireTransition current target = .ok ()) :
    current.isTerminal = false ∧ StatusMoves current target := by
  unfold requireTransition at h
  split_ifs at h with hterminal hsame hallowed
  · exact ⟨Bool.not_eq_true _ ▸ hterminal, .inr ⟨hsame, Bool.not_eq_true _ ▸ hterminal⟩⟩
  · exact ⟨Bool.not_eq_true _ ▸ hterminal, .inl hallowed⟩

def Write.Legit : Write Json → Prop
  | .set current values => ∃ (read : InvestigationRow Json) (target : InvestigationStatus)
      (error : Option String) (now : ℤ), read.WellFormed ∧ read.status = current ∧
        requireTransition current target = .ok () ∧
        values = transitionValues read target error now
  | _ => True

theorem check_legit {call : Call Json} {now : ℤ} (hrow : row.WellFormed)
    (h : call.check tenantId row now = .ok write) :
    row.status.isTerminal = false ∧ write.Legit := by
  cases call with
  | transition target error expected =>
    dsimp only [Call.check] at h
    split_ifs at h
    split at h
    · cases h
    · obtain ⟨⟨⟩, hrequire, rfl⟩ := ok_of_map h
      exact ⟨(requireTransition_ok hrequire).1, row, target, error, now, hrow, rfl, hrequire, rfl⟩
  | recordPlan | appendStep =>
    dsimp only [Call.check] at h
    split_ifs at h with _ hterminal
    cases h
    exact ⟨Bool.not_eq_true _ ▸ hterminal, trivial⟩

theorem StatusMoves.known (h : StatusMoves current target)
    (hknown : current ≠ .unknown) : target ≠ .unknown := by
  rcases h with h | ⟨rfl, _⟩
  · cases current <;> revert h <;> cases target <;> decide
  · exact hknown

theorem StatusMoves.queued {current : InvestigationStatus} (h : StatusMoves current .queued) :
    current = .queued := by
  rcases h with h | ⟨rfl, _⟩
  · revert h
    cases current <;> decide
  · rfl

section

variable {read : InvestigationRow Json} {target : InvestigationStatus} {error : Option String}
  {now : ℤ}

theorem apply_startedAt_started {t t' : ℤ} (hread : read.startedAt = some t')
    (hrow : row.startedAt = some t) :
    ((transitionValues read target error now).apply row).startedAt = some t := by
  simp [Values.apply, transitionValues, hread, hrow]

theorem apply_startedAt_waiting (hread : read.startedAt = none) (hrow : row.startedAt = none) :
    ((transitionValues read target error now).apply row).startedAt =
      if target = .planning ∨ target = .running then some now else none := by
  simp [Values.apply, transitionValues, hread, hrow]

theorem apply_spec (hread : read.WellFormed) (hrow : row.WellFormed)
    (hstatus : read.status = row.status)
    (hrequire : requireTransition row.status target = .ok ()) :
    ((transitionValues read target error now).apply row).WellFormed ∧
      ∀ t ∈ row.startedAt,
        ((transitionValues read target error now).apply row).startedAt = some t := by
  obtain ⟨hlive, hmoves⟩ := requireTransition_ok hrequire
  have hsame := hread.started_eq hrow hstatus (hstatus ▸ hlive)
  have hknown : target ≠ .unknown := hmoves.known hrow.known
  cases hstarted : row.startedAt with
  | some t =>
    rw [hstarted] at hsame
    obtain ⟨t', hread'⟩ := isSome_iff_exists.mp hsame
    have hkept : ((transitionValues read target error now).apply row).startedAt = some t :=
      apply_startedAt_started hread' hstarted
    refine ⟨⟨fun hqueued => ?_, fun _ => by rw [hkept]; rfl, fun _ => by rw [hkept]; rfl, hknown⟩, ?_⟩
    · -- Nothing but `queued` leads to `queued`, and a queued row was not started.
      obtain rfl : target = .queued := hqueued
      rw [hrow.waiting hmoves.queued] at hstarted
      cases hstarted
    · rintro _ ⟨⟩
      exact hkept
  | none =>
    rw [hstarted] at hsame
    have hread' : read.startedAt = none :=
      isNone_iff_eq_none.mp (isSome_eq_false_iff.mp hsame)
    have hqueued : row.status = .queued := hrow.queued_of_live hlive hstarted
    have hnew : ((transitionValues read target error now).apply row).startedAt =
        if target = .planning ∨ target = .running then some now else none :=
      apply_startedAt_waiting hread' hstarted
    refine ⟨⟨fun h => ?_, fun h => ?_, fun h => ?_, hknown⟩, nofun⟩
    · obtain rfl : target = .queued := h
      rw [hnew]
      rfl
    · rw [hnew]
      rw [hqueued] at hmoves
      rcases h with h | h | h <;> obtain rfl := h
      · rfl
      · rfl
      · exact absurd hmoves (by decide)
    · have hcompleted : ((transitionValues read target error now).apply row).completedAt =
          row.completedAt := by
        simp [Values.apply, transitionValues, hread']
      rw [hcompleted] at h
      have hcontra := hrow.completed h
      rw [hstarted] at hcontra
      cases hcontra

end

theorem plan_ne_set (newPlan : Json) (current : InvestigationStatus) (values : Values) :
    Write.plan newPlan ≠ .set current values := by
  intro h
  cases h

theorem step_ne_set (newStep : InvestigationStepRow Json) (current : InvestigationStatus)
    (values : Values) : Write.step newStep ≠ .set current values := by
  intro h
  cases h

theorem update_spec (hwrite : write.Legit) (hrow : row.WellFormed)
    (h : write.update tenantId row = some row') :
    row'.WellFormed ∧ (∀ t ∈ row.startedAt, row'.startedAt = some t) ∧
      ((∃ current values, write = .set current values) ∧ row.status.isTerminal = false ∧
          StatusMoves row.status row'.status ∨
        (∀ current values, write ≠ .set current values) ∧ row'.status = row.status) := by
  -- An `UPDATE` finds the row as its transaction expects it, or writes no status.
  cases write with
  | set current values =>
    obtain ⟨read, target, error, now, hread, hcurrent, hrequire, rfl⟩ := hwrite
    dsimp only [Write.update] at h
    split_ifs at h with hmatch
    cases h
    obtain ⟨-, hstatus⟩ := hmatch
    subst hstatus
    obtain ⟨hwell, hstarted⟩ := @apply_spec _ row read target error now hread hrow hcurrent hrequire
    obtain ⟨hlive, hmoves⟩ := requireTransition_ok hrequire
    exact ⟨hwell, hstarted, .inl ⟨⟨_, _, rfl⟩, hlive, hmoves⟩⟩
  | plan newPlan =>
    cases h
    exact ⟨⟨hrow.waiting, hrow.underway, hrow.completed, hrow.known⟩, fun _ ht => ht,
      .inr ⟨plan_ne_set newPlan, rfl⟩⟩
  | step newStep =>
    dsimp only [Write.update] at h
    split_ifs at h <;> cases h
    · exact ⟨⟨hrow.waiting, hrow.underway, hrow.completed, hrow.known⟩, fun _ ht => ht,
        .inr ⟨step_ne_set newStep, rfl⟩⟩
    · exact ⟨hrow, fun _ ht => ht, .inr ⟨step_ne_set newStep, rfl⟩⟩

/-! ## The committed states -/

variable (v v' : Version Json)

def Version.Moves : Prop :=
  if v'.byTransition then StatusMoves v.row.status v'.row.status
  else v'.row.status = v.row.status

def Version.KeepsStart : Prop :=
  ∀ t ∈ v.row.startedAt, v'.row.startedAt = some t

def Version.Freezes : Prop :=
  v.row.status.isTerminal = true →
    v'.row.status = v.row.status ∧ v'.row.plan = v.row.plan ∧ v'.steps = v.steps

structure Faithful (versions : List (Version Json)) : Prop where
  walk : versions.IsChain Version.Moves
  started : versions.Pairwise Version.KeepsStart
  completed : ∀ v ∈ versions, v.row.completedAt.isSome = true → v.row.startedAt.isSome = true
  frozen : versions.Pairwise Version.Freezes

instance [DecidableEq Json] : DecidableRel (@Version.Freezes Json) :=
  fun _ _ => inferInstanceAs (Decidable (_ → _ ∧ _ ∧ _))

instance : IsTrans (Version Json) Version.KeepsStart :=
  ⟨fun _ _ _ h h' t ht => h' t (h t ht)⟩

instance : IsTrans (Version Json) Version.Freezes := by
  refine ⟨fun a b d h h' hterminal => ?_⟩
  obtain ⟨hstatus, hplan, hsteps⟩ := h hterminal
  obtain ⟨hstatus', hplan', hsteps'⟩ := h' (hstatus ▸ hterminal)
  exact ⟨hstatus'.trans hstatus, hplan'.trans hplan, hsteps'.trans hsteps⟩

structure Sound (s : State Json) : Prop where
  wellFormed : s.row.WellFormed
  legit : ∀ t ∈ s.tasks, ∀ write ∈ t.write?, write.Legit
  -- The row that a transaction holds is what its `UPDATE` makes of the committed one.
  pending : ∀ t ∈ s.tasks, ∀ row ∈ t.updated?, ∀ write ∈ t.write?,
    ∃ tenantId, write.update tenantId s.row = some row
  -- At most one transaction holds the row.
  alone : ∀ (i j : ℕ), ∀ t ∈ s.tasks[i]?, ∀ t' ∈ s.tasks[j]?, t.updated?.isSome = true →
    t'.updated?.isSome = true → i = j
  last : ∃ v ∈ s.versions.getLast?, v.row = s.row ∧ v.steps = s.steps
  walk : s.versions.IsChain Version.Moves
  started : s.versions.IsChain Version.KeepsStart
  completed : ∀ v ∈ s.versions, v.row.completedAt.isSome = true → v.row.startedAt.isSome = true

theorem ended_legit (outcome : Except Failure Unit) :
    ∀ write ∈ (Task.ended outcome : Task Json).write?, write.Legit :=
  fun write h => absurd h (not_mem_none write)

theorem opened_legit (tenantId : String) (call : Call Json) :
    ∀ write ∈ (Task.opened tenantId call).write?, write.Legit :=
  fun write h => absurd h (not_mem_none write)

theorem Sound.put (h : Sound s) {task : Task Json} (hlegit : ∀ write ∈ task.write?, write.Legit)
    (hpending : ∀ row ∈ task.updated?,
      (∀ (j : ℕ), j ≠ i → ∀ t ∈ s.tasks[j]?, t.updated? = none) ∧
      ∀ write ∈ task.write?, ∃ tenantId, write.update tenantId s.row = some row) :
    Sound (s.put i task) := by
  -- A task may go on to hold the row if no other one does.
  refine ⟨h.wellFormed, fun t ht => ?_, fun t ht row hrow => ?_,
    AtMostOne.set h.alone fun hheld j hj t ht hother => ?_, h.last, h.walk, h.started, h.completed⟩
  · rcases mem_set_cases ht with rfl | ⟨j, _, hj⟩
    · exact hlegit
    · exact h.legit t (mem_of_getElem? hj)
  · rcases mem_set_cases ht with rfl | ⟨j, _, hj⟩
    · exact (hpending row hrow).2
    · exact h.pending t (mem_of_getElem? hj) row hrow
  · obtain ⟨row, hrow⟩ := isSome_iff_exists.mp hheld
    rw [(hpending row hrow).1 j hj t ht] at hother
    cases hother

theorem Sound.others (h : Sound s) {t : Task Json} (ht : s.tasks[i]? = some t)
    (hheld : t.updated?.isSome = true) (j : ℕ) (hj : j ≠ i) :
    ∀ t ∈ s.tasks[j]?, t.updated? = none :=
  fun t' ht' => not_isSome_iff_eq_none.mp (AtMostOne.others h.alone ht hheld j hj t' ht')

theorem Sound.commit (h : Sound s) {inserted heard : Bool}
    (htask : s.tasks[i]? = some (.writing tenantId write inserted (some row))) :
    Sound (s.commit i write row heard) := by
  have hmem := mem_of_getElem? htask
  obtain ⟨tenantId', hupdate⟩ := h.pending _ hmem row rfl write rfl
  obtain ⟨hwell, hstarted, hstatus⟩ :=
    update_spec (h.legit _ hmem write rfl) h.wellFormed hupdate
  obtain ⟨v, hv, hrow, hsteps⟩ := h.last
  have hnone := h.others htask rfl
  refine ⟨hwell, fun t ht => ?_, fun t ht row' hrow' => ?_,
    AtMostOne.set h.alone Bool.noConfusion, ⟨_, List.getLast?_concat, rfl, rfl⟩, ?_, ?_, ?_⟩
  · rcases mem_set_cases ht with rfl | ⟨j, _, hj⟩
    · exact ended_legit _
    · exact h.legit t (mem_of_getElem? hj)
  · rcases mem_set_cases ht with rfl | ⟨j, hij, hj⟩
    · cases hrow'
    · rw [hnone j hij t hj] at hrow'
      cases hrow'
  · refine isChain_append.mpr ⟨h.walk, .singleton _, ?_⟩
    rintro v' hlast _ ⟨⟩
    obtain rfl : v = v' := mem_unique hv hlast
    unfold Version.Moves
    rw [hrow]
    rcases hstatus with ⟨⟨current, values, rfl⟩, _, hmoves⟩ | ⟨hother, hsame⟩
    · exact hmoves
    · cases write with
      | set current values => exact absurd rfl (hother current values)
      | plan | step => exact hsame
  · refine isChain_append.mpr ⟨h.started, .singleton _, ?_⟩
    rintro v' hlast _ ⟨⟩
    obtain rfl : v = v' := mem_unique hv hlast
    unfold Version.KeepsStart
    rw [hrow]
    exact hstarted
  · intro v' hv'
    rcases mem_append.mp hv' with hv' | hv'
    · exact h.completed v' hv'
    · obtain rfl := mem_singleton.mp hv'
      exact hwell.completed

theorem isFree_iff : s.isFree = true ↔ ∀ t ∈ s.tasks, t.updated? = none := by
  unfold State.isFree
  simp only [all_eq_true, isNone_iff_eq_none]

theorem step_sound (h : Sound s) (hstep : s.step autoflush e = some s') : Sound s' := by
  cases step_does hstep with
  | opened tenantId call =>
    refine ⟨h.wellFormed, fun t ht => ?_, fun t ht row hrow => ?_,
      AtMostOne.concat h.alone Bool.noConfusion, h.last, h.walk, h.started, h.completed⟩
    · rcases mem_append.mp ht with ht | ht
      · exact h.legit t ht
      · obtain rfl := mem_singleton.mp ht
        exact opened_legit tenantId call
    · rcases mem_append.mp ht with ht | ht
      · exact h.pending t ht row hrow
      · obtain rfl := mem_singleton.mp ht
        cases hrow
  | loaded now htask hcheck =>
    refine h.put ?_ fun row hrow => absurd hrow (not_mem_none row)
    rintro _ ⟨⟩
    exact (check_legit h.wellFormed hcheck).2
  | failed i err =>
    exact h.put (ended_legit _) fun row hrow => absurd hrow (not_mem_none row)
  | inserted htask =>
    refine h.put (fun write hwrite => ?_) fun row hrow => ⟨h.others htask ?_, ?_⟩
    · exact h.legit _ (mem_of_getElem? htask) write hwrite
    · exact isSome_of_mem hrow
    · exact h.pending _ (mem_of_getElem? htask) row hrow
  | updated htask hfree hupdate =>
    refine h.put (fun write hwrite => ?_) ?_
    · exact h.legit _ (mem_of_getElem? htask) write hwrite
    rintro _ ⟨⟩
    refine ⟨fun j _ t ht => isFree_iff.mp hfree t (mem_of_getElem? ht), ?_⟩
    rintro _ ⟨⟩
    exact ⟨_, hupdate⟩
  | committed heard _ htask => exact h.commit htask

theorem created_wellFormed (tenantId : String) :
    (State.created tenantId : State Json).row.WellFormed where
  waiting _ := rfl
  underway h := by rcases h with h | h | h <;> cases h
  completed := nofun
  known := nofun

theorem created_sound (tenantId : String) : Sound (State.created tenantId : State Json) where
  wellFormed := created_wellFormed tenantId
  legit t ht := absurd ht not_mem_nil
  pending t ht := absurd ht not_mem_nil
  alone i j t ht := by cases ht
  last := ⟨_, rfl, rfl, rfl⟩
  walk := .singleton _
  started := .singleton _
  completed v hv := by
    obtain rfl := mem_singleton.mp hv
    exact nofun

/-! ## The freeze -/

def Task.unguarded : Task Json → Bool
  | .writing _ (.plan _) _ none | .writing _ (.step _) _ none => true
  | _ => false

/-- No transition to a terminal status is committed between the read of the status and the
`UPDATE` of a call that writes without it. -/
def Undisturbed (s : State Json) : ℕ × Action Json → Prop
  | (i, .commit _) => ∀ t ∈ s.tasks[i]?, ∀ row ∈ t.updated?, row.status.isTerminal = true →
      ∀ t ∈ s.tasks, t.unguarded = false
  | _ => True

instance (s : State Json) : (e : ℕ × Action Json) → Decidable (Undisturbed s e)
  | (i, .commit _) => inferInstanceAs (Decidable (∀ t ∈ s.tasks[i]?, ∀ row ∈ t.updated?,
      row.status.isTerminal = true → ∀ t ∈ s.tasks, t.unguarded = false))
  | (_, .open ..) | (_, .load _) | (_, .insert) | (_, .update) | (_, .abort) => .isTrue trivial

structure Closed (s : State Json) : Prop where
  frozen : s.versions.IsChain Version.Freezes
  closed : s.row.status.isTerminal = true →
    ∀ t ∈ s.tasks, t.unguarded = false ∧ t.updated? = none

theorem unguarded_of_plain {inserted : Bool} (h : ∀ current values, write ≠ .set current values) :
    (Task.writing tenantId write inserted none : Task Json).unguarded = true := by
  cases write with
  | set current values => exact absurd rfl (h current values)
  | plan | step => rfl

theorem step_closed (hsound : Sound s) (h : Closed s) (hundisturbed : Undisturbed s e)
    (hstep : s.step autoflush e = some s') : Closed s' := by
  -- A terminal row lets no transaction in: nothing is committed any more.
  cases step_does hstep with
  | opened tenantId call =>
    refine ⟨h.frozen, fun hterminal t ht => ?_⟩
    rcases mem_append.mp ht with ht | ht
    · exact h.closed hterminal t ht
    · obtain rfl := mem_singleton.mp ht
      exact ⟨rfl, rfl⟩
  | loaded now htask hcheck =>
    refine ⟨h.frozen, fun hterminal t ht => ?_⟩
    have hlive := (check_legit hsound.wellFormed hcheck).1
    rw [show s.row.status.isTerminal = true from hterminal] at hlive
    cases hlive
  | failed i err =>
    refine ⟨h.frozen, fun hterminal t ht => ?_⟩
    rcases mem_set_cases ht with rfl | ⟨j, _, hj⟩
    · exact ⟨rfl, rfl⟩
    · exact h.closed hterminal t (mem_of_getElem? hj)
  | @inserted i tenantId newStep updated htask =>
    refine ⟨h.frozen, fun hterminal t ht => ?_⟩
    obtain ⟨hguarded, hnone⟩ := h.closed hterminal _ (mem_of_getElem? htask)
    obtain rfl : updated = none := hnone
    cases hguarded
  | @updated i tenantId write inserted row htask hfree hupdate =>
    refine ⟨h.frozen, fun hterminal t ht => ?_⟩
    have hmem := mem_of_getElem? htask
    obtain ⟨-, -, hstatus⟩ := update_spec (hsound.legit _ hmem write rfl) hsound.wellFormed hupdate
    rcases hstatus with ⟨_, hlive, _⟩ | ⟨hplain, _⟩
    · rw [show s.row.status.isTerminal = true from hterminal] at hlive
      cases hlive
    · have hguarded := (h.closed hterminal _ hmem).1
      rw [unguarded_of_plain hplain] at hguarded
      cases hguarded
  | @committed i tenantId write inserted row heard he htask =>
    have hmem := mem_of_getElem? htask
    obtain ⟨tenantId', hupdate⟩ := hsound.pending _ hmem row rfl write rfl
    obtain ⟨-, -, hstatus⟩ := update_spec (hsound.legit _ hmem write rfl) hsound.wellFormed hupdate
    obtain ⟨v, hv, hrow, -⟩ := hsound.last
    -- The task holds the row, so the row is not terminal yet.
    have hlive : s.row.status.isTerminal ≠ true := fun hterminal =>
      nomatch (h.closed hterminal _ hmem).2
    refine ⟨isChain_append.mpr ⟨h.frozen, .singleton _, ?_⟩, fun hterminal t ht => ?_⟩
    · rintro v' hlast _ ⟨⟩ hterminal
      obtain rfl : v = v' := mem_unique hv hlast
      exact absurd (hrow ▸ hterminal) hlive
    · rcases mem_set_cases ht with rfl | ⟨j, hji, hj⟩
      · exact ⟨rfl, rfl⟩
      · refine ⟨?_, hsound.others htask rfl j hji t hj⟩
        subst he
        exact hundisturbed _ htask row rfl hterminal t (mem_of_getElem? hj)

/-- **The record is a faithful state machine** over every interleaving in which no investigation
is finished between the read and the write of a plan or a step. -/
theorem committed_states_faithful (autoflush : Bool) (tenantId : String)
    (events : List (ℕ × Action Json)) {s : State Json}
    (hrun : runs (State.step autoflush) (.created tenantId) events = some s)
    (hundisturbed : Along (State.step autoflush) Undisturbed (.created tenantId) events) :
    Faithful s.versions := by
  have hsound : Sound s := runs_invariant (fun _ _ _ => step_sound) (created_sound tenantId) hrun
  have hclosed : Closed s := by
    refine runs_keeps_with (I := Closed) (fun _ _ _ => step_sound)
      (fun _ _ _ hsound h hC => step_closed hsound h hC) ?_ (created_sound tenantId) hundisturbed hrun
    exact ⟨.singleton _, nofun⟩
  exact ⟨hsound.walk, isChain_iff_pairwise.mp hsound.started, hsound.completed,
    isChain_iff_pairwise.mp hclosed.frozen⟩

/-- The Planner's result is recorded and the first step appended while a worker starts the run; the
run is then cancelled, and a resume that comes too late is refused. -/
def plannedRun : List (ℕ × Action String) :=
  [(0, .open "acme" .start), (0, .load 5), (1, .open "acme" (.recordPlan "ask")), (1, .load 6),
    (0, .update), (0, .commit true), (1, .update), (1, .commit true),
    (2, .open "acme" (.appendStep .planner none "s0" 9)), (2, .load 7), (2, .update), (2, .insert),
    (2, .commit true), (3, .open "acme" .resume), (3, .load 8), (4, .open "acme" (.cancel none)),
    (4, .load 8), (4, .update), (4, .commit true), (3, .update)]

theorem committed_states_faithful_planned :
    ∃ s, runs (State.step false) (.created "acme") plannedRun = some s ∧ Faithful s.versions := by
  have hsome : (runs (State.step false) (.created "acme") plannedRun).isSome = true := by
    decide
  obtain ⟨s, hs⟩ := isSome_iff_exists.mp hsome
  exact ⟨s, hs, committed_states_faithful false "acme" plannedRun hs (by decide)⟩

def lateWrites : List (ℕ × Action String) :=
  [(0, .open "acme" (.recordPlan "ask")), (0, .load 5),
    (1, .open "acme" (.appendStep .planner none "s0" 9)), (1, .load 6),
    (2, .open "acme" (.cancel none)), (2, .load 7), (2, .update), (2, .commit true),
    (0, .update), (0, .commit true), (1, .update), (1, .insert), (1, .commit true)]

theorem late_writes_committed :
    ∃ s, runs (State.step false) (.created "acme") lateWrites = some s ∧
      s.versions.map (fun v => (v.row.status, v.row.plan, v.steps.length)) =
        [(.queued, none, 0), (.cancelled, none, 0), (.cancelled, some "ask", 0),
          (.cancelled, some "ask", 1)] ∧ ¬ Faithful s.versions := by
  have hlate : ∀ s ∈ runs (State.step false) (.created "acme") lateWrites,
      s.versions.map (fun v => (v.row.status, v.row.plan, v.steps.length)) =
        [(.queued, none, 0), (.cancelled, none, 0), (.cancelled, some "ask", 0),
          (.cancelled, some "ask", 1)] ∧ ¬ s.versions.Pairwise Version.Freezes := by
    decide
  have hsome : (runs (State.step false) (.created "acme") lateWrites).isSome = true := by
    decide
  obtain ⟨s, hs⟩ := isSome_iff_exists.mp hsome
  obtain ⟨hversions, hfreezes⟩ := hlate s hs
  exact ⟨s, hs, hversions, fun h => hfreezes h.frozen⟩

end OmniSense.Investigations
