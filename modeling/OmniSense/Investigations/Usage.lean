import Mathlib.Algebra.BigOperators.Group.List.Basic
import Mathlib.Data.List.Nodup
import OmniSense.Investigations.Steps

/-! Whether every token of a step is counted once. The counters of the investigation are added to
under its lock; the step row is written without another look at it. -/

namespace OmniSense.Investigations.Steps

open Library List State
open Option hiding map_map mem_map

variable {settings : Settings} {s s' : State} {i : ℕ} {e : ℕ × Action} {tenantId : String}
  {write : Write} {row : InvestigationRow} {steps : List InvestigationStepRow} {budgets : List ℤ}

/-! ## What holds of every state -/

structure Adds (column usage : Option ℤ) : Prop where
  written : ∀ value ∈ column, usage = some value
  kept : column = none → 0 ≤ usage.getD 0

def Write.Sound (row : InvestigationRow) (budgets : List ℤ) : Write → Prop
  | .insert step => step.tenantId = row.tenantId ∧ step.sequence ≤ row.stepCount ∧
      (∃ budget ∈ budgets, step.sequence < budget) ∧ step.tokenInput = 0 ∧ step.tokenOutput = 0
  | .update _ columns usage => Adds columns.tokenInput (usage.map Prod.fst) ∧
      Adds columns.tokenOutput (usage.map Prod.snd)

def Write.Leaves (steps : List InvestigationStepRow) (flushed : InvestigationStepRow) : Write → Prop
  | .insert step => flushed = step ∧ ∀ other ∈ steps, clashes step other = false
  | .update stepId columns _ =>
      ∃ before ∈ steps, before.id = stepId ∧ flushed = columns.apply before

def Task.Sound (settings : Settings) (row : InvestigationRow) (steps : List InvestigationStepRow)
    (budgets : List ℤ) : Task → Prop
  | .opened _ (.appendStep _ maxSteps) => budgetOf settings maxSteps ∈ budgets
  | .opened _ _ => True
  | .ended _ => True
  | .writing tenantId write flushed updated =>
    tenantId = row.tenantId ∧ write.Sound row budgets ∧
      (∀ step ∈ flushed, step.Valid ∧ write.Leaves steps step) ∧
      ∀ row' ∈ updated, row' = write.count tenantId row

def Write.inserts : Write → Bool
  | .insert _ => true
  | .update _ _ _ => false

def Task.inserts : Task → Bool
  | .writing _ write _ _ => write.inserts
  | _ => false

structure Task.Apart (t u : Task) : Prop where
  updated : t.updated? = none ∨ u.updated? = none
  id : ∀ step ∈ t.flushed?, ∀ step' ∈ u.flushed?, step.id ≠ step'.id
  sequence : t.inserts = true → u.inserts = true →
    ∀ step ∈ t.flushed?, ∀ step' ∈ u.flushed?, step.sequence ≠ step'.sequence

structure Sound (settings : Settings) (s : State) : Prop where
  ids : (s.steps.map InvestigationStepRow.id).Nodup
  tenants : ∀ step ∈ s.steps, step.tenantId = s.row.tenantId
  sequences : s.steps.map InvestigationStepRow.sequence =
    (List.range s.steps.length).map Int.ofNat
  valid : ∀ step ∈ s.steps, step.Valid
  count : s.row.stepCount = s.steps.length
  budget : s.row.stepCount = 0 ∨ ∃ budget ∈ s.budgets, s.row.stepCount ≤ budget
  tasks : ∀ t ∈ s.tasks, t.Sound settings s.row s.steps s.budgets
  apart : ∀ (i j : ℕ) (t u : Task), i ≠ j → s.tasks[i]? = some t → s.tasks[j]? = some u → t.Apart u

theorem created_sound (tenantId : String) : Sound settings (.created tenantId) where
  ids := nodup_nil
  tenants := fun _ h => absurd h not_mem_nil
  sequences := rfl
  valid := fun _ h => absurd h not_mem_nil
  count := rfl
  budget := .inl rfl
  tasks := fun _ h => absurd h not_mem_nil
  apart := fun _ _ _ _ _ h => absurd h (by simp [created])

theorem Task.Apart.symm {t u : Task} (h : t.Apart u) : u.Apart t :=
  ⟨h.updated.symm, fun step hstep step' hstep' => (h.id step' hstep' step hstep).symm,
    fun ht hu step hstep step' hstep' => (h.sequence hu ht step' hstep' step hstep).symm⟩

theorem apart_of_none {t u : Task} (hflushed : t.flushed? = none) (hupdated : t.updated? = none) :
    t.Apart u := by
  refine ⟨.inl hupdated, fun step hstep => ?_, fun _ _ step hstep => ?_⟩
  · rw [hflushed] at hstep
    cases hstep
  · rw [hflushed] at hstep
    cases hstep

/-! ## What a step does -/

inductive Does (settings : Settings) (s : State) (e : ℕ × Action) : State → Prop
  | opened (t : Task) (budgets : List ℤ) (hbudgets : s.budgets ⊆ budgets)
      (hsound : t.Sound settings s.row s.steps budgets) (hflushed : t.flushed? = none)
      (hupdated : t.updated? = none) :
      Does settings s e { s with tasks := s.tasks ++ [t], budgets := budgets }
  | loaded {i : ℕ} {tenantId : String} {call : Call} {write : Write}
      (h : s.tasks[i]? = some (.opened tenantId call))
      (hcheck : call.check settings tenantId s.row s.steps = .ok write) :
      Does settings s e (s.put i (.writing tenantId write none none))
  | failed (i : ℕ) (err : Failure) : Does settings s e (s.fail i err)
  | inserted {i : ℕ} {tenantId : String} {step : InvestigationStepRow}
      {updated : Option InvestigationRow}
      (h : s.tasks[i]? = some (.writing tenantId (.insert step) none updated))
      (hvalid : step.Valid) (hfree : ∀ other ∈ s.steps, clashes step other = false)
      (hclear : ∀ t ∈ s.tasks, ∀ other ∈ t.flushed?, clashes step other = false) :
      Does settings s e (s.put i (.writing tenantId (.insert step) (some step) updated))
  | flushed {i : ℕ} {tenantId stepId : String} {columns : Columns} {usage : Option (ℤ × ℤ)}
      {updated : Option InvestigationRow} {before : InvestigationStepRow}
      (h : s.tasks[i]? = some (.writing tenantId (.update stepId columns usage) none updated))
      (hclear : ∀ t ∈ s.tasks, ∀ other ∈ t.flushed?, other.id ≠ stepId)
      (hbefore : before ∈ s.steps) (hid : before.id = stepId)
      (hvalid : (columns.apply before).Valid) :
      Does settings s e (s.put i
        (.writing tenantId (.update stepId columns usage) (some (columns.apply before)) updated))
  | updated {i : ℕ} {tenantId : String} {write : Write} {flushed : Option InvestigationStepRow}
      (h : s.tasks[i]? = some (.writing tenantId write flushed none))
      (hfree : ∀ t ∈ s.tasks, t.updated? = none) :
      Does settings s e
        (s.put i (.writing tenantId write flushed (some (write.count tenantId s.row))))
  | committed {i : ℕ} {tenantId : String} {write : Write} {flushed : InvestigationStepRow}
      {updated : Option InvestigationRow} (heard : Bool) (he : e = (i, .commit heard))
      (h : s.tasks[i]? = some (.writing tenantId write (some flushed) updated))
      (hupdated : write.countsUp = updated.isSome) :
      Does settings s e (s.commit i write flushed updated heard)

theorem insertStep_does {step : InvestigationStepRow} {updated : Option InvestigationRow}
    (h : s.tasks[i]? = some (.writing tenantId (.insert step) none updated))
    (hinsert : s.insertStep i tenantId step updated = some s') : Does settings s e s' := by
  unfold insertStep at hinsert
  split_ifs at hinsert with hbad hheld
  · cases hinsert
    exact .failed i _
  · cases hinsert
    rw [not_or, not_not] at hbad
    refine .inserted h hbad.1 (fun other hother => ?_) fun t ht other hother => ?_
    · by_contra hclash
      rw [Bool.not_eq_false] at hclash
      exact hbad.2 (any_eq_true.mpr ⟨other, hother, hclash⟩)
    · by_contra hclash
      rw [Bool.not_eq_false] at hclash
      refine hheld (any_eq_true.mpr ⟨t, ht, ?_⟩)
      rw [hother]
      exact hclash

theorem updateStep_does {stepId : String} {columns : Columns} {usage : Option (ℤ × ℤ)}
    {updated : Option InvestigationRow}
    (h : s.tasks[i]? = some (.writing tenantId (.update stepId columns usage) none updated))
    (hupdate : s.updateStep i tenantId stepId columns usage updated = some s') :
    Does settings s e s' := by
  unfold updateStep at hupdate
  split_ifs at hupdate with hheld
  cases hfind : s.steps.find? fun step => step.id = stepId with
  | none =>
    rw [hfind] at hupdate
    cases hupdate
    exact .failed i _
  | some before =>
    rw [hfind] at hupdate
    dsimp only at hupdate
    split_ifs at hupdate with hvalid
    · cases hupdate
      have hid : decide (before.id = stepId) = true :=
        List.find?_some (p := fun step : InvestigationStepRow => decide (step.id = stepId)) hfind
      refine .flushed h (fun t ht other hother heq => hheld ?_) (mem_of_find?_eq_some hfind)
        (of_decide_eq_true hid) hvalid
      refine any_eq_true.mpr ⟨t, ht, ?_⟩
      rw [hother]
      exact decide_eq_true heq
    · cases hupdate
      exact .failed i _

theorem update_does {flushed : Option InvestigationStepRow}
    (h : s.tasks[i]? = some (.writing tenantId write flushed none))
    (hupdate : s.update i tenantId write flushed = some s') : Does settings s e s' := by
  unfold update at hupdate
  split_ifs at hupdate with hfree
  · cases hupdate
    refine .updated h fun t ht => ?_
    exact isNone_iff_eq_none.mp (all_eq_true.mp hfree t ht)
  · cases hupdate
    exact .failed i _

theorem opened_sound {call : Call}
    (h : ∀ stepId maxSteps, call = .appendStep stepId maxSteps → False) :
    (Task.opened tenantId call).Sound settings row steps budgets := by
  cases call with
  | appendStep stepId maxSteps => exact absurd rfl (h stepId maxSteps)
  | startStep | completeStep | failStep | skipStep => trivial

theorem step_does (h : s.step settings e = some s') : Does settings s e s' := by
  obtain ⟨i, action⟩ := e
  dsimp only [State.step] at h
  split at h
  · split_ifs at h
    split at h
    · cases h
      exact .opened _ _ (List.Subset.refl _) trivial rfl rfl
    · cases h
      exact .opened _ _ (subset_cons_self _ _) (mem_cons_self ..) rfl rfl
    · next hother _ =>
      cases h
      exact .opened _ _ (List.Subset.refl _) (opened_sound hother) rfl rfl
  · next htask =>
    split at h
    · next hcheck =>
      cases h
      exact .loaded htask hcheck
    · cases h
      exact .failed i _
  · next htask =>
    split_ifs at h
    unfold flush at h
    split at h
    · exact insertStep_does htask h
    · exact updateStep_does htask h
  · next htask =>
    split_ifs at h
    exact update_does htask h
  · next htask =>
    split_ifs at h with hupdated
    cases h
    exact .committed _ rfl htask hupdated
  · cases h
  · cases h
    exact .failed i _
  · cases h

theorem Task.Sound.mono {t : Task} {budgets' : List ℤ} (h : t.Sound settings row steps budgets)
    (hbudgets : budgets ⊆ budgets') : t.Sound settings row steps budgets' := by
  cases t with
  | opened tenantId call =>
    cases call with
    | appendStep stepId maxSteps => exact hbudgets h
    | startStep | completeStep | failStep | skipStep => trivial
  | ended => trivial
  | writing tenantId write flushed updated =>
    obtain ⟨htenant, hwrite, hrest⟩ := h
    refine ⟨htenant, ?_, hrest⟩
    cases write with
    | insert step =>
      obtain ⟨hstep, hle, ⟨budget, hbudget, hlt⟩, htokens⟩ := hwrite
      exact ⟨hstep, hle, ⟨budget, hbudgets hbudget, hlt⟩, htokens⟩
    | update stepId columns usage => exact hwrite

/-! ## The checks -/

theorem adds_changed {loaded : ℤ} (usage : ℤ) (h : 0 ≤ loaded) :
    Adds ((some usage).filter (· ≠ loaded)) (some usage) := by
  by_cases heq : usage = loaded
  · rw [filter_some_neg (by simp [heq])]
    exact ⟨fun _ hvalue => absurd hvalue (not_mem_none _), fun _ => heq ▸ h⟩
  · rw [filter_some_pos (by simp [heq])]
    exact ⟨fun value hvalue => hvalue, fun hnone => nomatch hnone⟩

theorem adds_none (loaded : ℤ) : Adds ((none : Option ℤ).filter (· ≠ loaded)) none :=
  ⟨fun _ hvalue => absurd hvalue (not_mem_none _), fun _ => le_rfl⟩

theorem transitionStep_sound {stepId : String} {target : StepStatus} {durationMs : Option ℤ}
    {usage : Option (ℤ × ℤ)} (hvalid : ∀ step ∈ steps, step.Valid)
    (h : transitionStep tenantId steps stepId target
      ⟨durationMs, usage.map Prod.fst, usage.map Prod.snd⟩ usage = .ok write) :
    (∃ step ∈ steps, step.tenantId = tenantId) ∧ write.Sound row budgets := by
  unfold transitionStep at h
  cases hfind : steps.find? fun step => step.id = stepId ∧ step.tenantId = tenantId with
  | none =>
    rw [hfind] at h
    cases h
  | some step =>
    rw [hfind] at h
    dsimp only at h
    split_ifs at h
    cases h
    have hstep := mem_of_find?_eq_some hfind
    have htenant := List.find?_some (p := fun step : InvestigationStepRow =>
      decide (step.id = stepId ∧ step.tenantId = tenantId)) hfind
    refine ⟨⟨step, hstep, (of_decide_eq_true htenant).2⟩, ?_⟩
    obtain ⟨_, _, hinput, houtput⟩ := hvalid step hstep
    cases usage with
    | none => exact ⟨adds_none step.tokenInput, adds_none step.tokenOutput⟩
    | some usage => exact ⟨adds_changed usage.1 hinput, adds_changed usage.2 houtput⟩

theorem check_sound {call : Call} (hs : Sound settings s)
    (hopened : (Task.opened tenantId call).Sound settings s.row s.steps s.budgets)
    (h : call.check settings tenantId s.row s.steps = .ok write) :
    tenantId = s.row.tenantId ∧ write.Sound s.row s.budgets := by
  have htransition : ∀ {stepId : String} {target : StepStatus} {durationMs : Option ℤ}
      {usage : Option (ℤ × ℤ)}, transitionStep tenantId s.steps stepId target
        ⟨durationMs, usage.map Prod.fst, usage.map Prod.snd⟩ usage = .ok write →
      tenantId = s.row.tenantId ∧ write.Sound s.row s.budgets := by
    intro stepId target durationMs usage h
    obtain ⟨⟨step, hstep, htenant⟩, hsound⟩ := transitionStep_sound hs.valid h
    exact ⟨htenant.symm.trans (hs.tenants step hstep), hsound⟩
  cases call with
  | appendStep stepId maxSteps =>
    unfold Call.check appendStep at h
    dsimp only at h
    split_ifs at h with htenant _ hbudget
    cases h
    rw [not_not] at htenant
    exact ⟨htenant.symm, htenant.symm, le_rfl, ⟨_, hopened, not_le.mp hbudget⟩, rfl, rfl⟩
  | startStep | skipStep => exact @htransition _ _ _ none h
  | completeStep stepId durationMs tokenInput tokenOutput costUsd
  | failStep stepId error durationMs tokenInput tokenOutput =>
    exact @htransition _ _ _ (some (tokenInput, tokenOutput)) h

/-! ## A step keeps it -/

theorem Sound.put (hs : Sound settings s) {t : Task}
    (hsound : t.Sound settings s.row s.steps s.budgets)
    (hapart : ∀ j u, j ≠ i → s.tasks[j]? = some u → t.Apart u) : Sound settings (s.put i t) := by
  refine ⟨hs.ids, hs.tenants, hs.sequences, hs.valid, hs.count, hs.budget, fun u hu => ?_, ?_⟩
  · rcases mem_set_cases hu with rfl | ⟨j, _, hj⟩
    · exact hsound
    · exact hs.tasks u (mem_of_getElem? hj)
  · intro j k u v hne hj hk
    rcases set_cases hj with ⟨rfl, rfl⟩ | ⟨hji, hj'⟩
    · rcases set_cases hk with ⟨rfl, _⟩ | ⟨hki, hk'⟩
      · exact absurd rfl hne
      · exact hapart k v hki hk'
    · rcases set_cases hk with ⟨rfl, rfl⟩ | ⟨_, hk'⟩
      · exact (hapart j u hji hj').symm
      · exact hs.apart j k u v hne hj' hk'

theorem Sound.append (hs : Sound settings s) {t : Task} (hbudgets : s.budgets ⊆ budgets)
    (hsound : t.Sound settings s.row s.steps budgets) (hflushed : t.flushed? = none)
    (hupdated : t.updated? = none) :
    Sound settings { s with tasks := s.tasks ++ [t], budgets := budgets } := by
  refine ⟨hs.ids, hs.tenants, hs.sequences, hs.valid, hs.count, ?_, fun u hu => ?_, ?_⟩
  · exact hs.budget.imp_right fun ⟨budget, hmem, hle⟩ => ⟨budget, hbudgets hmem, hle⟩
  · rcases mem_append.mp hu with hu | hu
    · exact (hs.tasks u hu).mono hbudgets
    · rw [mem_singleton.mp hu]
      exact hsound
  · intro j k u v hne hj hk
    have hnew : ∀ {j : ℕ} {u : Task}, (s.tasks ++ [t])[j]? = some u →
        s.tasks[j]? = some u ∨ u = t := by
      intro j u hj
      rcases lt_or_ge j s.tasks.length with hlt | hge
      · rw [List.getElem?_append_left hlt] at hj
        exact .inl hj
      · rw [List.getElem?_append_right hge] at hj
        exact .inr (mem_singleton.mp (mem_of_getElem? hj))
    rcases hnew hj with hj' | rfl
    · rcases hnew hk with hk' | rfl
      · exact hs.apart j k u v hne hj' hk'
      · exact (apart_of_none hflushed hupdated).symm
    · exact apart_of_none hflushed hupdated

section

variable {before flushed : InvestigationStepRow}

theorem map_replace {β : Type*} (f : InvestigationStepRow → β)
    (hids : (steps.map InvestigationStepRow.id).Nodup) (hbefore : before ∈ steps)
    (hid : flushed.id = before.id) (hf : f flushed = f before) :
    (steps.map fun other => if other.id = flushed.id then flushed else other).map f =
      steps.map f := by
  rw [map_map]
  refine map_congr_left fun other hother => ?_
  change f (if other.id = flushed.id then flushed else other) = f other
  split_ifs with heq
  · rw [hf, inj_on_of_nodup_map hids hother hbefore (heq.trans hid)]
  · rfl

theorem mem_replace {other : InvestigationStepRow}
    (h : other ∈ steps.map fun other => if other.id = flushed.id then flushed else other) :
    other = flushed ∨ other ∈ steps ∧ other.id ≠ flushed.id := by
  obtain ⟨step, hstep, rfl⟩ := mem_map.mp h
  split_ifs with heq
  · exact .inl rfl
  · exact .inr ⟨hstep, heq⟩

theorem mem_replace_of_ne {other : InvestigationStepRow} (h : other ∈ steps)
    (hne : other.id ≠ flushed.id) :
    other ∈ steps.map fun other => if other.id = flushed.id then flushed else other :=
  mem_map.mpr ⟨other, h, if_neg hne⟩

end

theorem Task.Sound.after {t : Task} {row' : InvestigationRow} {steps' : List InvestigationStepRow}
    (h : t.Sound settings row steps budgets) (htenant : row'.tenantId = row.tenantId)
    (hcount : row.stepCount ≤ row'.stepCount) (hrow : row' = row ∨ t.updated? = none)
    (hinserts : t.inserts = true → ∀ step ∈ t.flushed?,
      (∀ other ∈ steps, clashes step other = false) →
        ∀ other ∈ steps', clashes step other = false)
    (hsteps : ∀ step ∈ t.flushed?, ∀ before ∈ steps, before.id = step.id → before ∈ steps') :
    t.Sound settings row' steps' budgets := by
  cases t with
  | opened tenantId call => cases call <;> exact h
  | ended => trivial
  | writing tenantId write flushed updated =>
    obtain ⟨hsame, hwrite, hflushed, hupdated⟩ := h
    refine ⟨hsame.trans htenant.symm, ?_, fun step hstep => ⟨(hflushed step hstep).1, ?_⟩, ?_⟩
    · cases write with
      | insert step =>
        obtain ⟨hstep, hle, hrest⟩ := hwrite
        exact ⟨hstep.trans htenant.symm, hle.trans hcount, hrest⟩
      | update stepId columns usage => exact hwrite
    · have hleaves := (hflushed step hstep).2
      cases write with
      | insert new =>
        obtain ⟨rfl, hfree⟩ := hleaves
        exact ⟨rfl, hinserts rfl step hstep hfree⟩
      | update stepId columns usage =>
        obtain ⟨before, hbefore, hid, rfl⟩ := hleaves
        exact ⟨before, hsteps _ hstep before hbefore rfl, hid, rfl⟩
    · rcases hrow with rfl | hnone
      · exact hupdated
      · intro row' hrow'
        rw [show updated = none from hnone] at hrow'
        cases hrow'

theorem ne_of_clashes_eq_false {step other : InvestigationStepRow}
    (h : clashes step other = false) : other.id ≠ step.id ∧ other.sequence ≠ step.sequence := by
  unfold clashes at h
  rw [Bool.or_eq_false_iff] at h
  exact ⟨of_decide_eq_false h.1, of_decide_eq_false h.2⟩

theorem clashes_eq_false {step other : InvestigationStepRow} (hid : other.id ≠ step.id)
    (hsequence : other.sequence ≠ step.sequence) : clashes step other = false := by
  unfold clashes
  rw [Bool.or_eq_false_iff]
  exact ⟨decide_eq_false hid, decide_eq_false hsequence⟩

theorem Sound.sequence_eq (hs : Sound settings s) {step : InvestigationStepRow}
    (hvalid : step.Valid) (hle : step.sequence ≤ s.row.stepCount)
    (hfree : ∀ other ∈ s.steps, clashes step other = false) :
    step.sequence = s.steps.length := by
  rw [hs.count] at hle
  refine le_antisymm hle (not_lt.mp fun hlt => ?_)
  have hmem : step.sequence ∈ s.steps.map InvestigationStepRow.sequence := by
    rw [hs.sequences, mem_map]
    refine ⟨step.sequence.toNat, mem_range.mpr ?_, Int.toNat_of_nonneg hvalid.1⟩
    exact (Int.toNat_lt hvalid.1).mpr hlt
  obtain ⟨other, hother, heq⟩ := mem_map.mp hmem
  exact (ne_of_clashes_eq_false (hfree other hother)).2 heq

theorem Sound.commit_insert (hs : Sound settings s) {step : InvestigationStepRow}
    {updated : Option InvestigationRow} {heard : Bool}
    (h : s.tasks[i]? = some (.writing tenantId (.insert step) (some step) updated))
    (hupdated : updated.isSome = true) :
    Sound settings (s.commit i (.insert step) step updated heard) := by
  obtain ⟨htenant, ⟨hstep, hle, ⟨budget, hbudget, hlt⟩, _⟩, hflushed, hrow⟩ :=
    hs.tasks _ (mem_of_getElem? h)
  obtain ⟨hvalid, _, hfree⟩ := hflushed step rfl
  obtain ⟨row', rfl⟩ := isSome_iff_exists.mp hupdated
  obtain rfl := hrow row' rfl
  have hnew : (Write.insert step).count tenantId s.row =
      { s.row with stepCount := s.row.stepCount + 1 } := if_pos htenant.symm
  have hsequence := hs.sequence_eq hvalid hle hfree
  unfold commit save
  rw [hnew, getD_some]
  refine ⟨?_, ?_, ?_, ?_, ?_, ?_, fun t ht => ?_, ?_⟩
  · rw [map_append, map_singleton, nodup_append]
    refine ⟨hs.ids, nodup_singleton _, fun a ha b hb => ?_⟩
    obtain ⟨other, hother, rfl⟩ := mem_map.mp ha
    rw [mem_singleton.mp hb]
    exact (ne_of_clashes_eq_false (hfree other hother)).1
  · intro other hother
    rcases mem_append.mp hother with hother | hother
    · exact hs.tenants other hother
    · rw [mem_singleton.mp hother]
      exact hstep
  · rw [map_append, map_singleton, hs.sequences, hsequence, length_append,
      length_singleton, range_succ, map_append, map_singleton]
    rfl
  · intro other hother
    rcases mem_append.mp hother with hother | hother
    · exact hs.valid other hother
    · rw [mem_singleton.mp hother]
      exact hvalid
  · rw [length_append, length_singleton, hs.count]
    rfl
  · refine .inr ⟨budget, hbudget, ?_⟩
    rw [hsequence, ← hs.count] at hlt
    exact hlt
  · rcases mem_set_cases ht with rfl | ⟨j, hj, hjt⟩
    · trivial
    · have hapart := hs.apart i j _ _ (Ne.symm hj) h hjt
      refine (hs.tasks t (mem_of_getElem? hjt)).after rfl (Int.le_add_one le_rfl)
        (.inr (hapart.updated.resolve_left (some_ne_none _))) (fun hinserts new hnew hall =>
          ?_) fun _ _ before hbefore _ => mem_append_left _ hbefore
      intro other hother
      rcases mem_append.mp hother with hother | hother
      · exact hall other hother
      · rw [mem_singleton.mp hother]
        exact clashes_eq_false (hapart.id step rfl new hnew)
          (hapart.sequence rfl hinserts step rfl new hnew)
  · exact (hs.put (t := .ended _) trivial fun _ _ _ _ => apart_of_none rfl rfl).apart

theorem Sound.commit_update (hs : Sound settings s) {stepId : String} {columns : Columns}
    {usage : Option (ℤ × ℤ)} {flushed : InvestigationStepRow}
    {updated : Option InvestigationRow} {heard : Bool}
    (h : s.tasks[i]? = some (.writing tenantId (.update stepId columns usage) (some flushed) updated)) :
    Sound settings (s.commit i (.update stepId columns usage) flushed updated heard) := by
  obtain ⟨_, _, hflushed, hrow⟩ := hs.tasks _ (mem_of_getElem? h)
  obtain ⟨hvalid, before, hbefore, _, happly⟩ := hflushed flushed rfl
  have hid : flushed.id = before.id := by rw [happly]; rfl
  have hsequence : flushed.sequence = before.sequence := by rw [happly]; rfl
  have htenant : flushed.tenantId = before.tenantId := by rw [happly]; rfl
  have hkept : (updated.getD s.row).tenantId = s.row.tenantId ∧
      (updated.getD s.row).stepCount = s.row.stepCount := by
    cases updated with
    | none => exact ⟨rfl, rfl⟩
    | some row' =>
      rw [getD_some, hrow row' rfl]
      unfold Write.count
      split_ifs
      · exact ⟨rfl, rfl⟩
      · exact ⟨rfl, rfl⟩
  unfold commit save
  refine ⟨?_, ?_, ?_, ?_, ?_, ?_, fun t ht => ?_, ?_⟩
  · dsimp only
    rw [map_replace _ hs.ids hbefore hid hid]
    exact hs.ids
  · intro other hother
    rw [hkept.1]
    rcases mem_replace hother with rfl | ⟨hother, _⟩
    · rw [htenant]
      exact hs.tenants before hbefore
    · exact hs.tenants other hother
  · dsimp only
    rw [map_replace _ hs.ids hbefore hid hsequence, length_map]
    exact hs.sequences
  · intro other hother
    rcases mem_replace hother with rfl | ⟨hother, _⟩
    · exact hvalid
    · exact hs.valid other hother
  · dsimp only
    rw [hkept.2, length_map]
    exact hs.count
  · dsimp only
    rw [hkept.2]
    exact hs.budget
  · rcases mem_set_cases ht with rfl | ⟨j, hj, hjt⟩
    · trivial
    · have hapart := hs.apart i j _ _ (Ne.symm hj) h hjt
      refine (hs.tasks t (mem_of_getElem? hjt)).after hkept.1 hkept.2.ge ?_
        (fun _ new hnew hall other hother => ?_) fun new hnew other hother heq => ?_
      · cases updated with
        | none => exact .inl rfl
        | some row' => exact .inr (hapart.updated.resolve_left (some_ne_none _))
      · rcases mem_replace hother with rfl | ⟨hother, _⟩
        · have hclear := ne_of_clashes_eq_false (hall before hbefore)
          exact clashes_eq_false (hid ▸ hclear.1) (hsequence ▸ hclear.2)
        · exact hall other hother
      · refine mem_replace_of_ne hother ?_
        rw [heq]
        exact (hapart.id flushed rfl new hnew).symm
  · exact (hs.put (t := .ended _) trivial fun _ _ _ _ => apart_of_none rfl rfl).apart

theorem Sound.step (hs : Sound settings s) (h : s.step settings e = some s') :
    Sound settings s' := by
  cases step_does h with
  | opened t budgets hbudgets hsound hflushed hupdated =>
    exact hs.append hbudgets hsound hflushed hupdated
  | loaded htask hcheck =>
    obtain ⟨htenant, hwrite⟩ := check_sound hs (hs.tasks _ (mem_of_getElem? htask)) hcheck
    refine hs.put ⟨htenant, hwrite, fun _ hstep => ?_, fun _ hrow => ?_⟩
      fun _ _ _ _ => apart_of_none rfl rfl
    · cases hstep
    · cases hrow
  | failed i err => exact hs.put trivial fun _ _ _ _ => apart_of_none rfl rfl
  | inserted htask hvalid hfree hclear =>
    obtain ⟨htenant, hwrite, _, hrow⟩ := hs.tasks _ (mem_of_getElem? htask)
    refine hs.put ⟨htenant, hwrite, ?_, hrow⟩ fun j u hj hu => ?_
    · rintro step hstep
      cases hstep
      exact ⟨hvalid, rfl, hfree⟩
    · have hother := hclear u (mem_of_getElem? hu)
      refine ⟨(hs.apart _ j _ u hj.symm htask hu).updated, fun step hstep other hmem => ?_,
        fun _ _ step hstep other hmem => ?_⟩
      · cases hstep
        exact (ne_of_clashes_eq_false (hother other hmem)).1.symm
      · cases hstep
        exact (ne_of_clashes_eq_false (hother other hmem)).2.symm
  | flushed htask hclear hbefore hid hvalid =>
    obtain ⟨htenant, hwrite, _, hrow⟩ := hs.tasks _ (mem_of_getElem? htask)
    refine hs.put ⟨htenant, hwrite, ?_, hrow⟩ fun j u hj hu => ?_
    · rintro step hstep
      cases hstep
      exact ⟨hvalid, _, hbefore, hid, rfl⟩
    · refine ⟨(hs.apart _ j _ u hj.symm htask hu).updated, fun step hstep other hmem heq => ?_,
        fun hinserts => nomatch hinserts⟩
      cases hstep
      exact hclear u (mem_of_getElem? hu) other hmem (heq.symm.trans hid)
  | updated htask hfree =>
    obtain ⟨htenant, hwrite, hflushed, _⟩ := hs.tasks _ (mem_of_getElem? htask)
    refine hs.put ⟨htenant, hwrite, hflushed, ?_⟩ fun j u hj hu => ?_
    · rintro row' hrow'
      exact (Option.some.inj hrow').symm
    · have hapart := hs.apart _ j _ u hj.symm htask hu
      exact ⟨.inr (hfree u (mem_of_getElem? hu)), hapart.id, hapart.sequence⟩
  | @committed i tenantId write flushed updated heard _ htask hupdated =>
    cases write with
    | insert step =>
      obtain ⟨_, _, hflushed, _⟩ := hs.tasks _ (mem_of_getElem? htask)
      obtain ⟨_, rfl, _⟩ := hflushed flushed rfl
      exact hs.commit_insert htask hupdated.symm
    | update stepId columns usage => exact hs.commit_update htask

/-! ## What the counters are ahead of the steps -/

def CountsOnce (column : Option ℤ) (before usage : ℤ) : Prop :=
  (column = none → usage = 0) ∧ (column ≠ none → before = 0)

instance (column : Option ℤ) (before usage : ℤ) : Decidable (CountsOnce column before usage) :=
  inferInstanceAs (Decidable (_ ∧ _))

def Task.CountsOnce (steps : List InvestigationStepRow) : Task → Prop
  | .writing _ (.update stepId columns (some usage)) _ _ =>
    ∀ before ∈ steps, before.id = stepId →
      Steps.CountsOnce columns.tokenInput before.tokenInput usage.1 ∧
        Steps.CountsOnce columns.tokenOutput before.tokenOutput usage.2
  | _ => True

instance (steps : List InvestigationStepRow) : (t : Task) → Decidable (t.CountsOnce steps)
  | .writing _ (.update stepId _ (some _)) _ _ =>
    inferInstanceAs (Decidable (∀ before ∈ steps, before.id = stepId → _ ∧ _))
  | .writing _ (.update _ _ none) _ _ | .writing _ (.insert _) _ _ | .opened _ _ | .ended _ =>
    .isTrue trivial

/-- A commit that counts usage finds the tokens of the step at 0, but for a column that it leaves
alone and counts nothing for. -/
def State.CountsOnce (s : State) : ℕ × Action → Prop
  | (i, .commit _) => ∀ t ∈ s.tasks[i]?, t.CountsOnce s.steps
  | _ => True

instance (s : State) : (e : ℕ × Action) → Decidable (s.CountsOnce e)
  | (i, .commit _) => inferInstanceAs (Decidable (∀ t ∈ s.tasks[i]?, t.CountsOnce s.steps))
  | (_, .open _ _) | (_, .load) | (_, .flush) | (_, .update) | (_, .abort) => .isTrue trivial

def State.lead (s : State) (total : InvestigationRow → ℤ) (part : InvestigationStepRow → ℤ) : ℤ :=
  total s.row - (s.steps.map part).sum

theorem sum_replace {before flushed : InvestigationStepRow} (part : InvestigationStepRow → ℤ)
    (hids : (steps.map InvestigationStepRow.id).Nodup) (hbefore : before ∈ steps)
    (hid : flushed.id = before.id) :
    ((steps.map fun other => if other.id = flushed.id then flushed else other).map part).sum =
      (steps.map part).sum + (part flushed - part before) := by
  induction steps with
  | nil => cases hbefore
  | cons step steps ih =>
    obtain ⟨hfresh, hids⟩ := nodup_cons.mp hids
    rw [map_cons, map_cons, map_cons, sum_cons, sum_cons]
    rcases mem_cons.mp hbefore with rfl | hbefore
    · have hrest : (steps.map fun other => if other.id = flushed.id then flushed else other) =
          steps := by
        refine (map_congr_left fun other hother => if_neg fun heq => ?_).trans (map_id _)
        exact hfresh (mem_map.mpr ⟨other, hother, heq.trans hid⟩)
      rw [hrest, if_pos hid.symm]
      omega
    · have hne : step.id ≠ flushed.id := fun heq =>
        hfresh (mem_map.mpr ⟨before, hbefore, (heq.trans hid).symm⟩)
      rw [if_neg hne, ih hids hbefore]
      omega

theorem Adds.lead {column : Option ℤ} {usage before : ℤ} (h : Adds column (some usage))
    (hbefore : 0 ≤ before) : 0 ≤ usage - (column.getD before - before) ∧
      (usage - (column.getD before - before) = 0 ↔ CountsOnce column before usage) := by
  unfold CountsOnce
  cases column with
  | none =>
    have hkept : 0 ≤ usage := h.kept rfl
    rw [getD_none, sub_self, sub_zero]
    simp [hkept]
  | some value =>
    obtain rfl := Option.some.inj (h.written value rfl)
    rw [getD_some, sub_sub_cancel]
    simp [hbefore]

theorem committed_eq (h : s.step settings e = some s') (he : ∀ i heard, e ≠ (i, .commit heard)) :
    s'.row = s.row ∧ s'.steps = s.steps := by
  cases step_does h with
  | committed heard heq => exact absurd heq (he _ heard)
  | opened | loaded | failed | inserted | flushed | updated => exact ⟨rfl, rfl⟩

theorem commit_eq {heard : Bool} (h : s.step settings (i, .commit heard) = some s') :
    ∃ tenantId write flushed updated,
      s.tasks[i]? = some (.writing tenantId write (some flushed) updated) ∧
        write.countsUp = updated.isSome ∧ s' = s.commit i write flushed updated heard := by
  cases htask : s.tasks[i]? with
  | none =>
    dsimp only [State.step] at h
    rw [htask] at h
    cases h
  | some t =>
    dsimp only [State.step] at h
    rw [htask] at h
    cases t with
    | opened | ended => cases h
    | writing tenantId write flushed updated =>
      cases flushed with
      | none => cases h
      | some flushed =>
        dsimp only at h
        split_ifs at h with hupdated
        cases h
        exact ⟨tenantId, write, flushed, updated, rfl, hupdated, rfl⟩

abbrev State.leadInput (s : State) : ℤ :=
  s.lead InvestigationRow.tokenInput InvestigationStepRow.tokenInput

abbrev State.leadOutput (s : State) : ℤ :=
  s.lead InvestigationRow.tokenOutput InvestigationStepRow.tokenOutput

theorem Sound.commit_lead (hs : Sound settings s) (heard : Bool) {flushed : InvestigationStepRow}
    {updated : Option InvestigationRow}
    (h : s.tasks[i]? = some (.writing tenantId write (some flushed) updated))
    (hupdated : write.countsUp = updated.isSome) :
    ∃ input output, 0 ≤ input ∧ 0 ≤ output ∧
      (s.commit i write flushed updated heard).leadInput = s.leadInput + input ∧
      (s.commit i write flushed updated heard).leadOutput = s.leadOutput + output ∧
      (input = 0 ∧ output = 0 ↔
        (Task.writing tenantId write (some flushed) updated).CountsOnce s.steps) := by
  obtain ⟨htenant, hwrite, hflushed, hrow⟩ := hs.tasks _ (mem_of_getElem? h)
  obtain ⟨_, hleaves⟩ := hflushed flushed rfl
  unfold leadInput leadOutput lead commit save
  cases write with
  | insert step =>
    obtain ⟨rfl, _⟩ := hleaves
    obtain ⟨_, _, _, hinput, houtput⟩ := hwrite
    obtain ⟨row', rfl⟩ := isSome_iff_exists.mp hupdated.symm
    obtain rfl := hrow row' rfl
    have hnew : (Write.insert flushed).count tenantId s.row =
        { s.row with stepCount := s.row.stepCount + 1 } := if_pos htenant.symm
    refine ⟨0, 0, le_rfl, le_rfl, ?_, ?_, iff_of_true ⟨rfl, rfl⟩ trivial⟩
    · rw [hnew, map_append, sum_append, map_singleton, sum_singleton, hinput,
        add_zero, add_zero]
      rfl
    · rw [hnew, map_append, sum_append, map_singleton, sum_singleton, houtput,
        add_zero, add_zero]
      rfl
  | update stepId columns usage =>
    obtain ⟨before, hbefore, hid, happly⟩ := hleaves
    obtain ⟨hinput, houtput⟩ := hwrite
    obtain ⟨_, _, hpositive, hpositive'⟩ := hs.valid before hbefore
    have hsame : flushed.id = before.id := by rw [happly]; rfl
    have hcolumn : flushed.tokenInput = columns.tokenInput.getD before.tokenInput := by
      rw [happly]
      rfl
    have hcolumn' : flushed.tokenOutput = columns.tokenOutput.getD before.tokenOutput := by
      rw [happly]
      rfl
    rw [sum_replace _ hs.ids hbefore hsame, sum_replace _ hs.ids hbefore hsame, hcolumn, hcolumn']
    cases usage with
    | none =>
      obtain rfl : updated = none := by
        cases updated with
        | none => rfl
        | some row' => cases hupdated
      have hnone : columns.tokenInput = none :=
        eq_none_iff_forall_not_mem.mpr fun value hvalue => nomatch hinput.written value hvalue
      have hnone' : columns.tokenOutput = none :=
        eq_none_iff_forall_not_mem.mpr fun value hvalue => nomatch houtput.written value hvalue
      refine ⟨0, 0, le_rfl, le_rfl, ?_, ?_, iff_of_true ⟨rfl, rfl⟩ trivial⟩
      · rw [hnone, getD_none, getD_none, sub_self, add_zero, add_zero]
      · rw [hnone', getD_none, getD_none, sub_self, add_zero, add_zero]
    | some usage =>
      obtain ⟨row', rfl⟩ := isSome_iff_exists.mp hupdated.symm
      obtain rfl := hrow row' rfl
      have hnew : (Write.update stepId columns (some usage)).count tenantId s.row =
          { s.row with
            tokenInput := s.row.tokenInput + usage.1
            tokenOutput := s.row.tokenOutput + usage.2 } := if_pos htenant.symm
      obtain ⟨hlead, hiff⟩ := Adds.lead hinput hpositive
      obtain ⟨hlead', hiff'⟩ := Adds.lead houtput hpositive'
      refine ⟨_, _, hlead, hlead', ?_, ?_, ?_⟩
      · rw [hnew, getD_some]
        dsimp only
        omega
      · rw [hnew, getD_some]
        dsimp only
        omega
      · rw [hiff, hiff']
        refine ⟨fun hcounts step hstep heq => ?_, fun hcounts => hcounts before hbefore hid⟩
        rwa [inj_on_of_nodup_map hs.ids hstep hbefore (heq.trans hid.symm)]

structure Ahead (settings : Settings) (s : State) : Prop where
  sound : Sound settings s
  input : 0 ≤ s.leadInput
  output : 0 ≤ s.leadOutput

def State.Level (s : State) : Prop := s.leadInput = 0 ∧ s.leadOutput = 0

theorem Ahead.step (hs : Ahead settings s) (h : s.step settings e = some s') :
    Ahead settings s' ∧ (s'.Level ↔ s.Level ∧ s.CountsOnce e) := by
  obtain ⟨hsound, hinput, houtput⟩ := hs
  have hsound' := hsound.step h
  by_cases hcommit : ∃ i heard, e = (i, .commit heard)
  · obtain ⟨i, heard, rfl⟩ := hcommit
    obtain ⟨tenantId, write, flushed, updated, htask, hupdated, rfl⟩ := commit_eq h
    obtain ⟨input, output, hi, ho, hlead, hlead', hiff⟩ := hsound.commit_lead heard htask hupdated
    have hcounts : s.CountsOnce (i, .commit heard) ↔
        (Task.writing tenantId write (some flushed) updated).CountsOnce s.steps := by
      change (∀ t ∈ s.tasks[i]?, t.CountsOnce s.steps) ↔ _
      rw [htask]
      exact ⟨fun hall => hall _ rfl, fun hcounts t ht => Option.some.inj ht ▸ hcounts⟩
    refine ⟨⟨hsound', ?_, ?_⟩, ?_⟩
    · rw [hlead]
      omega
    · rw [hlead']
      omega
    · rw [hcounts, ← hiff]
      unfold Level
      rw [hlead, hlead']
      omega
  · have hother : ∀ i heard, e ≠ (i, .commit heard) := fun i heard heq => hcommit ⟨i, heard, heq⟩
    obtain ⟨hrow, hsteps⟩ := committed_eq h hother
    have hlead : s'.leadInput = s.leadInput ∧ s'.leadOutput = s.leadOutput := by
      unfold leadInput leadOutput lead
      rw [hrow, hsteps]
      exact ⟨rfl, rfl⟩
    have hcounts : s.CountsOnce e := by
      obtain ⟨i, action⟩ := e
      cases action with
      | commit heard => exact absurd rfl (hother i heard)
      | «open» | load | flush | update | abort => trivial
    refine ⟨⟨hsound', hlead.1 ▸ hinput, hlead.2 ▸ houtput⟩, ?_⟩
    unfold Level
    rw [hlead.1, hlead.2]
    exact (and_iff_left hcounts).symm

/-! ## What is asked of every state -/

/-- The counters are what `usage` returns, and the steps are as many as are counted, in sequence and
within the largest budget passed. -/
structure State.Correct (s : State) : Prop where
  usage : (s.row.tokenInput, s.row.tokenOutput) = s.usage s.row.tenantId
  count : s.row.stepCount = s.steps.length
  sequences : s.steps.map InvestigationStepRow.sequence =
    (List.range s.steps.length).map Int.ofNat
  budget : s.row.stepCount = 0 ∨ ∃ budget ∈ s.budgets, s.row.stepCount ≤ budget

theorem Sound.correct_iff (hs : Sound settings s) : s.Correct ↔ s.Level := by
  have hall : s.steps.filter (fun step => step.tenantId = s.row.tenantId) = s.steps :=
    filter_eq_self.mpr fun step hstep => decide_eq_true (hs.tenants step hstep)
  have husage : (s.row.tokenInput, s.row.tokenOutput) = s.usage s.row.tenantId ↔ s.Level := by
    unfold usage Level leadInput leadOutput lead
    rw [hall, Prod.mk.injEq, sub_eq_zero, sub_eq_zero]
  exact ⟨fun h => husage.mp h.usage, fun h => ⟨husage.mpr h, hs.count, hs.sequences, hs.budget⟩⟩

/-- **Every token of a step is counted once** exactly if no call counts tokens for a step that
another call has counted tokens for; the steps are as many as are counted, in sequence and within
the budgets in any case. -/
theorem usage_counted_iff (settings : Settings) (tenantId : String) (es : List (ℕ × Action))
    (s : State) (hrun : runs (State.step settings) (.created tenantId) es = some s) :
    s.row.stepCount = s.steps.length ∧
      s.steps.map InvestigationStepRow.sequence = (List.range s.steps.length).map Int.ofNat ∧
      (s.row.stepCount = 0 ∨ ∃ budget ∈ s.budgets, s.row.stepCount ≤ budget) ∧
      (s.Correct ↔ Along (State.step settings) State.CountsOnce (.created tenantId) es) := by
  have hcreated : Ahead settings (.created tenantId) :=
    ⟨created_sound tenantId, le_rfl, le_rfl⟩
  have hlevel : (created tenantId).Level := ⟨rfl, rfl⟩
  obtain ⟨hahead, hiff⟩ := runs_iff (fun s e s' hs h => hs.step h) hcreated hrun
  have hsound := hahead.sound
  refine ⟨hsound.count, hsound.sequences, hsound.budget, ?_⟩
  rw [hsound.correct_iff, hiff]
  exact and_iff_right hlevel

/-! ## Two workers on one step -/

def started : List (ℕ × Action) :=
  [(0, .open "t" (.appendStep "a" none)), (0, .load), (0, .update), (0, .flush), (0, .commit true),
    (1, .open "t" (.startStep "a")), (1, .load), (1, .flush), (1, .commit true)]

def reads (i : ℕ) (tokenInput tokenOutput : ℤ) : List (ℕ × Action) :=
  [(i, .open "t" (.completeStep "a" none tokenInput tokenOutput 0)), (i, .load)]

def writes (i : ℕ) : List (ℕ × Action) := [(i, .update), (i, .flush), (i, .commit true)]

theorem finished_once : ∃ s,
    runs (State.step ⟨10, false⟩) (.created "t") (started ++ reads 2 5 3 ++ writes 2) = some s ∧
      s.Correct := by
  have hrun : (runs (State.step ⟨10, false⟩) (.created "t")
        (started ++ reads 2 5 3 ++ writes 2)).isSome = true ∧
      Along (State.step ⟨10, false⟩) State.CountsOnce (.created "t")
        (started ++ reads 2 5 3 ++ writes 2) := by
    decide
  obtain ⟨s, hs⟩ := isSome_iff_exists.mp hrun.1
  exact ⟨s, hs, (usage_counted_iff ⟨10, false⟩ "t" _ s hs).2.2.2.mpr hrun.2⟩

/-- Both workers read the step while it runs; the second writes over what the first wrote. -/
theorem finished_twice : ∃ s, runs (State.step ⟨10, false⟩) (.created "t")
    (started ++ reads 2 5 3 ++ reads 3 7 2 ++ writes 2 ++ writes 3) = some s ∧ ¬s.Correct := by
  have hrun : (runs (State.step ⟨10, false⟩) (.created "t")
      (started ++ reads 2 5 3 ++ reads 3 7 2 ++ writes 2 ++ writes 3)).map
        (fun s => ((s.row.tokenInput, s.row.tokenOutput), s.usage s.row.tenantId)) =
          some ((12, 5), (7, 2)) := by
    decide
  obtain ⟨s, hs, htokens⟩ := map_eq_some_iff.mp hrun
  obtain ⟨hrow, husage⟩ := Prod.mk.inj htokens
  refine ⟨s, hs, fun hcorrect => ?_⟩
  have heq := hcorrect.usage
  rw [hrow, husage] at heq
  exact absurd heq (by decide)

end OmniSense.Investigations.Steps
