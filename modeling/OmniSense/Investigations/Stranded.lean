import OmniSense.Investigations.Replicas

/-! What every schedule of the replicas keeps: the rows that are claimed, who claimed them, and the
room in each semaphore; and what it keeps while no task ends too early. -/

namespace OmniSense.Investigations.Replicas

open Agents Library List
open Option hiding map_map mem_map or_assoc

variable {m i : ℕ} {w w' : World} {r r' : Replica} {ids : List String} {id : String}
  {status : InvestigationStatus}

/-! ## Rows -/

theorem mem_write {row : String × InvestigationStatus} :
    row ∈ (w.write ids status).rows ↔
      ∃ old ∈ w.rows, row = if old.1 ∈ ids then (old.1, status) else old := by
  unfold World.write
  rw [mem_map]
  exact ⟨fun ⟨old, hold, h⟩ => ⟨old, hold, h.symm⟩, fun ⟨old, hold, h⟩ => ⟨old, hold, h.symm⟩⟩

theorem write_nil (w : World) (status : InvestigationStatus) : w.write [] status = w := by
  unfold World.write
  simp

theorem keys_write (w : World) (ids : List String) (status : InvestigationStatus) :
    (w.write ids status).rows.map Prod.fst = w.rows.map Prod.fst := by
  unfold World.write
  rw [map_map]
  refine map_congr_left fun row _ => ?_
  dsimp only [Function.comp]
  split_ifs <;> rfl

theorem queued_write (hstatus : status ≠ .queued) :
    (id, .queued) ∈ (w.write ids status).rows ↔ (id, .queued) ∈ w.rows ∧ id ∉ ids := by
  rw [mem_write]
  constructor
  · rintro ⟨old, hold, heq⟩
    split_ifs at heq with hmem
    · exact absurd (congrArg Prod.snd heq).symm hstatus
    · subst heq
      exact ⟨hold, hmem⟩
  · rintro ⟨hold, hmem⟩
    exact ⟨_, hold, (if_neg hmem).symm⟩

theorem settled_write (hterminal : status.isTerminal = true) (hid : id ∈ ids) :
    (w.write ids status).IsSettled id := by
  rintro row hrow rfl
  obtain ⟨old, -, rfl⟩ := mem_write.mp hrow
  split_ifs at hid ⊢ with hold
  · exact hterminal
  · exact absurd hid hold

theorem World.IsSettled.write (h : w.IsSettled id) (hids : id ∈ ids → status.isTerminal = true) :
    (w.write ids status).IsSettled id := by
  by_cases hid : id ∈ ids
  · exact settled_write (hids hid) hid
  · intro row hrow hkey
    obtain ⟨old, hold, rfl⟩ := mem_write.mp hrow
    by_cases hmem : old.1 ∈ ids
    · rw [if_pos hmem] at hkey
      exact absurd (hkey ▸ hmem) hid
    · rw [if_neg hmem] at hkey ⊢
      exact h old hold hkey

/-! ## Replicas -/

def Replica.Room (m : ℕ) (r : Replica) : Prop :=
  r.value + r.driving.length = m ∧
    match r.tick with
    | .idle => r.created.length ≤ r.value
    | .sized capacity => r.created = [] ∧ capacity ≤ r.value
    | .selected ids | .claimed ids => r.created = [] ∧ ids.length ≤ r.value

theorem Replica.Room.tasks_le (h : r.Room m) : r.tasks.length ≤ m := by
  obtain ⟨hvalue, htick⟩ := h
  unfold Replica.tasks Replica.claimedIds
  rw [length_append, length_append, length_map]
  cases hr : r.tick with
  | idle =>
    rw [hr] at htick
    simp only [length_nil]
    omega
  | sized | selected =>
    rw [hr] at htick
    rw [htick.1]
    simp only [length_nil]
    omega
  | claimed ids =>
    rw [hr] at htick
    rw [htick.1]
    simp only [length_nil]
    omega

theorem Replica.Room.created_nil (h : r.Room m) (hbusy : r.tick ≠ .idle) : r.created = [] := by
  obtain ⟨-, htick⟩ := h
  cases hr : r.tick with
  | idle => exact absurd hr hbusy
  | sized capacity | selected ids | claimed ids =>
    rw [hr] at htick
    exact htick.1

structure Sound (m : ℕ) (w : World) : Prop where
  distinct : (w.rows.map Prod.fst).Nodup
  room : ∀ r ∈ w.replicas, r.Room m
  -- A transaction holds rows that are queued, and no two hold one of them.
  held : ∀ r ∈ w.replicas, r.selectedIds.Nodup ∧ ∀ id ∈ r.selectedIds, (id, .queued) ∈ w.rows
  apart : ∀ (i j : ℕ), ∀ r ∈ w.replicas[i]?, ∀ r' ∈ w.replicas[j]?, ∀ id ∈ r.selectedIds,
    id ∈ r'.selectedIds → i = j
  claimed : ∀ r ∈ w.replicas, r.claims.Nodup ∧
    ∀ id ∈ r.claims, id ∈ w.rows.map Prod.fst ∧ (id, .queued) ∉ w.rows
  worked : ∀ r ∈ w.replicas, ∀ id ∈ r.tasks, id ∈ r.claims
  known : ∀ row ∈ w.rows, row.2 = .queued ∨ row.2.isTerminal = true ∨
    ∃ r ∈ w.replicas, row.1 ∈ r.claims

def Minded (w : World) : Prop :=
  ∀ r ∈ w.replicas, ∀ id ∈ r.claims, w.IsSettled id ∨ id ∈ r.tasks

theorem Sound.noneStranded (h : Sound m w) (hminded : Minded w) : w.NoneStranded := by
  intro row hrow hlive
  rcases h.known row hrow with hqueued | hterminal | ⟨r, hr, hclaims⟩
  · exact .inl hqueued
  · rw [hlive] at hterminal
    cases hterminal
  · rcases hminded r hr row.1 hclaims with hsettled | htask
    · rw [hsettled row hrow rfl] at hlive
      cases hlive
    · exact .inr ⟨r, hr, htask⟩

theorem Sound.bounded (h : Sound m w) (hminded : Minded w) : w.Bounded m := by
  intro r hr
  have hsubset : w.unfinished r ⊆ r.tasks := by
    intro id hid
    obtain ⟨hclaims, hwhy⟩ := mem_filter.mp hid
    rcases of_decide_eq_true hwhy with htask | hopen
    · exact htask
    · exact (hminded r hr id hclaims).resolve_left hopen
  have hnodup : (w.unfinished r).Nodup := (h.claimed r hr).1.filter _
  exact (subperm_of_subset hnodup hsubset).length_le.trans (h.room r hr).tasks_le

theorem mem_put_cases {r₁ : Replica} (h : r₁ ∈ (w.put i r').replicas) :
    r₁ = r' ∨ ∃ j, j ≠ i ∧ w.replicas[j]? = some r₁ :=
  mem_set_cases h

def Elsewhere (w : World) (i : ℕ) (id : String) : Prop :=
  ∃ j, j ≠ i ∧ ∃ r ∈ w.replicas[j]?, id ∈ r.selectedIds

theorem Sound.atMostOne (h : Sound m w) (id : String) :
    AtMostOne (fun r : Replica => id ∈ r.selectedIds) w.replicas :=
  fun j k r hr r' hr' hid hid' => h.apart j k r hr r' hr' id hid hid'

theorem Sound.update (h : Sound m w) (hr : w.replicas[i]? = some r) (hroom : r'.Room m)
    (hstatus : status ≠ .queued) (hfree : ∀ id ∈ ids, ¬Elsewhere w i id)
    (hnodup : r'.selectedIds.Nodup)
    (hselected : ∀ id ∈ r'.selectedIds, (id, .queued) ∈ w.rows ∧ id ∉ ids ∧ ¬Elsewhere w i id)
    (hclaimsNodup : r'.claims.Nodup)
    (hclaims : ∀ id ∈ r'.claims, id ∈ w.rows.map Prod.fst ∧ (id ∈ ids ∨ (id, .queued) ∉ w.rows))
    (hkept : ∀ id ∈ r.claims, id ∈ r'.claims) (hworked : ∀ id ∈ r'.tasks, id ∈ r'.claims)
    (hknown : ∀ id ∈ ids, status.isTerminal = true ∨ id ∈ r'.claims) :
    Sound m ((w.write ids status).put i r') := by
  have hqueued : ∀ id, (id, .queued) ∈ (w.write ids status).rows ↔
      (id, .queued) ∈ w.rows ∧ id ∉ ids := fun id => queued_write hstatus
  have hput : ∀ r₁ ∈ w.replicas, r₁ = r ∨ r₁ ∈ ((w.write ids status).put i r').replicas := by
    intro r₁ hr₁
    obtain ⟨j, hj⟩ := mem_iff_getElem?.mp hr₁
    by_cases hji : j = i
    · subst hji
      exact .inl (Option.some.inj (hj.symm.trans hr))
    · refine .inr (mem_of_getElem? (i := j) ?_)
      change (w.replicas.set i r')[j]? = some r₁
      rw [List.getElem?_set_ne (Ne.symm hji), hj]
  have hself : r' ∈ ((w.write ids status).put i r').replicas :=
    mem_of_getElem? (List.getElem?_set_self (List.getElem?_eq_some_iff.mp hr).1)
  have hone : ∀ id, AtMostOne (fun r : Replica => id ∈ r.selectedIds) (w.replicas.set i r') :=
    fun id => (h.atMostOne id).set fun hid j hj r₁ hr₁ hid₁ =>
      (hselected id hid).2.2 ⟨j, hj, r₁, hr₁, hid₁⟩
  refine ⟨?_, fun r₁ hr₁ => ?_, fun r₁ hr₁ => ?_,
    fun j k r₁ hr₁ r₂ hr₂ id hid₁ hid₂ => hone id j k r₁ hr₁ r₂ hr₂ hid₁ hid₂,
    fun r₁ hr₁ => ?_, fun r₁ hr₁ => ?_, fun row hrow => ?_⟩
  · exact (keys_write w ids status).symm ▸ h.distinct
  · rcases mem_put_cases hr₁ with rfl | ⟨j, _, hj⟩
    · exact hroom
    · exact h.room r₁ (mem_of_getElem? hj)
  · rcases mem_put_cases hr₁ with rfl | ⟨j, hji, hj⟩
    · refine ⟨hnodup, fun id hid => ?_⟩
      obtain ⟨hold, hmem, -⟩ := hselected id hid
      exact (hqueued id).mpr ⟨hold, hmem⟩
    · refine ⟨(h.held r₁ (mem_of_getElem? hj)).1, fun id hid => (hqueued id).mpr ⟨?_, ?_⟩⟩
      · exact (h.held r₁ (mem_of_getElem? hj)).2 id hid
      · exact fun hmem => hfree id hmem ⟨j, hji, r₁, hj, hid⟩
  · rcases mem_put_cases hr₁ with rfl | ⟨j, _, hj⟩
    · refine ⟨hclaimsNodup, fun id hid => ?_⟩
      obtain ⟨hkey, hnot⟩ := hclaims id hid
      refine ⟨(keys_write w ids status).symm ▸ hkey, fun hrow => ?_⟩
      obtain ⟨hold, hmem⟩ := (hqueued id).mp hrow
      exact hnot.elim hmem fun hnot => hnot hold
    · obtain ⟨hnodup₁, hold₁⟩ := h.claimed r₁ (mem_of_getElem? hj)
      refine ⟨hnodup₁, fun id hid => ?_⟩
      obtain ⟨hkey, hnot⟩ := hold₁ id hid
      exact ⟨(keys_write w ids status).symm ▸ hkey, fun hrow => hnot ((hqueued id).mp hrow).1⟩
  · rcases mem_put_cases hr₁ with rfl | ⟨j, _, hj⟩
    · exact hworked
    · exact h.worked r₁ (mem_of_getElem? hj)
  · obtain ⟨old, hold, rfl⟩ := mem_write.mp hrow
    split_ifs with hmem
    · rcases hknown old.1 hmem with hterminal | hclaimed
      · exact .inr (.inl hterminal)
      · exact .inr (.inr ⟨r', hself, hclaimed⟩)
    · rcases h.known old hold with hq | hterminal | ⟨r₁, hr₁, hclaimed⟩
      · exact .inl hq
      · exact .inr (.inl hterminal)
      · rcases hput r₁ hr₁ with rfl | hr₁'
        · exact .inr (.inr ⟨r', hself, hkept old.1 hclaimed⟩)
        · exact .inr (.inr ⟨r₁, hr₁', hclaimed⟩)

theorem Sound.put (h : Sound m w) (hr : w.replicas[i]? = some r) (hroom : r'.Room m)
    (hnodup : r'.selectedIds.Nodup)
    (hselected : ∀ id ∈ r'.selectedIds, (id, .queued) ∈ w.rows ∧ ¬Elsewhere w i id)
    (hclaims : r'.claims = r.claims) (htasks : ∀ id ∈ r'.tasks, id ∈ r.tasks) :
    Sound m (w.put i r') := by
  have hmem := mem_of_getElem? hr
  have hclaimed := h.claimed r hmem
  have hworked : ∀ id ∈ r'.tasks, id ∈ r'.claims :=
    fun id hid => hclaims ▸ h.worked r hmem id (htasks id hid)
  have hupdate : Sound m ((w.write [] .failed).put i r') :=
    h.update hr hroom InvestigationStatus.noConfusion
      (fun id hid => absurd hid not_mem_nil) hnodup
      (fun id hid => ⟨(hselected id hid).1, not_mem_nil, (hselected id hid).2⟩)
      (hclaims ▸ hclaimed.1)
      (fun id hid => (hclaimed.2 id (hclaims ▸ hid)).imp_right .inr)
      (fun id hid => hclaims ▸ hid) hworked fun id hid => absurd hid not_mem_nil
  rwa [write_nil] at hupdate

theorem Minded.update (h : Minded w) (hkeeps : ∀ id, w.IsSettled id →
    (w.write ids status).IsSettled id)
    (hown : ∀ id ∈ r'.claims, (w.write ids status).IsSettled id ∨ id ∈ r'.tasks) :
    Minded ((w.write ids status).put i r') := by
  intro r₁ hr₁ id hid
  rcases mem_put_cases hr₁ with rfl | ⟨j, _, hj⟩
  · exact hown id hid
  · exact (h r₁ (mem_of_getElem? hj) id hid).imp_left (hkeeps id)

theorem Sound.putFree (h : Sound m w) (hr : w.replicas[i]? = some r) (hroom : r'.Room m)
    (hfree : r'.selectedIds = []) (hclaims : r'.claims = r.claims)
    (htasks : ∀ id ∈ r'.tasks, id ∈ r.tasks) : Sound m (w.put i r') := by
  refine h.put hr hroom (hfree ▸ nodup_nil) (fun id hid => ?_) hclaims htasks
  rw [hfree] at hid
  exact absurd hid not_mem_nil

theorem Sound.not_elsewhere (h : Sound m w) (hr : w.replicas[i]? = some r)
    (hid : id ∈ r.selectedIds) : ¬Elsewhere w i id := by
  rintro ⟨j, hji, r₁, hr₁, hid₁⟩
  exact (h.atMostOne id).others hr hid j hji r₁ hr₁ hid₁

theorem not_elsewhere_of_not_held (h : w.isHeld id = false) : ¬Elsewhere w i id := by
  rintro ⟨j, -, r₁, hr₁, hid₁⟩
  have hnone := any_eq_false.mp h r₁ (mem_of_getElem? hr₁)
  exact hnone (decide_eq_true hid₁)

theorem Sound.not_elsewhere_of_claimed (h : Sound m w) (hr : w.replicas[i]? = some r)
    (hid : id ∈ r.claims) : ¬Elsewhere w i id := by
  rintro ⟨j, -, r₁, hr₁, hid₁⟩
  have hqueued := (h.held r₁ (mem_of_getElem? hr₁)).2 id hid₁
  exact ((h.claimed r (mem_of_getElem? hr)).2 id hid).2 hqueued

theorem mem_queued {limit : ℕ} (h : id ∈ w.queued limit) :
    (id, .queued) ∈ w.rows ∧ w.isHeld id = false := by
  obtain ⟨row, hrow, rfl⟩ := mem_map.mp (mem_of_mem_take h)
  obtain ⟨hmem, hfilter⟩ := mem_filter.mp hrow
  obtain ⟨hqueued, hheld⟩ := of_decide_eq_true hfilter
  rw [← hqueued]
  exact ⟨hmem, hheld⟩

theorem nodup_queued (h : (w.rows.map Prod.fst).Nodup) (limit : ℕ) : (w.queued limit).Nodup :=
  (h.sublist (filter_sublist.map Prod.fst)).sublist (take_sublist ..)

/-! ## Tasks -/

section

variable {phase phase' : Phase}

theorem Replica.Room.leave (h : r.Room m) (hmem : (id, phase) ∈ r.driving) :
    (r.leave id phase).Room m := by
  obtain ⟨hvalue, htick⟩ := h
  have hpos := length_pos_of_mem hmem
  refine ⟨?_, ?_⟩
  · unfold Replica.leave
    dsimp only
    rw [length_erase_of_mem hmem]
    omega
  · unfold Replica.leave
    cases hr : r.tick with
    | idle =>
      rw [hr] at htick
      exact Nat.le_succ_of_le htick
    | sized | selected | claimed =>
      rw [hr] at htick
      exact ⟨htick.1, Nat.le_succ_of_le htick.2⟩

theorem Replica.Room.move (h : r.Room m) (hmem : (id, phase) ∈ r.driving) :
    (r.move id phase phase').Room m := by
  obtain ⟨hvalue, htick⟩ := h
  have hpos := length_pos_of_mem hmem
  refine ⟨?_, htick⟩
  unfold Replica.move
  dsimp only
  rw [length_cons, length_erase_of_mem hmem]
  omega

variable {id' : String}

theorem mem_tasks : id' ∈ r.tasks ↔
    id' ∈ r.claimedIds ∨ id' ∈ r.created ∨ ∃ phase, (id', phase) ∈ r.driving := by
  unfold Replica.tasks
  rw [mem_append, mem_append, mem_map, or_assoc]
  refine or_congr_right (or_congr_right ⟨?_, ?_⟩)
  · rintro ⟨⟨_, phase⟩, hmem, rfl⟩
    exact ⟨phase, hmem⟩
  · rintro ⟨phase, hmem⟩
    exact ⟨_, hmem, rfl⟩

theorem mem_tasks_move (h : id' ∈ r.tasks) : id' ∈ (r.move id phase phase').tasks := by
  rcases mem_tasks.mp h with h | h | ⟨other, h⟩
  · exact mem_tasks.mpr (.inl h)
  · exact mem_tasks.mpr (.inr (.inl h))
  · refine mem_tasks.mpr (.inr (.inr ?_))
    by_cases hid : id' = id
    · exact ⟨phase', hid ▸ mem_cons_self ..⟩
    · have hne : (id', other) ≠ (id, phase) := fun heq => hid (congrArg Prod.fst heq)
      exact ⟨other, mem_cons_of_mem _ ((mem_erase_of_ne hne).mpr h)⟩

theorem mem_tasks_leave (h : id' ∈ r.tasks) (hid : id' ≠ id) : id' ∈ (r.leave id phase).tasks := by
  rcases mem_tasks.mp h with h | h | ⟨other, h⟩
  · exact mem_tasks.mpr (.inl h)
  · exact mem_tasks.mpr (.inr (.inl h))
  · have hne : (id', other) ≠ (id, phase) := fun heq => hid (congrArg Prod.fst heq)
    exact mem_tasks.mpr (.inr (.inr ⟨other, (mem_erase_of_ne hne).mpr h⟩))

theorem mem_tasks_of_move (hmem : (id, phase) ∈ r.driving)
    (h : id' ∈ (r.move id phase phase').tasks) : id' ∈ r.tasks := by
  rcases mem_tasks.mp h with h | h | ⟨other, h⟩
  · exact mem_tasks.mpr (.inl h)
  · exact mem_tasks.mpr (.inr (.inl h))
  · refine mem_tasks.mpr (.inr (.inr ?_))
    rcases mem_cons.mp h with heq | h
    · exact ⟨phase, by rw [(Prod.mk.inj heq).1]; exact hmem⟩
    · exact ⟨other, mem_of_mem_erase h⟩

theorem mem_tasks_of_leave (h : id' ∈ (r.leave id phase).tasks) : id' ∈ r.tasks := by
  rcases mem_tasks.mp h with h | h | ⟨other, h⟩
  · exact mem_tasks.mpr (.inl h)
  · exact mem_tasks.mpr (.inr (.inl h))
  · exact mem_tasks.mpr (.inr (.inr ⟨other, mem_of_mem_erase h⟩))

end

theorem Sound.task (h : Sound m w) (hr : w.replicas[i]? = some r) (hroom : r'.Room m)
    (htick : r'.selectedIds = r.selectedIds) (hclaims : r'.claims = r.claims)
    (htasks : ∀ id ∈ r'.tasks, id ∈ r.tasks) (hids : ∀ id ∈ ids, id ∈ r.claims)
    (hterminal : status.isTerminal = true) : Sound m ((w.write ids status).put i r') := by
  have hmem := mem_of_getElem? hr
  have hclaimed := h.claimed r hmem
  have hheld := h.held r hmem
  have hstatus : status ≠ .queued := by
    rintro rfl
    cases hterminal
  refine h.update hr hroom hstatus (fun id hid => h.not_elsewhere_of_claimed hr (hids id hid))
    (htick ▸ hheld.1) (fun id hid => ?_) (hclaims ▸ hclaimed.1)
    (fun id hid => (hclaimed.2 id (hclaims ▸ hid)).imp_right .inr) (fun id hid => hclaims ▸ hid)
    (fun id hid => hclaims ▸ h.worked r hmem id (htasks id hid)) fun id hid => .inl hterminal
  rw [htick] at hid
  have hqueued := hheld.2 id hid
  exact ⟨hqueued, fun hmem' => (hclaimed.2 id (hids id hmem')).2 hqueued, h.not_elsewhere hr hid⟩

theorem Sound.rest (h : Sound m w) (hr : w.replicas[i]? = some r) (hroom : r'.Room m)
    (htick : r'.selectedIds = r.selectedIds) (hclaims : r'.claims = r.claims)
    (htasks : ∀ id ∈ r'.tasks, id ∈ r.tasks) : Sound m (w.put i r') := by
  rw [← write_nil w .failed]
  exact h.task hr hroom htick hclaims htasks (fun _ hid => absurd hid not_mem_nil) rfl

/-! ## Steps -/

theorem Sound.worker (h : Sound m w) {act : Act} (hr : w.replicas[i]? = some r)
    (hstep : w.workerStep m i r act = some w') : Sound m w' := by
  have hmem := mem_of_getElem? hr
  have hroom := h.room r hmem
  obtain ⟨hvalue, htick⟩ := h.room r hmem
  have hwrites : ∀ id ∈ r.tasks, ∀ id' ∈ [id], id' ∈ r.claims := by
    rintro id hid _ hid'
    exact mem_singleton.mp hid' ▸ h.worked r hmem id hid
  have hdriven : ∀ {id : String} {phase : Phase}, (id, phase) ∈ r.driving → id ∈ r.tasks :=
    fun hdriving => mem_tasks.mpr (.inr (.inr ⟨_, hdriving⟩))
  cases act with
  | tick =>
    obtain ⟨⟨hidle, hcreated, -, -⟩, hstep⟩ := ite_none_right_eq_some.mp hstep
    cases hstep
    refine h.putFree hr ⟨hvalue, hcreated, Nat.le_refl _⟩ rfl rfl fun id hid => ?_
    rcases mem_tasks.mp hid with hid | hid
    · exact absurd hid not_mem_nil
    · exact mem_tasks.mpr (.inr hid)
  | select =>
    dsimp only [World.workerStep] at hstep
    split at hstep
    · next capacity hsized =>
      cases hstep
      rw [hsized] at htick
      have hlength : (w.queued capacity).length ≤ r.value :=
        (length_take_le ..).trans htick.2
      refine h.put hr ⟨hvalue, htick.1, hlength⟩ (nodup_queued h.distinct capacity)
        (fun id hid => ?_) rfl fun id hid => ?_
      · obtain ⟨hqueued, hheld⟩ := mem_queued hid
        exact ⟨hqueued, not_elsewhere_of_not_held hheld⟩
      · rcases mem_tasks.mp hid with hid | hid
        · exact absurd hid not_mem_nil
        · exact mem_tasks.mpr (.inr hid)
    · cases hstep
  | commit =>
    dsimp only [World.workerStep] at hstep
    split at hstep
    · next ids hselected =>
      cases hstep
      rw [hselected] at htick
      have hids : r.selectedIds = ids := by
        unfold Replica.selectedIds
        rw [hselected]
      obtain ⟨hnodup, hqueued⟩ := h.held r hmem
      rw [hids] at hnodup hqueued
      obtain ⟨hclaimsNodup, hclaimed⟩ := h.claimed r hmem
      have hnew : ∀ id ∈ ids, id ∉ r.claims := fun id hid hclaims =>
        (hclaimed id hclaims).2 (hqueued id hid)
      refine h.update hr ⟨hvalue, htick⟩ InvestigationStatus.noConfusion
        (fun id hid => h.not_elsewhere hr (hids ▸ hid)) nodup_nil
        (fun id hid => absurd hid not_mem_nil)
        (hclaimsNodup.append hnodup fun id hclaims hid => hnew id hid hclaims) (fun id hid => ?_)
        (fun id hid => mem_append_left _ hid) (fun id hid => ?_)
        fun id hid => .inr (mem_append_right _ hid)
      · rcases mem_append.mp hid with hid | hid
        · exact (hclaimed id hid).imp_right .inr
        · exact ⟨mem_map_of_mem (f := Prod.fst) (hqueued id hid), .inl hid⟩
      · rcases mem_tasks.mp hid with hid | hid
        · exact mem_append_right _ hid
        · exact mem_append_left _ (h.worked r hmem id (mem_tasks.mpr (.inr hid)))
    · cases hstep
  | giveUp =>
    dsimp only [World.workerStep] at hstep
    split_ifs at hstep with hidle
    cases hstep
    have hroom' : Replica.Room m { r with tick := .idle } := by
      refine ⟨hvalue, ?_⟩
      rw [hroom.created_nil hidle]
      exact Nat.zero_le _
    refine h.putFree hr hroom' rfl rfl fun id hid => ?_
    rcases mem_tasks.mp hid with hid | hid
    · exact absurd hid not_mem_nil
    · exact mem_tasks.mpr (.inr hid)
  | spawn =>
    dsimp only [World.workerStep] at hstep
    split at hstep
    · next ids hclaimed =>
      cases hstep
      rw [hclaimed] at htick
      refine h.putFree hr ⟨hvalue, htick.2⟩ rfl rfl fun id hid => ?_
      rcases mem_tasks.mp hid with hid | hid | hid
      · exact absurd hid not_mem_nil
      · refine mem_tasks.mpr (.inl ?_)
        unfold Replica.claimedIds
        rw [hclaimed]
        exact hid
      · exact mem_tasks.mpr (.inr (.inr hid))
    · cases hstep
  | enter =>
    dsimp only [World.workerStep] at hstep
    split at hstep
    · cases hstep
    · next id rest hcreated =>
      obtain ⟨hpos, hstep⟩ := ite_none_right_eq_some.mp hstep
      cases hstep
      have hidle : r.tick = .idle := by
        by_contra hbusy
        rw [hroom.created_nil hbusy] at hcreated
        cases hcreated
      rw [hidle, hcreated] at htick
      have hlength : rest.length + 1 ≤ r.value := htick
      have hroom' : Replica.Room m
          { r with
            value := r.value - 1
            created := rest
            driving := (id, .loading) :: r.driving } := by
        refine ⟨?_, ?_⟩
        · change r.value - 1 + (r.driving.length + 1) = m
          omega
        · dsimp only
          rw [hidle]
          omega
      refine h.putFree hr hroom' ?_ rfl fun id' hid => ?_
      · unfold Replica.selectedIds
        rw [hidle]
      · rcases mem_tasks.mp hid with hid | hid | ⟨phase, hid⟩
        · exact mem_tasks.mpr (.inl hid)
        · exact mem_tasks.mpr (.inr (.inl (hcreated ▸ mem_cons_of_mem _ hid)))
        · rcases mem_cons.mp hid with heq | hid
          · obtain rfl := (Prod.mk.inj heq).1
            exact mem_tasks.mpr (.inr (.inl (hcreated ▸ mem_cons_self ..)))
          · exact mem_tasks.mpr (.inr (.inr ⟨phase, hid⟩))
  | load id succeeds =>
    obtain ⟨hdriving, hstep⟩ := ite_none_right_eq_some.mp hstep
    cases hstep
    cases succeeds with
    | true =>
      exact h.rest hr (hroom.move hdriving) rfl rfl (fun id => mem_tasks_of_move hdriving)
    | false =>
      exact h.rest hr (hroom.leave hdriving) rfl rfl (fun id => mem_tasks_of_leave)
  | ended id raised =>
    obtain ⟨hdriving, hstep⟩ := ite_none_right_eq_some.mp hstep
    cases hstep
    exact h.rest hr (hroom.move hdriving) rfl rfl (fun id => mem_tasks_of_move hdriving)
  | finish id withFindings outcome =>
    obtain ⟨hdriving, hstep⟩ := ite_none_right_eq_some.mp hstep
    cases hstep
    have hterminal : (if withFindings = true then InvestigationStatus.completedWithFindings
        else .completed).isTerminal = true := by
      split_ifs <;> rfl
    cases outcome with
    | written =>
      exact h.task hr (hroom.leave hdriving) rfl rfl (fun id => mem_tasks_of_leave)
        (hwrites id (hdriven hdriving)) hterminal
    | refused =>
      exact h.rest hr (hroom.move hdriving) rfl rfl (fun id => mem_tasks_of_move hdriving)
    | unheard =>
      exact h.task hr (hroom.move hdriving) rfl rfl (fun id => mem_tasks_of_move hdriving)
        (hwrites id (hdriven hdriving)) hterminal
  | fail id outcome =>
    obtain ⟨hdriving, hstep⟩ := ite_none_right_eq_some.mp hstep
    cases hstep
    have hwritten : Sound m ((w.write [id] .failed).put i (r.leave id .failing)) :=
      h.task hr (hroom.leave hdriving) rfl rfl (fun id => mem_tasks_of_leave)
        (hwrites id (hdriven hdriving)) rfl
    cases outcome with
    | written | unheard => exact hwritten
    | refused =>
      exact h.rest hr (hroom.leave hdriving) rfl rfl (fun id => mem_tasks_of_leave)
  | stop =>
    dsimp only [World.workerStep] at hstep
    split_ifs at hstep
    cases hstep
    refine h.putFree hr ⟨rfl, Nat.zero_le _⟩ rfl rfl fun id hid => ?_
    exact absurd hid not_mem_nil

theorem Sound.settle (h : Sound m w) (hterminal : status.isTerminal = true)
    (hheld : w.isHeld id = false) : Sound m (w.write [id] status) := by
  have hstatus : status ≠ .queued := by
    rintro rfl
    cases hterminal
  refine ⟨(keys_write w [id] status).symm ▸ h.distinct, h.room,
    fun r hr => ⟨(h.held r hr).1, fun id' hid => (queued_write hstatus).mpr ⟨?_, ?_⟩⟩, h.apart,
    fun r hr => ⟨(h.claimed r hr).1, fun id' hid => ?_⟩, h.worked, fun row hrow => ?_⟩
  · exact (h.held r hr).2 id' hid
  · intro hmem
    obtain rfl := mem_singleton.mp hmem
    have hnone := any_eq_false.mp hheld r hr
    exact hnone (decide_eq_true hid)
  · obtain ⟨hkey, hnot⟩ := (h.claimed r hr).2 id' hid
    exact ⟨(keys_write w [id] status).symm ▸ hkey,
      fun hrow => hnot ((queued_write hstatus).mp hrow).1⟩
  · obtain ⟨old, hold, rfl⟩ := mem_write.mp hrow
    split_ifs with hmem
    · exact .inr (.inl hterminal)
    · exact h.known old hold

theorem Sound.start (h : Sound m w) :
    Sound m { w with replicas := w.replicas ++ [{ value := m }] } := by
  have hnew : ∀ r ∈ w.replicas ++ [{ value := m }], r ∈ w.replicas ∨ r = { value := m } :=
    fun r hr => (mem_append.mp hr).imp_right mem_singleton.mp
  have hone : ∀ id, AtMostOne (fun r : Replica => id ∈ r.selectedIds)
      (w.replicas ++ [{ value := m }]) := fun id => (h.atMostOne id).concat not_mem_nil
  refine ⟨h.distinct, fun r hr => ?_, fun r hr => ?_,
    fun j k r hr r' hr' id hid hid' => hone id j k r hr r' hr' hid hid',
    fun r hr => ?_, fun r hr => ?_, fun row hrow => ?_⟩
  · rcases hnew r hr with hr | rfl
    · exact h.room r hr
    · exact ⟨rfl, Nat.zero_le _⟩
  · rcases hnew r hr with hr | rfl
    · exact h.held r hr
    · exact ⟨nodup_nil, fun id hid => absurd hid not_mem_nil⟩
  · rcases hnew r hr with hr | rfl
    · exact h.claimed r hr
    · exact ⟨nodup_nil, fun id hid => absurd hid not_mem_nil⟩
  · rcases hnew r hr with hr | rfl
    · exact h.worked r hr
    · exact fun id hid => absurd hid not_mem_nil
  · rcases h.known row hrow with hq | hterminal | ⟨r, hr, hclaims⟩
    · exact .inl hq
    · exact .inr (.inl hterminal)
    · exact .inr (.inr ⟨r, mem_append_left _ hr, hclaims⟩)

theorem step_sound (h : Sound m w) {e : Event} (hstep : w.step m e = some w') : Sound m w' := by
  cases e with
  | create id =>
    obtain ⟨hnew, hstep⟩ := ite_none_left_eq_some.mp hstep
    cases hstep
    refine ⟨?_, h.room, fun r hr => ⟨(h.held r hr).1, fun id' hid => ?_⟩, h.apart,
      fun r hr => ⟨(h.claimed r hr).1, fun id' hid => ?_⟩, h.worked, fun row hrow => ?_⟩
    · dsimp only
      rw [map_append, map_singleton, ← concat_eq_append]
      exact h.distinct.concat hnew
    · exact mem_append_left _ ((h.held r hr).2 id' hid)
    · obtain ⟨hkey, hnot⟩ := (h.claimed r hr).2 id' hid
      refine ⟨?_, fun hrow => ?_⟩
      · dsimp only
        rw [map_append]
        exact mem_append_left _ hkey
      · rcases mem_append.mp hrow with hrow | hrow
        · exact hnot hrow
        · exact hnew ((Prod.mk.inj (mem_singleton.mp hrow)).1 ▸ hkey)
    · rcases mem_append.mp hrow with hrow | hrow
      · exact h.known row hrow
      · obtain rfl := mem_singleton.mp hrow
        exact .inl rfl
  | settle id target =>
    dsimp only [World.step] at hstep
    split at hstep
    · obtain ⟨⟨-, hterminal, hheld⟩, hstep⟩ := ite_none_right_eq_some.mp hstep
      cases hstep
      exact h.settle hterminal hheld
    · cases hstep
  | start =>
    cases hstep
    exact h.start
  | worker i act =>
    obtain ⟨r, hr, hstep⟩ := bind_eq_some_iff.mp hstep
    exact h.worker hr hstep

/-! ## While no task ends too early -/

theorem Minded.put (h : Minded w) (hown : ∀ id ∈ r'.claims, w.IsSettled id ∨ id ∈ r'.tasks) :
    Minded (w.put i r') := by
  have hupdate : Minded ((w.write [] .failed).put i r') :=
    h.update (fun id hid => (write_nil w _).symm ▸ hid) ((write_nil w _).symm ▸ hown)
  rwa [write_nil] at hupdate

theorem Minded.kept (h : Minded w) (hr : r ∈ w.replicas) (hclaims : r'.claims = r.claims)
    (htasks : ∀ id ∈ r.tasks, w.IsSettled id ∨ id ∈ r'.tasks) : Minded (w.put i r') := by
  refine h.put fun id hid => ?_
  rcases h r hr id (hclaims ▸ hid) with hsettled | htask
  · exact .inl hsettled
  · exact htasks id htask

theorem Minded.settled (h : Minded w) (hr : r ∈ w.replicas) (hclaims : r'.claims = r.claims)
    (hterminal : status.isTerminal = true) (htasks : ∀ id' ∈ r.tasks, id' ≠ id → id' ∈ r'.tasks) :
    Minded ((w.write [id] status).put i r') := by
  refine h.update (fun id' hid => hid.write fun _ => hterminal) fun id' hid => ?_
  by_cases heq : id' = id
  · subst heq
    exact .inl (settled_write hterminal (mem_singleton_self _))
  · rcases h r hr id' (hclaims ▸ hid) with hsettled | htask
    · exact .inl (hsettled.write fun _ => hterminal)
    · exact .inr (htasks id' htask heq)

theorem Minded.worker (hsound : Sound m w) (h : Minded w) {act : Act}
    (hr : w.replicas[i]? = some r) (hkeeps : w.Keeps (.worker i act))
    (hstep : w.workerStep m i r act = some w') : Minded w' := by
  have hmem := mem_of_getElem? hr
  have hkeeps := hkeeps r hr
  cases act with
  | tick =>
    obtain ⟨⟨hidle, -, -, -⟩, hstep⟩ := ite_none_right_eq_some.mp hstep
    cases hstep
    refine h.kept hmem rfl fun id hid => .inr ?_
    rcases mem_tasks.mp hid with hid | hid
    · unfold Replica.claimedIds at hid
      rw [hidle] at hid
      exact absurd hid not_mem_nil
    · exact mem_tasks.mpr (.inr hid)
  | select =>
    dsimp only [World.workerStep] at hstep
    split at hstep
    · next capacity hsized =>
      cases hstep
      refine h.kept hmem rfl fun id hid => .inr ?_
      rcases mem_tasks.mp hid with hid | hid
      · unfold Replica.claimedIds at hid
        rw [hsized] at hid
        exact absurd hid not_mem_nil
      · exact mem_tasks.mpr (.inr hid)
    · cases hstep
  | commit =>
    dsimp only [World.workerStep] at hstep
    split at hstep
    · next ids hselected =>
      cases hstep
      have hids : r.selectedIds = ids := by
        unfold Replica.selectedIds
        rw [hselected]
      have hopen : ∀ id ∈ ids, ¬w.IsSettled id := by
        intro id hid hsettled
        have hterminal := hsettled _ ((hsound.held r hmem).2 id (hids ▸ hid)) rfl
        cases hterminal
      have hwrite : ∀ id, w.IsSettled id → (w.write ids .planning).IsSettled id :=
        fun id hid => hid.write fun hmem' => absurd hid (hopen id hmem')
      refine h.update hwrite fun id hid => ?_
      rcases mem_append.mp hid with hid | hid
      · refine (h r hmem id hid).imp (hwrite id) fun htask => ?_
        rcases mem_tasks.mp htask with htask | htask
        · unfold Replica.claimedIds at htask
          rw [hselected] at htask
          exact absurd htask not_mem_nil
        · exact mem_tasks.mpr (.inr htask)
      · exact .inr (mem_tasks.mpr (.inl hid))
    · cases hstep
  | giveUp =>
    dsimp only [World.workerStep] at hstep
    split_ifs at hstep
    cases hstep
    refine h.kept hmem rfl fun id hid => ?_
    rcases mem_tasks.mp hid with hid | hid
    · exact .inl (hkeeps id hid)
    · exact .inr (mem_tasks.mpr (.inr hid))
  | spawn =>
    dsimp only [World.workerStep] at hstep
    split at hstep
    · next ids hclaimed =>
      cases hstep
      have hcreated : r.created = [] := by
        refine (hsound.room r hmem).created_nil fun hidle => ?_
        rw [hclaimed] at hidle
        cases hidle
      refine h.kept hmem rfl fun id hid => .inr ?_
      rcases mem_tasks.mp hid with hid | hid | hid
      · unfold Replica.claimedIds at hid
        rw [hclaimed] at hid
        exact mem_tasks.mpr (.inr (.inl hid))
      · rw [hcreated] at hid
        exact absurd hid not_mem_nil
      · exact mem_tasks.mpr (.inr (.inr hid))
    · cases hstep
  | enter =>
    dsimp only [World.workerStep] at hstep
    split at hstep
    · cases hstep
    · next id rest hcreated =>
      obtain ⟨-, hstep⟩ := ite_none_right_eq_some.mp hstep
      cases hstep
      refine h.kept hmem rfl fun id' hid => .inr ?_
      rcases mem_tasks.mp hid with hid | hid | ⟨phase, hid⟩
      · exact mem_tasks.mpr (.inl hid)
      · rw [hcreated] at hid
        rcases mem_cons.mp hid with rfl | hid
        · exact mem_tasks.mpr (.inr (.inr ⟨.loading, mem_cons_self ..⟩))
        · exact mem_tasks.mpr (.inr (.inl hid))
      · exact mem_tasks.mpr (.inr (.inr ⟨phase, mem_cons_of_mem _ hid⟩))
  | load id succeeds =>
    obtain ⟨-, hstep⟩ := ite_none_right_eq_some.mp hstep
    cases hstep
    cases succeeds with
    | true => exact h.kept hmem rfl fun id' hid => .inr (mem_tasks_move hid)
    | false =>
      refine h.kept hmem rfl fun id' hid => ?_
      by_cases heq : id' = id
      · exact .inl (hkeeps id' (heq ▸ mem_singleton_self _))
      · exact .inr (mem_tasks_leave hid heq)
  | ended id raised =>
    obtain ⟨-, hstep⟩ := ite_none_right_eq_some.mp hstep
    cases hstep
    exact h.kept hmem rfl fun id' hid => .inr (mem_tasks_move hid)
  | finish id withFindings outcome =>
    obtain ⟨-, hstep⟩ := ite_none_right_eq_some.mp hstep
    cases hstep
    have hterminal : (if withFindings = true then InvestigationStatus.completedWithFindings
        else .completed).isTerminal = true := by
      split_ifs <;> rfl
    cases outcome with
    | written => exact h.settled hmem rfl hterminal fun id' hid hne => mem_tasks_leave hid hne
    | refused => exact h.kept hmem rfl fun id' hid => .inr (mem_tasks_move hid)
    | unheard => exact h.settled hmem rfl hterminal fun id' hid _ => mem_tasks_move hid
  | fail id outcome =>
    obtain ⟨-, hstep⟩ := ite_none_right_eq_some.mp hstep
    cases hstep
    have hwritten : Minded ((w.write [id] .failed).put i (r.leave id .failing)) :=
      h.settled hmem rfl rfl fun id' hid hne => mem_tasks_leave hid hne
    cases outcome with
    | written | unheard => exact hwritten
    | refused =>
      refine h.kept hmem rfl fun id' hid => ?_
      by_cases heq : id' = id
      · exact .inl (hkeeps id' (heq ▸ mem_singleton_self _))
      · exact .inr (mem_tasks_leave hid heq)
  | stop =>
    dsimp only [World.workerStep] at hstep
    split_ifs at hstep
    cases hstep
    exact h.kept hmem rfl fun id hid => .inl (hkeeps id hid)

theorem step_minded (hsound : Sound m w) (h : Minded w) {e : Event} (hkeeps : w.Keeps e)
    (hstep : w.step m e = some w') : Minded w' := by
  cases e with
  | create id =>
    obtain ⟨hnew, hstep⟩ := ite_none_left_eq_some.mp hstep
    cases hstep
    intro r hr id' hid
    refine (h r hr id' hid).imp_left fun hsettled row hrow hkey => ?_
    rcases mem_append.mp hrow with hrow | hrow
    · exact hsettled row hrow hkey
    · obtain rfl := mem_singleton.mp hrow
      obtain rfl : id = id' := hkey
      exact absurd ((hsound.claimed r hr).2 id hid).1 hnew
  | settle id target =>
    dsimp only [World.step] at hstep
    split at hstep
    · obtain ⟨⟨-, hterminal, -⟩, hstep⟩ := ite_none_right_eq_some.mp hstep
      cases hstep
      exact fun r hr id' hid => (h r hr id' hid).imp_left fun hold => hold.write fun _ => hterminal
    · cases hstep
  | start =>
    cases hstep
    intro r hr id hid
    rcases mem_append.mp hr with hr | hr
    · exact h r hr id hid
    · obtain rfl := mem_singleton.mp hr
      exact absurd hid not_mem_nil
  | worker i act =>
    obtain ⟨r, hr, hstep⟩ := bind_eq_some_iff.mp hstep
    exact Minded.worker hsound h hr hkeeps hstep

/-- No claimed investigation is stranded, and no replica has more than its share, in every run in
which no task ends before its investigation is settled. -/
theorem none_stranded (maxConcurrent : ℕ) (events : List Event) {w : World}
    (hrun : runs (World.step maxConcurrent) .empty events = some w)
    (hkeeps : Along (World.step maxConcurrent) World.Keeps .empty events) :
    w.NoneStranded ∧ w.Bounded maxConcurrent := by
  have hempty : Sound maxConcurrent .empty := by
    refine ⟨nodup_nil, fun r hr => ?_, fun r hr => ?_, fun j k r hr => ?_, fun r hr => ?_,
      fun r hr => ?_, fun row hrow => ?_⟩
    · exact absurd hr not_mem_nil
    · exact absurd hr not_mem_nil
    · cases hr
    · exact absurd hr not_mem_nil
    · exact absurd hr not_mem_nil
    · exact absurd hrow not_mem_nil
  have hsound : Sound maxConcurrent w :=
    runs_invariant (fun _ _ _ h hs => step_sound h hs) hempty hrun
  have hminded : Minded w := by
    refine runs_keeps_with (I := Minded) (fun _ _ _ h hs => step_sound h hs)
      (fun _ _ _ hsound h hC hs => step_minded hsound h hC hs) ?_ hempty hkeeps hrun
    exact fun r hr => absurd hr not_mem_nil
  exact ⟨hsound.noneStranded hminded, hsound.bounded hminded⟩

/-- Two replicas share the queue; one investigation is cancelled while it runs, and the replicas
are shut down when all is done. -/
def sharedQueue : List Event :=
  [.create "a", .create "b", .create "c", .start, .start, .worker 0 .tick, .worker 0 .select,
    .worker 1 .tick, .worker 1 .select, .worker 0 .commit, .worker 1 .commit, .worker 0 .spawn,
    .worker 1 .spawn, .worker 0 .enter, .worker 1 .enter, .worker 0 .enter,
    .worker 0 (.load "a" true), .worker 0 (.ended "a" false), .worker 0 (.finish "a" true .refused),
    .worker 0 (.fail "a" .unheard), .settle "b" .cancelled, .worker 0 (.load "b" false),
    .worker 1 (.load "c" true), .worker 1 (.ended "c" true), .worker 1 (.fail "c" .written),
    .worker 0 .stop, .worker 1 .stop]

theorem none_stranded_shared :
    ∃ w, runs (World.step 2) .empty sharedQueue = some w ∧ w.NoneStranded ∧ w.Bounded 2 := by
  have hsome : (runs (World.step 2) .empty sharedQueue).isSome = true := by decide
  obtain ⟨w, hw⟩ := isSome_iff_exists.mp hsome
  exact ⟨w, hw, none_stranded 2 sharedQueue hw (by decide)⟩

def interrupted : List Event :=
  [.create "a", .start, .worker 0 .tick, .worker 0 .select, .worker 0 .commit, .worker 0 .spawn,
    .worker 0 .enter, .worker 0 (.load "a" true), .worker 0 .stop]

theorem interrupted_run_stranded :
    ∃ w, runs (World.step 2) .empty interrupted = some w ∧ w.rows = [("a", .planning)] ∧
      ¬w.NoneStranded := by
  have hsome : (runs (World.step 2) .empty interrupted).isSome = true := by decide
  have hfacts : ∀ w ∈ runs (World.step 2) .empty interrupted, w.rows = [("a", .planning)] ∧
      ∀ r ∈ w.replicas, "a" ∉ r.tasks := by
    decide
  obtain ⟨w, hw⟩ := isSome_iff_exists.mp hsome
  obtain ⟨hrows, htasks⟩ := hfacts w hw
  refine ⟨w, hw, hrows, fun h => ?_⟩
  rcases h ("a", .planning) (hrows ▸ mem_singleton_self _) rfl with hqueued | ⟨r, hr, htask⟩
  · cases hqueued
  · exact htasks r hr htask

end OmniSense.Investigations.Replicas
