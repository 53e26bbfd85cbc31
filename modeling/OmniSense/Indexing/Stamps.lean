import OmniSense.Indexing.Handling

/-! When the index-state stamps tell the truth: nothing guards a stamp, so that what it says must
hold of the row that is there when it is written. -/

namespace OmniSense.Indexing

open Library Retrieval List Option State

variable {cfg : Settings} {s s' : State} {signal : Signal} {ops rest : List Op} {op : Op} {t : Task}
  {i : ℕ} {now : ℤ} {column : IndexState}

/-! ## What the stamps say -/

variable (row : SignalRow)

def SignalRow.stamp : IndexState → Option ℤ
  | .keyword => row.indexedKeywordAt
  | .vector => row.indexedVectorAt

def StampsTrue (cfg : Settings) (s : State) : Prop :=
  ∀ row ∈ s.row, ∀ column, (row.stamp column).isSome = true →
    Holds cfg row.signal (s.stored column)

instance (cfg : Settings) (s : State) : Decidable (StampsTrue cfg s) :=
  decidable_of_iff (∀ row ∈ s.row, ∀ column ∈ [IndexState.keyword, .vector],
      (row.stamp column).isSome = true → Holds cfg row.signal (s.stored column)) <| by
    refine forall_congr' fun row => forall_congr' fun _ => forall_congr' fun column => ?_
    exact forall_prop_of_true (by cases column <;> simp)

def Quiet (s : State) : Prop :=
  s.undelivered = 0 ∧ ∀ t ∈ s.tasks, t.role = .handler → t.ops = []

instance (s : State) : Decidable (Quiet s) := inferInstanceAs (Decidable (_ ∧ _))

/-! ## The condition -/

def Fair (cfg : Settings) (s : State) (t : Task) : Op → Prop
  | .load replica => ∀ row ∈ s.row, ∀ column ∈ [IndexState.keyword, .vector],
      leaves cfg replica row.signal column = true → s.stored column = []
  | .write _ _ | .deleteSignal _ => t.generation = s.generation
  | .stamp columns =>
    if t.role = .handler then t.generation = s.generation
    else ∀ row ∈ s.row, ∀ column ∈ columns, Holds cfg row.signal (s.stored column)
  | _ => True

instance (cfg : Settings) (s : State) (t : Task) : (op : Op) → Decidable (Fair cfg s t op)
  | .load replica => inferInstanceAs (Decidable (∀ row ∈ s.row,
      ∀ column ∈ [IndexState.keyword, .vector],
        leaves cfg replica row.signal column = true → s.stored column = []))
  | .write _ _ | .deleteSignal _ => inferInstanceAs (Decidable (t.generation = s.generation))
  | .stamp columns => inferInstanceAs (Decidable (if t.role = .handler then
      t.generation = s.generation
    else ∀ row ∈ s.row, ∀ column ∈ columns, Holds cfg row.signal (s.stored column)))
  | .upsert _ | .publish | .claim | .release | .embed | .backfill _ | .refuse => .isTrue trivial

def Meets (cfg : Settings) (s : State) : Action → Prop
  | .next i _ => ∀ t ∈ s.tasks[i]?, ∀ op ∈ t.ops.head?, Fair cfg s t op
  | .stop i _ reached _ => reached = [] ∨ ∀ t ∈ s.tasks[i]?, ∀ op ∈ t.ops.head?, Fair cfg s t op
  | _ => True

instance (cfg : Settings) (s : State) : (action : Action) → Decidable (Meets cfg s action)
  | .next i _ => inferInstanceAs (Decidable (∀ t ∈ s.tasks[i]?, ∀ op ∈ t.ops.head?, _))
  | .stop i _ reached _ =>
    inferInstanceAs (Decidable (reached = [] ∨ ∀ t ∈ s.tasks[i]?, ∀ op ∈ t.ops.head?, _))
  | .store _ | .deliver _ | .redeliver | .tick => .isTrue trivial

/-! ## The invariant -/

/-- What a task may have before it. A handler whose row was written again may have anything that a
handler does. -/
def TaskOk (cfg : Settings) (s : State) (t : Task) : Prop :=
  match t.role with
  | .store => ∀ op ∈ t.ops, op.isStoring = true
  | .backfill => t.ops = [.claim] ∨ t.ops = [.stamp [.vector], .release] ∨ t.ops = [.release] ∨
      t.ops = []
  | .handler => t.ops = [] ∨ (∃ replica, t.ops = [.load replica]) ∨
      (∀ op ∈ t.ops, op.isHandling = true) ∧ t.generation ≤ s.generation ∧
        (t.generation = s.generation →
          ∃ signal ∈ s.row.map SignalRow.signal, Serves cfg s.stored signal t.ops)

theorem taskOk_store (hrole : t.role = .store) :
    TaskOk cfg s t ↔ ∀ op ∈ t.ops, op.isStoring = true := by
  unfold TaskOk
  rw [hrole]

theorem taskOk_backfill (hrole : t.role = .backfill) :
    TaskOk cfg s t ↔ t.ops = [.claim] ∨ t.ops = [.stamp [.vector], .release] ∨
      t.ops = [.release] ∨ t.ops = [] := by
  unfold TaskOk
  rw [hrole]

theorem taskOk_handler (hrole : t.role = .handler) :
    TaskOk cfg s t ↔ t.ops = [] ∨ (∃ replica, t.ops = [.load replica]) ∨
      (∀ op ∈ t.ops, op.isHandling = true) ∧ t.generation ≤ s.generation ∧
        (t.generation = s.generation →
          ∃ signal ∈ s.row.map SignalRow.signal, Serves cfg s.stored signal t.ops) := by
  unfold TaskOk
  rw [hrole]

theorem taskOk_nil (hops : t.ops = []) : TaskOk cfg s t := by
  cases hrole : t.role with
  | store => exact (taskOk_store hrole).mpr fun op hop => by rw [hops] at hop; cases hop
  | handler => exact (taskOk_handler hrole).mpr (.inl hops)
  | backfill => exact (taskOk_backfill hrole).mpr (.inr (.inr (.inr hops)))

structure Sound (cfg : Settings) (s : State) : Prop where
  versions : ∀ e ∈ s.keyword, ∃ signal ∈ s.row.map SignalRow.signal, e.version ≤ signal.version
  tasks : ∀ t ∈ s.tasks, TaskOk cfg s t
  stamps : StampsTrue cfg s

theorem textOf_eq : row.textOf = "" := by
  -- No column of the table has one of the names that the backfill looks for.
  have hnone : ["clean_text", "text", "content", "title"].filterMap row.attribute = [] := by
    simp [SignalRow.attribute]
  unfold SignalRow.textOf
  rw [hnone]
  rfl

theorem claimed_eq : claimed row = [.stamp [.vector], .release] :=
  if_pos (textOf_eq row)

/-! ## Steps -/

theorem effect_unreached : s.effect cfg now (some []) op = s := by
  cases op with
  | write store batch | deleteSignal store =>
    cases store <;> simp [effect, withStored, stored]
  | backfill text =>
    unfold effect
    dsimp only
    split
    · rfl
    · exact if_pos rfl
  | _ => rfl

theorem TaskOk.mono (hrow : s'.row.map SignalRow.signal = s.row.map SignalRow.signal)
    (hgeneration : s'.generation = s.generation)
    (hreaches : ∀ signal ∈ s.row.map SignalRow.signal, ∀ column pending,
      Reaches cfg signal s.stored pending column → Reaches cfg signal s'.stored pending column)
    (h : TaskOk cfg s t) : TaskOk cfg s' t := by
  unfold TaskOk at h ⊢
  split at h
  · exact h
  · exact h
  · refine h.imp_right (Or.imp_right fun ⟨hhandling, hle, hfresh⟩ => ?_)
    rw [hrow, hgeneration]
    refine ⟨hhandling, hle, fun hgen => ?_⟩
    obtain ⟨signal, hsignal, hserves⟩ := hfresh hgen
    exact ⟨signal, hsignal, hserves.legit,
      @Backed.step cfg signal _ _ t.ops [] [] (hreaches signal hsignal) hserves.backed⟩

theorem TaskOk.fresh (h : TaskOk cfg s t) (hrole : t.role = .handler) (hops : t.ops = op :: rest)
    (hhandling : op.isHandling = true) (hgeneration : t.generation = s.generation) :
    ∃ signal ∈ s.row.map SignalRow.signal, Serves cfg s.stored signal (op :: rest) := by
  rw [taskOk_handler hrole, hops] at h
  rcases h with h | ⟨replica, h⟩ | ⟨-, -, hfresh⟩
  · cases h
  · obtain rfl := (List.cons.inj h).1
    cases hhandling
  · exact hfresh hgeneration

theorem TaskOk.handler (h : TaskOk cfg s t) (hops : t.ops = op :: rest)
    (hwrites : ∀ columns, op ≠ .stamp columns) (hhandling : op.isHandling = true) :
    t.role = .handler := by
  cases hrole : t.role with
  | handler => rfl
  | store =>
    have hstoring := (taskOk_store hrole).mp h op (hops ▸ mem_cons_self)
    rw [not_isHandling hstoring] at hhandling
    cases hhandling
  | backfill =>
    rw [taskOk_backfill hrole, hops] at h
    rcases h with h | h | h | h
    · obtain rfl := (List.cons.inj h).1
      cases hhandling
    · exact absurd (List.cons.inj h).1 (hwrites _)
    · obtain rfl := (List.cons.inj h).1
      cases hhandling
    · cases h

theorem upsert_sound (h : Sound cfg s) : Sound cfg (s.upsert signal now) := by
  -- The row is new: its columns are NULL, and what the handlers loaded is old.
  have hnew : ∀ createdAt, (∀ row ∈ s.row, row.signal.version ≤ signal.version) →
      Sound cfg { s with
        row := some ⟨signal, createdAt, none, none⟩, generation := s.generation + 1 } := by
    intro createdAt hversion
    refine ⟨fun e he => ?_, fun t ht => ?_, ?_⟩
    · obtain ⟨signal', hsignal', hle⟩ := h.versions e he
      obtain ⟨row, hrow, rfl⟩ := mem_map.mp hsignal'
      exact ⟨signal, rfl, hle.trans (hversion row hrow)⟩
    · have hok := h.tasks t ht
      unfold TaskOk at hok ⊢
      split at hok
      · exact hok
      · exact hok
      · refine hok.imp_right (Or.imp_right fun ⟨hhandling, hle, _⟩ => ⟨hhandling, ?_, ?_⟩)
        · exact hle.trans (Nat.le_succ _)
        · exact fun hgen => absurd hgen (Nat.lt_succ_of_le hle).ne
    · rintro _ ⟨⟩ column hstamp
      cases column <;> cases hstamp
  unfold upsert
  split
  · next hrow => exact hnew now fun row h => by rw [hrow] at h; cases h
  · next row hrow =>
    split_ifs with hversion
    · refine hnew row.createdAt fun row' h => ?_
      rw [hrow] at h
      cases h
      exact hversion
    · exact h

theorem stamp_sound (h : Sound cfg s) {columns : List IndexState}
    (hholds : ∀ row ∈ s.row, ∀ column ∈ columns, Holds cfg row.signal (s.stored column)) :
    Sound cfg (s.stamp columns now) := by
  have hrow : (s.stamp columns now).row.map SignalRow.signal = s.row.map SignalRow.signal := by
    unfold stamp
    rw [Option.map_map]
    rfl
  refine ⟨fun e he => hrow ▸ h.versions e he,
    fun t ht => (h.tasks t ht).mono hrow rfl fun _ _ _ _ h => h, fun row hmem column hstamp => ?_⟩
  obtain ⟨row', hrow', rfl⟩ := mem_map.mp hmem
  by_cases hcolumn : column ∈ columns
  · exact hholds row' hrow' column hcolumn
  · refine h.stamps row' hrow' column ?_
    cases column <;> simpa [SignalRow.stamp, hcolumn] using hstamp

theorem request_sound (h : Sound cfg s) {reached : Option (List ℕ)}
    (hsignal : signal ∈ s.row.map SignalRow.signal)
    (hrow : (s.effect cfg now reached op).row = s.row)
    (hgeneration : (s.effect cfg now reached op).generation = s.generation)
    (htasks : (s.effect cfg now reached op).tasks = s.tasks)
    (hkeeps : (∀ e ∈ s.keyword, e.version ≤ signal.version) →
      (∀ e ∈ (s.effect cfg now reached op).keyword, e.version ≤ signal.version) ∧
      ∀ column pending, Reaches cfg signal s.stored pending column →
        Reaches cfg signal (s.effect cfg now reached op).stored pending column) :
    Sound cfg (s.effect cfg now reached op) := by
  -- A handler's request to a store, from the row that is there.
  have hone : ∀ signal' ∈ s.row.map SignalRow.signal, signal' = signal :=
    fun signal' h => mem_unique h hsignal
  obtain ⟨hversions, hreaches⟩ := hkeeps fun e he => by
    obtain ⟨signal', hsignal', hle⟩ := h.versions e he
    exact hone signal' hsignal' ▸ hle
  refine ⟨fun e he => ⟨signal, hrow ▸ hsignal, hversions e he⟩, fun t ht => ?_,
    fun row hmem column hstamp => ?_⟩
  · refine (h.tasks t (htasks ▸ ht)).mono (by rw [hrow]) hgeneration fun signal' hsignal' => ?_
    rw [hone signal' hsignal']
    exact hreaches
  · rw [hrow] at hmem
    have hsame := hone row.signal (mem_map_of_mem _ hmem)
    have hheld := h.stamps row hmem column hstamp
    rw [hsame] at hheld ⊢
    exact reaches_nil.mp (hreaches column [] (reaches_nil.mpr hheld))

theorem TaskOk.not_backfill {text : String} (h : TaskOk cfg s t) : t.ops ≠ .backfill text :: rest := by
  intro hops
  cases hrole : t.role with
  | store =>
    have hstoring := (taskOk_store hrole).mp h _ (hops ▸ mem_cons_self)
    cases hstoring
  | handler =>
    rw [taskOk_handler hrole, hops] at h
    rcases h with h | ⟨replica, h⟩ | ⟨hhandling, -⟩
    · cases h
    · cases h
    · cases hhandling _ mem_cons_self
  | backfill =>
    rw [taskOk_backfill hrole, hops] at h
    rcases h with h | h | h | h <;> cases h

theorem effect_sound (h : Sound cfg s) (ht : t ∈ s.tasks) (hops : t.ops = op :: rest)
    {reached : Option (List ℕ)} (hfair : reached = some [] ∨ Fair cfg s t op) :
    Sound cfg (s.effect cfg now reached op) := by
  have hok := h.tasks t ht
  rcases eq_or_ne reached (some []) with rfl | hreached
  · rw [effect_unreached]
    exact h
  replace hfair := hfair.resolve_left hreached
  cases op with
  | upsert signal =>
    dsimp only [effect]
    rw [if_neg hreached]
    exact upsert_sound h
  | publish =>
    dsimp only [effect]
    rw [if_neg hreached]
    exact ⟨h.versions, h.tasks, h.stamps⟩
  | load | claim | release | embed | refuse => exact h
  | backfill text => exact absurd hops hok.not_backfill
  | write store batch =>
    have hrole := hok.handler hops nofun rfl
    obtain ⟨signal, hsignal, hserves⟩ := hok.fresh hrole hops rfl hfair
    have hlegit := hserves.legit _ mem_cons_self
    refine request_sound h hsignal ?_ ?_ ?_ fun hversions =>
      (write_keeps hversions hlegit).imp_right fun hkeeps column pending =>
        (hkeeps column pending).1
    all_goals cases store <;> rfl
  | deleteSignal store =>
    have hrole := hok.handler hops nofun rfl
    obtain ⟨signal, hsignal, hserves⟩ := hok.fresh hrole hops rfl hfair
    have hlegit := hserves.legit _ mem_cons_self
    refine request_sound h hsignal ?_ ?_ ?_ fun hversions =>
      (delete_keeps hversions hlegit).imp_right fun hkeeps column pending =>
        (hkeeps column pending).1
    all_goals cases store <;> rfl
  | stamp columns =>
    dsimp only [effect]
    rw [if_neg hreached]
    refine stamp_sound h fun row hrow column hcolumn => ?_
    by_cases hrole : t.role = .handler
    · have hgeneration : t.generation = s.generation := by
        dsimp only [Fair] at hfair
        rwa [if_pos hrole] at hfair
      obtain ⟨signal, hsignal, hserves⟩ := hok.fresh hrole hops rfl hgeneration
      obtain ⟨row', hrow', rfl⟩ := mem_map.mp hsignal
      obtain rfl := mem_unique hrow hrow'
      exact reaches_nil.mp (hserves.backed.1 column hcolumn)
    · dsimp only [Fair] at hfair
      rw [if_neg hrole] at hfair
      exact hfair row hrow column hcolumn

theorem effect_tasks {reached : Option (List ℕ)} :
    (s.effect cfg now reached op).tasks = s.tasks := by
  cases op with
  | upsert signal =>
    dsimp only [effect, upsert]
    split_ifs
    · rfl
    · split
      · rfl
      · split_ifs <;> rfl
  | publish | stamp =>
    dsimp only [effect]
    split_ifs <;> rfl
  | write store batch | deleteSignal store => cases store <;> rfl
  | backfill text =>
    dsimp only [effect]
    split
    · rfl
    · split_ifs <;> rfl
  | _ => rfl

theorem effect_handling {reached : Option (List ℕ)} (hhandling : op.isHandling = true) :
    (s.effect cfg now reached op).row.map SignalRow.signal = s.row.map SignalRow.signal ∧
      (s.effect cfg now reached op).generation = s.generation := by
  -- A handler's call leaves the row and how often it was written, or it stamps.
  cases op with
  | write store batch | deleteSignal store => cases store <;> exact ⟨rfl, rfl⟩
  | stamp columns =>
    dsimp only [effect]
    split_ifs
    · exact ⟨rfl, rfl⟩
    · refine ⟨?_, rfl⟩
      unfold stamp
      rw [Option.map_map]
      rfl
  | embed | refuse => exact ⟨rfl, rfl⟩
  | _ => cases hhandling

theorem continued_handling (hhandling : op.isHandling = true) :
    s.continued cfg now t op rest = { t with ops := rest } := by
  cases op <;> first | rfl | cases hhandling

theorem continued_ok (h : Sound cfg s) (ht : t ∈ s.tasks) (hops : t.ops = op :: rest)
    (hfair : Fair cfg s t op) :
    TaskOk cfg (s.effect cfg now none op) (s.continued cfg now t op rest) := by
  have hok := h.tasks t ht
  cases hrole : t.role with
  | store =>
    rw [taskOk_store hrole, hops] at hok
    obtain ⟨hop, hrest⟩ := forall_mem_cons.mp hok
    have hcontinued : s.continued cfg now t op rest = { t with ops := rest } := by
      cases op <;> first | rfl | cases hop
    rw [hcontinued]
    exact (taskOk_store (t := { t with ops := rest }) hrole).mpr hrest
  | backfill =>
    rw [taskOk_backfill hrole, hops] at hok
    rcases hok with hok | hok | hok | hok
    · obtain ⟨rfl, rfl⟩ := List.cons.inj hok
      -- The row is claimed, or there is none to claim.
      cases hrow : s.row with
      | none =>
        have hcontinued : s.continued cfg now t .claim [] = { t with ops := [] } := by
          dsimp only [continued]
          rw [hrow]
        rw [hcontinued]
        exact taskOk_nil rfl
      | some row =>
        dsimp only [continued]
        rw [hrow]
        dsimp only
        split_ifs
        · refine (taskOk_backfill (t := { t with ops := claimed row, locking := true }) hrole).mpr
            (.inr (.inl ?_))
          exact claimed_eq row
        · exact taskOk_nil rfl
    · obtain ⟨rfl, rfl⟩ := List.cons.inj hok
      exact (taskOk_backfill (t := { t with ops := [.release] }) hrole).mpr (.inr (.inr (.inl rfl)))
    · obtain ⟨rfl, rfl⟩ := List.cons.inj hok
      exact taskOk_nil rfl
    · cases hok
  | handler =>
    rw [taskOk_handler hrole, hops] at hok
    rcases hok with hok | ⟨replica, hok⟩ | ⟨hhandling, hle, hfresh⟩
    · cases hok
    · obtain ⟨rfl, rfl⟩ := List.cons.inj hok
      cases hrow : s.row with
      | none =>
        have hcontinued : s.continued cfg now t (.load replica) [] = { t with ops := [] } := by
          dsimp only [continued]
          rw [hrow]
        rw [hcontinued]
        exact taskOk_nil rfl
      | some row =>
        have hcontinued : s.continued cfg now t (.load replica) [] =
            { t with ops := handle cfg replica row.signal, generation := s.generation
                     loaded := some row.signal } := by
          dsimp only [continued]
          rw [hrow]
        rw [hcontinued]
        obtain ⟨hhandling, hserves⟩ := @handle_serves cfg row.signal s.stored replica
          fun column => hfair row hrow column (by cases column <;> simp)
        have hfresh : ∃ signal ∈ s.row.map SignalRow.signal,
            Serves cfg s.stored signal (handle cfg replica row.signal) :=
          ⟨row.signal, hrow ▸ rfl, hserves⟩
        exact (taskOk_handler (t := { t with ops := handle cfg replica row.signal
                                             generation := s.generation
                                             loaded := some row.signal }) hrole).mpr
          (.inr (.inr ⟨hhandling, le_refl s.generation, fun _ => hfresh⟩))
    · obtain ⟨hop, hrest⟩ := forall_mem_cons.mp hhandling
      obtain ⟨hrow, hgeneration⟩ := @effect_handling cfg s _ now none hop
      rw [continued_handling hop]
      refine (taskOk_handler (t := { t with ops := rest }) hrole).mpr
        (.inr (.inr ⟨hrest, hle.trans hgeneration.ge, fun hgen => ?_⟩))
      obtain ⟨signal, hsignal, hserves⟩ := hfresh (hgen.trans hgeneration)
      refine ⟨signal, hrow.symm ▸ hsignal, served hserves hop fun e he => ?_⟩
      obtain ⟨signal', hsignal', hle⟩ := h.versions e he
      exact mem_unique hsignal hsignal' ▸ hle

theorem start_sound : Sound cfg start where
  versions := fun _ he => absurd he not_mem_nil
  tasks := fun _ ht => absurd ht not_mem_nil
  stamps := fun _ hrow => absurd hrow (not_mem_none _)

theorem Sound.spawn (h : Sound cfg s) {role : Role} (hok : TaskOk cfg s ⟨role, ops, false, 0, none⟩) :
    Sound cfg (s.spawn role ops) := by
  refine ⟨h.versions, fun t ht => ?_, h.stamps⟩
  rcases mem_append.mp ht with ht | ht
  · exact h.tasks t ht
  · obtain rfl := mem_singleton.mp ht
    exact hok

theorem Sound.set (h : Sound cfg s) (n : ℕ) (hok : TaskOk cfg s t) :
    Sound cfg { s with undelivered := n, tasks := s.tasks.set i t } := by
  refine ⟨h.versions, fun t' ht' => ?_, h.stamps⟩
  rcases mem_or_eq_of_mem_set ht' with ht' | rfl
  · exact h.tasks t' ht'
  · exact hok

theorem step_sound (s : State) (action : Action) (s' : State) (h : Sound cfg s)
    (hmeets : Meets cfg s action) (hstep : s.step cfg action = some s') : Sound cfg s' := by
  cases action with
  | store signal =>
    cases hstep
    refine h.spawn ((taskOk_store (t := ⟨.store, storeApply signal, false, 0, none⟩) rfl).mpr ?_)
    intro op hop
    simp only [storeApply, mem_cons, not_mem_nil, or_false] at hop
    rcases hop with rfl | rfl <;> rfl
  | deliver replica =>
    dsimp only [step] at hstep
    split_ifs at hstep
    cases hstep
    have hless : Sound cfg { s with undelivered := s.undelivered - 1 } :=
      ⟨h.versions, h.tasks, h.stamps⟩
    exact hless.spawn ((taskOk_handler (t := ⟨.handler, [.load replica], false, 0, none⟩) rfl).mpr
      (.inr (.inl ⟨replica, rfl⟩)))
  | redeliver =>
    cases hstep
    exact ⟨h.versions, h.tasks, h.stamps⟩
  | tick =>
    cases hstep
    exact h.spawn ((taskOk_backfill (t := ⟨.backfill, [.claim], false, 0, none⟩) rfl).mpr
      (.inl rfl))
  | next i now =>
    dsimp only [step] at hstep
    split at hstep
    · next t ht =>
      split at hstep
      · next op rest hops =>
        split_ifs at hstep
        cases hstep
        have hmem := mem_of_getElem? ht
        have hfair := hmeets t ht op (hops ▸ rfl)
        have hafter := @effect_sound cfg s rest op t now h hmem hops none (.inr hfair)
        rw [← @effect_tasks cfg s op now none]
        exact hafter.set _ (continued_ok h hmem hops hfair)
      · cases hstep
    · cases hstep
  | stop i now reached again =>
    dsimp only [step] at hstep
    split at hstep
    · next t ht =>
      split at hstep
      · next op rest hops =>
        cases hstep
        have hfair : some reached = some [] ∨ Fair cfg s t op :=
          hmeets.imp (congrArg some) fun hall => hall t ht op (hops ▸ rfl)
        have hafter := @effect_sound cfg s rest op t now h (mem_of_getElem? ht) hops _ hfair
        rw [← @effect_tasks cfg s op now (some reached)]
        exact hafter.set _ (taskOk_nil rfl)
      · cases hstep
    · cases hstep

/-- The stamps of the row tell the truth, quiet or not. -/
theorem stamps_true (cfg : Settings) (actions : List Action) (s : State)
    (hmeets : Along (step cfg) (Meets cfg) start actions)
    (hrun : runs (step cfg) start actions = some s) : StampsTrue cfg s :=
  (runs_keeps step_sound start_sound hmeets hrun).stamps

def sampleSettings : Settings where
  lower := id
  maxCharsPerChunk := 40
  chunkOverlapChars := 4
  bulkBatchSize := 2
  upsertBatchSize := 2
  rowLocks := true
  backfillUpsert := none

def sampleSignal (text : String) (version : ℕ) : Signal where
  title := none
  text := text.toList
  source := .social
  status := .raw
  duplicateOf := none
  failedStages := false
  embeddings := true
  version := version

def storedAndHandled (task : ℕ) (text : String) (version : ℕ) (calls : ℕ) : List Action :=
  [.store (sampleSignal text version), .next task 0, .next task 0, .deliver ⟨true, true, true⟩] ++
    List.replicate calls (.next (task + 1) 200)

/-- A revision is indexed, and while the row is locked by nobody a tick finds it stamped. -/
theorem stamps_true_revised : ∃ s, runs (step sampleSettings) start
      (storedAndHandled 0 "one" 1 6 ++ storedAndHandled 2 "two" 2 6 ++ [.tick, .next 4 400]) =
        some s ∧ StampsTrue sampleSettings s := by
  have hsome : (runs (step sampleSettings) start
      (storedAndHandled 0 "one" 1 6 ++ storedAndHandled 2 "two" 2 6 ++
        [.tick, .next 4 400])).isSome = true := by decide
  obtain ⟨s, hs⟩ := isSome_iff_exists.mp hsome
  exact ⟨s, hs, stamps_true _ _ s (by decide) hs⟩

/-- A revision without text is stamped and nothing else, with the old chunks still in the stores;
nothing else was under way. -/
theorem emptied_revision_stamped : ∃ s, runs (step sampleSettings) start
      (storedAndHandled 0 "one" 1 6 ++ storedAndHandled 2 "" 2 2) = some s ∧ Quiet s ∧
        ¬ StampsTrue sampleSettings s := by
  have hsome : (runs (step sampleSettings) start
      (storedAndHandled 0 "one" 1 6 ++ storedAndHandled 2 "" 2 2)).isSome = true := by
    decide
  have hall : ∀ s ∈ runs (step sampleSettings) start
      (storedAndHandled 0 "one" 1 6 ++ storedAndHandled 2 "" 2 2),
        Quiet s ∧ ¬ StampsTrue sampleSettings s := by
    decide
  obtain ⟨s, hs⟩ := isSome_iff_exists.mp hsome
  exact ⟨s, hs, hall s hs⟩

end OmniSense.Indexing
