import OmniSense.Events.Consumer
import OmniSense.Library.Logs

/-! Offsets and unresolved work: over any run of cycles neither the fetch position nor the
committed offset of a partition passes a record that was not handled, parked or skipped. -/

namespace OmniSense.Events

open Library List State

/-! ## Seeking -/

namespace State

variable (target : TopicPartition × List Record → Option ℕ) (batch : Batch) (s : State)

theorem seekEach_cons (entry : TopicPartition × List Record) :
    s.seekEach target (entry :: batch) =
      seekEach target batch (match target entry with
        | none => s
        | some offset => s.seek entry.1 offset) := rfl

theorem seekEach_eq :
    s.seekEach target batch = { s with position := (s.seekEach target batch).position } := by
  induction batch generalizing s with
  | nil => rfl
  | cons entry batch ih =>
    rw [seekEach_cons, ih]
    cases target entry <;> rfl

@[simp] theorem seekEach_committed : (s.seekEach target batch).committed = s.committed := by
  rw [seekEach_eq]

@[simp] theorem seekEach_trail : (s.seekEach target batch).trail = s.trail := by
  rw [seekEach_eq]

theorem seek_position_self (tp : TopicPartition) (offset : ℕ) :
    (s.seek tp offset).position tp = offset := by simp [seek]

theorem seek_position_ne {tp tp' : TopicPartition} (h : tp' ≠ tp) (offset : ℕ) :
    (s.seek tp offset).position tp' = s.position tp' := by simp [seek, h]

theorem seekEach_position_ne {tp : TopicPartition} (h : ∀ entry ∈ batch, entry.1 ≠ tp) :
    (s.seekEach target batch).position tp = s.position tp := by
  induction batch generalizing s with
  | nil => rfl
  | cons entry batch ih =>
    obtain ⟨hentry, hbatch⟩ := forall_mem_cons.mp h
    rw [seekEach_cons, ih _ hbatch]
    cases target entry
    · rfl
    · exact s.seek_position_ne hentry.symm _

theorem seekEach_position (hnodup : (batch.map Prod.fst).Nodup) {entry : TopicPartition × List Record}
    (hmem : entry ∈ batch) :
    (s.seekEach target batch).position entry.1 = (target entry).getD (s.position entry.1) := by
  induction batch generalizing s with
  | nil => simp at hmem
  | cons head batch ih =>
    obtain ⟨hhead, hbatch⟩ := nodup_cons.mp (map_cons .. ▸ hnodup)
    have hfresh : ∀ e ∈ batch, e.1 ≠ head.1 := fun e he heq =>
      hhead (heq ▸ mem_map_of_mem he)
    rw [seekEach_cons]
    rcases mem_cons.mp hmem with rfl | hmem
    · rw [seekEach_position_ne _ _ _ hfresh]
      cases target entry
      · rfl
      · exact s.seek_position_self _ _
    · rw [ih _ hbatch hmem]
      cases target head
      · rfl
      · exact congrArg _ (s.seek_position_ne (hfresh entry hmem) _)

end State

theorem rewind_committed (s : State) (batch : Batch) (commits : Commits) :
    (rewind s batch commits).committed = s.committed := seekEach_committed _ _ _

theorem rewind_trail (s : State) (batch : Batch) (commits : Commits) :
    (rewind s batch commits).trail = s.trail := seekEach_trail _ _ _

/-! ## What the trail settles -/

variable (log : Set Record)

def partitionLog (tp : TopicPartition) : Set Record := {r | r ∈ log ∧ r.tp = tp}

variable (trail : List (Record × Resolution))

def resolvedIn : Set Record := {r | ∃ how, (r, how) ∈ trail}

theorem resolvedIn_mono {trail trail' : List (Record × Resolution)} (h : trail <+: trail') :
    resolvedIn trail ⊆ resolvedIn trail' := fun _ ⟨how, hr⟩ => ⟨how, h.subset hr⟩

abbrev SettledIn (tp : TopicPartition)
    (o : ℕ) : Prop := Settled Record.offset (partitionLog log tp) (resolvedIn trail) o

theorem SettledIn.grow {log : Set Record} {trail trail' : List (Record × Resolution)}
    {tp : TopicPartition} {o : ℕ} (h : SettledIn log trail tp o) (hgrow : trail <+: trail') :
    SettledIn log trail' tp o := h.mono (resolvedIn_mono hgrow) le_rfl

def InOrder : Prop :=
  ∀ before r how after, trail = before ++ (r, how) :: after →
    SettledIn log before r.tp r.offset

theorem InOrder.snoc {log : Set Record} {trail : List (Record × Resolution)} {r : Record}
    {how : Resolution} (h : InOrder log trail) (hr : SettledIn log trail r.tp r.offset) :
    InOrder log (trail ++ [(r, how)]) := by
  intro before r' how' after heq
  rcases eq_nil_or_concat after with rfl | ⟨after, last, rfl⟩
  · obtain ⟨rfl, hlast⟩ := append_inj' heq rfl
    obtain ⟨rfl, -⟩ := Prod.mk.inj (singleton_inj.mp hlast)
    exact hr
  · rw [concat_eq_append, ← cons_append, ← append_assoc] at heq
    exact h before r' how' after (append_inj' heq rfl).1

def SkipsOnlyDlq (cfg : ConsumerConfig) (trail : List (Record × Resolution)) : Prop :=
  ∀ r, (r, .skipped) ∈ trail → cfg.roleForTopic r.tp.topic = some .dlq

theorem park_skipped {cfg : ConsumerConfig} {r : Record} {envelope : Option EventEnvelope}
    {error : ErrorChain} {attempts : ℕ} {publish : CallOutcome} {routed : Bool}
    (h : park cfg r envelope error attempts publish = .advance .skipped routed) :
    cfg.roleForTopic r.tp.topic = some .dlq := by
  unfold park at h
  split_ifs at h with henabled hrole
  · exact hrole
  · cases publish <;> simp at h

theorem handleRecord_skipped {cfg : ConsumerConfig} {r : Record} {world : Faults} {routed : Bool}
    (h : handleRecord cfg r world = .advance .skipped routed) :
    cfg.roleForTopic r.tp.topic = some .dlq := by
  unfold handleRecord at h
  split at h
  · exact park_skipped h
  · split_ifs at h
    · split at h
      · simp at h
      · exact park_skipped h
      · simp at h
    · exact park_skipped h

structure Sound (cfg : ConsumerConfig) (log : Set Record) (s : State) : Prop where
  position : ∀ tp, SettledIn log s.trail tp (s.position tp)
  committed : ∀ tp, ∀ o ∈ s.committed tp, SettledIn log s.trail tp o
  order : InOrder log s.trail
  skipped : SkipsOnlyDlq cfg s.trail

/-! ## One partition -/

section

variable {cfg : ConsumerConfig} {log : Set Record} {world : Record → Faults}

/-- What draining does to the trail: it only grows, in order, and `c'` keeps the offsets. -/
structure Extends (cfg : ConsumerConfig) (log : Set Record) (s s' : State) : Prop where
  committed : s'.committed = s.committed
  grows : s.trail <+: s'.trail
  order : InOrder log s'.trail
  skipped : SkipsOnlyDlq cfg s'.trail

theorem Extends.trans {s₁ s₂ s₃ : State} (h : Extends cfg log s₁ s₂) (h' : Extends cfg log s₂ s₃) :
    Extends cfg log s₁ s₃ :=
  ⟨h'.committed.trans h.committed, h.grows.trans h'.grows, h'.order, h'.skipped⟩

structure DrainsPartition (cfg : ConsumerConfig) (log : Set Record) (tp : TopicPartition)
    (records : List Record) (c : Cycle) (out : Cycle × Option ℕ × PartitionEnd) : Prop where
  ext : Extends cfg log c.state out.1.state
  position : out.1.state.position = c.state.position
  commits : out.1.commits = c.commits
  next : ∀ o ∈ out.2.1, SettledIn log out.1.state.trail tp o
  exhausted : out.2.2 = .exhausted → ∀ r ∈ records, r ∈ resolvedIn out.1.state.trail
  blocked : ∀ r behind, out.2.2 = .blocked r behind →
    r ∈ records ∧ SettledIn log out.1.state.trail tp r.offset

theorem drainPartition_spec {tp : TopicPartition} {start : ℕ} (pre : List Record)
    {records : List Record} {c : Cycle} {next : Option ℕ}
    (hrun : Stretch Record.offset (partitionLog log tp) start (pre ++ records))
    (hstart : SettledIn log c.state.trail tp start)
    (hpre : ∀ r ∈ pre, r ∈ resolvedIn c.state.trail) (hord : InOrder log c.state.trail)
    (hskip : SkipsOnlyDlq cfg c.state.trail) (hnext : ∀ o ∈ next, SettledIn log c.state.trail tp o) :
    DrainsPartition cfg log tp records c (drainPartition cfg world records c next) := by
  have hself : Extends cfg log c.state c.state := ⟨rfl, prefix_rfl, hord, hskip⟩
  induction records generalizing pre c next with
  | nil => exact ⟨hself, rfl, rfl, hnext, by simp, by simp [drainPartition]⟩
  | cons r records ih =>
    have hr : SettledIn log c.state.trail tp r.offset := hstart.next pre hrun hpre
    have hmem := hrun.mem r (by simp)
    have htp : r.tp = tp := hmem.1.2
    unfold drainPartition
    cases hv : handleRecord cfg r (world r) with
    | raised => exact ⟨hself, rfl, rfl, hnext, by simp, by simp⟩
    | block routed =>
      refine ⟨hself, rfl, rfl, hnext, by simp, ?_⟩
      intro r' behind h
      obtain ⟨rfl, -⟩ := PartitionEnd.blocked.inj h
      exact ⟨mem_cons_self .., hr⟩
    | advance how routed =>
      -- The trail with this record on it, before the rest of the partition.
      have hgrow : c.state.trail <+: c.state.trail ++ [(r, how)] := prefix_append _ _
      have hdone : r ∈ resolvedIn (c.state.trail ++ [(r, how)]) := ⟨how, by simp⟩
      have hpre' : ∀ a ∈ pre, a ∈ resolvedIn (c.state.trail ++ [(r, how)]) :=
        fun a ha => resolvedIn_mono hgrow (hpre a ha)
      have hord' : InOrder log (c.state.trail ++ [(r, how)]) := hord.snoc (htp ▸ hr)
      have hskip' : SkipsOnlyDlq cfg (c.state.trail ++ [(r, how)]) := by
        intro r' hr'
        rcases mem_append.mp hr' with hr' | hr'
        · exact hskip r' hr'
        · obtain ⟨rfl, rfl⟩ := Prod.mk.inj (mem_singleton.mp hr')
          exact handleRecord_skipped hv
      have hrest := @ih (pre ++ [r])
        { c with
          state := { c.state with trail := c.state.trail ++ [(r, how)] }
          handled := c.handled + 1
          dlqRouted := c.dlqRouted + routed.toNat }
        (some (r.offset + 1))
        (by simpa using hrun) (hstart.grow hgrow)
        (by
          intro a ha
          rcases mem_append.mp ha with ha | ha
          · exact hpre' a ha
          · exact mem_singleton.mp ha ▸ hdone)
        hord' hskip'
        (by
          intro o ho
          cases ho
          exact (hstart.grow hgrow).after hrun hpre' hdone)
        ⟨rfl, prefix_rfl, hord', hskip'⟩
      have hstep : Extends cfg log c.state
          { c.state with trail := c.state.trail ++ [(r, how)] } := ⟨rfl, hgrow, hord', hskip'⟩
      refine ⟨hstep.trans hrest.ext, hrest.position, hrest.commits, hrest.next, ?_, ?_⟩
      · intro hend a ha
        rcases mem_cons.mp ha with rfl | ha
        · exact resolvedIn_mono hrest.ext.grows hdone
        · exact hrest.exhausted hend a ha
      · intro r' behind hend
        obtain ⟨hin, hsettled⟩ := hrest.blocked r' behind hend
        exact ⟨mem_cons_of_mem _ hin, hsettled⟩

/-! ## One batch -/

structure DrainsBatch (cfg : ConsumerConfig) (log : Set Record) (batch : Batch) (c : Cycle)
    (out : Cycle × Bool) : Prop where
  ext : Extends cfg log c.state out.1.state
  commits : ∀ tp, ∀ o ∈ out.1.commits.lookup tp, SettledIn log out.1.state.trail tp o
  elsewhere : ∀ tp, (∀ entry ∈ batch, entry.1 = tp → entry.2 = []) →
    out.1.state.position tp = c.state.position tp
  position : out.2 = false → ∀ entry ∈ batch,
    SettledIn log out.1.state.trail entry.1 (out.1.state.position entry.1)

theorem noteCommit_state (c : Cycle) (tp : TopicPartition) (next : Option ℕ) :
    (c.noteCommit tp next).state = c.state := by cases next <;> rfl

theorem noteCommit_lookup {c : Cycle} {tp tp' : TopicPartition} {next : Option ℕ} {o : ℕ}
    (h : o ∈ (c.noteCommit tp next).commits.lookup tp') :
    (tp' = tp ∧ o ∈ next) ∨ o ∈ c.commits.lookup tp' := by
  cases next with
  | none => exact .inr h
  | some offset =>
    by_cases htp : tp' = tp
    · subst htp
      refine .inl ⟨rfl, ?_⟩
      rwa [Cycle.noteCommit, AList.lookup_insert] at h
    · rw [Cycle.noteCommit, AList.lookup_insert_ne htp] at h
      exact .inr h

theorem drainBatch_spec (start : TopicPartition → ℕ) {batch : Batch} {c : Cycle}
    (hnodup : (batch.map Prod.fst).Nodup)
    (hrun : ∀ entry ∈ batch,
      Stretch Record.offset (partitionLog log entry.1) (start entry.1) entry.2)
    (hstart : ∀ entry ∈ batch, SettledIn log c.state.trail entry.1 (start entry.1))
    (hfetched : ∀ entry ∈ batch, c.state.position entry.1 =
      (entry.2.getLast?.map fun last => last.offset + 1).getD (start entry.1))
    (hord : InOrder log c.state.trail) (hskip : SkipsOnlyDlq cfg c.state.trail)
    (hcommits : ∀ tp, ∀ o ∈ c.commits.lookup tp, SettledIn log c.state.trail tp o) :
    DrainsBatch cfg log batch c (drainBatch cfg world batch c) := by
  induction batch generalizing c with
  | nil => exact ⟨⟨rfl, prefix_rfl, hord, hskip⟩, hcommits, fun _ _ => rfl, by simp⟩
  | cons entry rest ih =>
    obtain ⟨tp, records⟩ := entry
    obtain ⟨hhead, hnodup⟩ := nodup_cons.mp (map_cons .. ▸ hnodup)
    have hother : ∀ e ∈ rest, e.1 ≠ tp := fun e he heq =>
      hhead (mem_map.mpr ⟨e, he, heq⟩)
    obtain ⟨hrun₁, hrun⟩ := forall_mem_cons.mp hrun
    obtain ⟨hstart₁, hstart⟩ := forall_mem_cons.mp hstart
    obtain ⟨hfetched₁, hfetched⟩ := forall_mem_cons.mp hfetched
    have hd : DrainsPartition cfg log tp records c (drainPartition cfg world records c none) :=
      drainPartition_spec [] hrun₁ hstart₁ (by simp) hord hskip (by simp)
    have hcommits' : ∀ tp', ∀ o ∈ (drainPartition cfg world records c none).1.commits.lookup tp',
        SettledIn log (drainPartition cfg world records c none).1.state.trail tp' o := by
      intro tp' o ho
      rw [hd.commits] at ho
      exact SettledIn.grow (hcommits tp' o ho) hd.ext.grows
    unfold drainBatch
    rcases hout : drainPartition cfg world records c none with ⟨c₁, next, ending⟩
    rw [hout] at hd hcommits'
    -- The rest of the batch, from whatever state the partition's end left behind.
    have hgo : ∀ s : State, s.committed = c₁.state.committed → s.trail = c₁.state.trail →
        (∀ tp', tp' ≠ tp → s.position tp' = c₁.state.position tp') →
        (records = [] → s.position tp = c₁.state.position tp) →
        SettledIn log s.trail tp (s.position tp) →
        ∀ blocked, DrainsBatch cfg log ((tp, records) :: rest) c
          (drainBatch cfg world rest
            ({ c₁ with state := s, blocked := blocked }.noteCommit tp next)) := by
      intro s hcom htrail hpos hnil hsettled blocked
      have hcom : s.committed = c.state.committed := hcom.trans hd.ext.committed
      have hgrow : c.state.trail <+: s.trail := htrail ▸ hd.ext.grows
      set c₂ : Cycle := { c₁ with state := s, blocked := blocked } with hc₂
      have hstate : (c₂.noteCommit tp next).state = s := noteCommit_state _ _ _
      have hrest := ih (c := c₂.noteCommit tp next) hnodup hrun
        (by
          rw [hstate]
          exact fun e he => (hstart e he).grow hgrow)
        (by
          rw [hstate]
          intro e he
          rw [hpos e.1 (hother e he), hd.position]
          exact hfetched e he)
        (by
          rw [hstate, htrail]
          exact hd.ext.order)
        (by
          rw [hstate, htrail]
          exact hd.ext.skipped)
        (by
          rw [hstate, htrail]
          intro tp' o ho
          rcases noteCommit_lookup ho with ⟨rfl, hnext⟩ | hkept
          · exact hd.next o hnext
          · exact hcommits' tp' o hkept)
      have hfrom := hrest.ext
      rw [hstate] at hfrom
      refine ⟨⟨hfrom.committed.trans hcom, hgrow.trans hfrom.grows, hfrom.order, hfrom.skipped⟩,
        hrest.commits, ?_, ?_⟩
      · intro tp' hempty
        rw [hrest.elsewhere tp' fun e he => hempty e (mem_cons_of_mem _ he), hstate]
        by_cases htp : tp' = tp
        · subst htp
          rw [hnil (hempty _ (mem_cons_self ..) rfl), hd.position]
        · rw [hpos tp' htp, hd.position]
      · intro hok
        refine forall_mem_cons.mpr ⟨?_, hrest.position hok⟩
        rw [hrest.elsewhere tp fun e he heq => absurd heq (hother e he), hstate]
        exact hsettled.grow hfrom.grows
    cases ending with
    | raised =>
      refine ⟨hd.ext, hcommits', fun tp' _ => ?_, by simp⟩
      rw [hd.position]
    | exhausted =>
      refine hgo c₁.state rfl rfl (fun _ _ => rfl) (fun _ => rfl) ?_ c₁.blocked
      rw [hd.position, hfetched₁]
      rcases eq_nil_or_concat records with rfl | ⟨front, last, rfl⟩
      · exact hstart₁.grow hd.ext.grows
      · rw [concat_eq_append] at *
        simp only [List.getLast?_append, List.getLast?_singleton, Option.some_or, Option.map_some,
          Option.getD_some]
        have hall := hd.exhausted rfl
        exact (hstart₁.grow hd.ext.grows).after hrun₁ (fun r hr => hall r (by simp [hr]))
          (hall last (by simp))
    | blocked r behind =>
      obtain ⟨hin, hsettled⟩ := hd.blocked r behind rfl
      refine hgo (c₁.state.seek tp r.offset) rfl rfl (fun _ h => seek_position_ne _ h _) ?_ ?_ _
      · rintro rfl
        simp at hin
      · rw [seek_position_self]
        exact hsettled

end

/-! ## One cycle -/

/-- What `getmany` promises: contiguous records from the fetch position of each partition. -/
structure Fetches (log : Set Record) (s : State) (batch : Batch) : Prop where
  nodup : (batch.map Prod.fst).Nodup
  contiguous : ∀ entry ∈ batch,
    Stretch Record.offset (partitionLog log entry.1) (s.position entry.1) entry.2

variable {cfg : ConsumerConfig} {log : Set Record}

variable {s t : State}

theorem Sound.extend (h : Sound cfg log s) (hext : Extends cfg log s t)
    {u : State} (htrail : u.trail = t.trail)
    (hcom : ∀ tp, ∀ o ∈ u.committed tp, o ∈ t.committed tp ∨ SettledIn log t.trail tp o)
    (hpos : ∀ tp, SettledIn log t.trail tp (u.position tp)) : Sound cfg log u := by
  refine ⟨fun tp => htrail ▸ hpos tp, fun tp o ho => ?_, htrail ▸ hext.order, htrail ▸ hext.skipped⟩
  rw [htrail]
  rcases hcom tp o ho with ho | ho
  · exact (h.committed tp o (hext.committed ▸ ho)).grow hext.grows
  · exact ho

theorem rewind_settled {batch : Batch} {commits : Commits} (hs : Sound cfg log s)
    (hf : Fetches log s batch) (hgrow : s.trail <+: t.trail)
    (helse : ∀ tp, (∀ entry ∈ batch, entry.1 = tp → entry.2 = []) →
      t.position tp = s.position tp)
    (hcommits : ∀ tp, ∀ o ∈ commits.lookup tp, SettledIn log t.trail tp o) (tp : TopicPartition) :
    SettledIn log t.trail tp ((rewind t batch commits).position tp) := by
  -- Rewinding lands on settled offsets, whatever was already noted for commit.
  have hpos : SettledIn log t.trail tp (s.position tp) := (hs.position tp).grow hgrow
  by_cases hin : ∃ entry ∈ batch, entry.1 = tp
  · obtain ⟨⟨tp, records⟩, hmem, rfl⟩ := hin
    rw [rewind, seekEach_position _ _ _ hf.nodup hmem]
    cases hrec : records with
    | nil =>
      rw [helse tp]
      · exact hpos
      · intro e he heq
        have : e = (tp, records) :=
          inj_on_of_nodup_map hf.nodup he hmem heq
        rw [this, hrec]
    | cons first rest =>
      cases hl : commits.lookup tp with
      | some o => exact hcommits tp o hl
      | none =>
        have hrun := hf.contiguous _ hmem
        rw [hrec] at hrun
        exact hpos.next [] hrun (by simp)
  · push Not at hin
    rw [rewind, seekEach_position_ne _ _ _ hin, helse tp fun e he heq => absurd heq (hin e he)]
    exact hpos

theorem commit_committed {s : State} {commits : Commits} {applied : TopicPartition → Bool}
    {tp : TopicPartition} {o : ℕ} (h : o ∈ (s.commit commits applied).committed tp) :
    o ∈ s.committed tp ∨ o ∈ commits.lookup tp := by
  unfold commit at h
  dsimp only at h
  cases hl : commits.lookup tp with
  | none =>
    rw [hl] at h
    exact .inl h
  | some offset =>
    simp only [hl] at h
    split_ifs at h
    · exact .inr h
    · exact .inl h

theorem runOnce_of_ne_nil {batch : Batch} (h : batch ≠ []) (world : Record → Faults)
    (commit : CommitOutcome) (s : State) :
    runOnce cfg batch world commit s =
      closeCycle batch commit
        (drainBatch cfg world batch
          ⟨(s.fetched batch).pause (batch.map Prod.fst), ∅, 0, 0, 0⟩).1
        (drainBatch cfg world batch
          ⟨(s.fetched batch).pause (batch.map Prod.fst), ∅, 0, 0, 0⟩).2 := if_neg h

theorem runOnce_sound {s : State} (hs : Sound cfg log s) {batch : Batch}
    (hf : Fetches log s batch) (world : Record → Faults) (commit : CommitOutcome) :
    Sound cfg log (runOnce cfg batch world commit s).1 := by
  by_cases hbatch : batch = []
  · rwa [runOnce, if_pos hbatch]
  rw [runOnce_of_ne_nil hbatch]
  set started := (s.fetched batch).pause (batch.map Prod.fst)
  have htrail : started.trail = s.trail := seekEach_trail _ _ _
  have hcommitted : started.committed = s.committed := seekEach_committed _ _ _
  have hd : DrainsBatch cfg log batch ⟨started, ∅, 0, 0, 0⟩
      (drainBatch cfg world batch ⟨started, ∅, 0, 0, 0⟩) := by
    apply drainBatch_spec s.position hf.nodup hf.contiguous
    · intro entry _
      rw [htrail]
      exact hs.position entry.1
    · exact fun entry hmem => seekEach_position _ _ _ hf.nodup hmem
    · exact htrail ▸ hs.order
    · exact htrail ▸ hs.skipped
    · intro tp o ho
      simp at ho
  generalize drainBatch cfg world batch ⟨started, ∅, 0, 0, 0⟩ = out at hd ⊢
  obtain ⟨c, raised⟩ := out
  unfold closeCycle
  have hext : Extends cfg log s c.state :=
    ⟨hd.ext.committed.trans hcommitted, htrail ▸ hd.ext.grows, hd.ext.order, hd.ext.skipped⟩
  have helse : ∀ tp, (∀ entry ∈ batch, entry.1 = tp → entry.2 = []) →
      c.state.position tp = s.position tp := by
    intro tp hempty
    rw [hd.elsewhere tp hempty]
    by_cases hin : ∃ entry ∈ batch, entry.1 = tp
    · obtain ⟨entry, hmem, rfl⟩ := hin
      refine (seekEach_position _ _ _ hf.nodup hmem).trans ?_
      simp [hempty entry hmem rfl]
    · push Not at hin
      exact seekEach_position_ne _ _ _ hin
  have hold : ∀ tp, ∀ o ∈ c.state.committed tp,
      o ∈ c.state.committed tp ∨ SettledIn log c.state.trail tp o := fun _ _ h => .inl h
  have hnew : ∀ applied tp, ∀ o ∈ (c.state.commit c.commits applied).committed tp,
      o ∈ c.state.committed tp ∨ SettledIn log c.state.trail tp o :=
    fun applied tp o ho => (commit_committed ho).imp id (hd.commits tp o)
  have hrewind : ∀ applied commits, (∀ tp, ∀ o ∈ AList.lookup tp commits,
      SettledIn log c.state.trail tp o) → ∀ tp, SettledIn log c.state.trail tp
        ((rewind (c.state.commit c.commits applied) batch commits).position tp) :=
    fun applied commits hc => rewind_settled hs hf hext.grows helse hc
  have hfetched : raised = false → ∀ tp, SettledIn log c.state.trail tp (c.state.position tp) := by
    intro hok tp
    by_cases hin : ∃ entry ∈ batch, entry.1 = tp
    · obtain ⟨entry, hmem, rfl⟩ := hin
      exact hd.position hok entry hmem
    · push Not at hin
      rw [helse tp fun e he heq => absurd heq (hin e he)]
      exact (hs.position tp).grow hext.grows
  cases raised with
  | true =>
    rw [if_pos rfl]
    exact hs.extend hext (rewind_trail c.state batch c.commits)
      (fun tp o ho => .inl (rewind_committed c.state batch c.commits ▸ ho))
      (rewind_settled hs hf hext.grows helse hd.commits)
  | false =>
    rw [if_neg Bool.false_ne_true]
    split_ifs
    · exact hs.extend hext rfl hold (hfetched rfl)
    · cases commit with
      | accepted => exact hs.extend hext rfl (hnew _) (hfetched rfl)
      | refused applied =>
        refine hs.extend hext (rewind_trail (c.state.commit c.commits applied) batch ∅)
          (fun tp o ho => hnew applied tp o ?_) (hrewind applied ∅ (by simp))
        exact rewind_committed (c.state.commit c.commits applied) batch ∅ ▸ ho
      | interrupted applied =>
        refine hs.extend hext (rewind_trail (c.state.commit c.commits applied) batch c.commits)
          (fun tp o ho => hnew applied tp o ?_) (hrewind applied c.commits hd.commits)
        exact rewind_committed (c.state.commit c.commits applied) batch c.commits ▸ ho

/-! ## Runs -/

def State.rejoin (s : State) (origin : TopicPartition → ℕ) : State :=
  { s with position := fun tp => (s.committed tp).getD (origin tp), paused := [] }

structure Joins (log : Set Record) (s : State) : Prop where
  trail : s.trail = []
  position : ∀ r ∈ log, s.position r.tp ≤ r.offset
  committed : ∀ r ∈ log, ∀ o ∈ s.committed r.tp, o ≤ r.offset

inductive Reaches (cfg : ConsumerConfig) (log : Set Record) (s : State) : State → Prop
  | start : Reaches cfg log s s
  | cycle {t : State} {batch : Batch} (world : Record → Faults) (commit : CommitOutcome) :
    Reaches cfg log s t → Fetches log t batch →
      Reaches cfg log s (runOnce cfg batch world commit t).1
  | rejoin {t : State} : Reaches cfg log s t → Reaches cfg log s (t.rejoin s.position)

theorem settledIn_of_forall_le {trail : List (Record × Resolution)} {tp : TopicPartition} {o : ℕ}
    (ho : ∀ r ∈ log, r.tp = tp → o ≤ r.offset) : SettledIn log trail tp o :=
  fun r hr hlt => absurd hlt (not_lt.mpr (ho r hr.1 hr.2))

theorem Joins.sound {s : State} (h : Joins log s) : Sound cfg log s where
  position tp := settledIn_of_forall_le fun r hr htp => htp ▸ h.position r hr
  committed tp o ho := settledIn_of_forall_le fun r hr htp => h.committed r hr o (htp ▸ ho)
  order := by
    intro before r how after heq
    simp [h.trail] at heq
  skipped := by
    intro r hr
    simp [h.trail] at hr

theorem Reaches.sound (hs : Joins log s) (h : Reaches cfg log s t) :
    Sound cfg log t := by
  induction h with
  | start => exact hs.sound
  | cycle world commit _ hf ih => exact runOnce_sound ih hf world commit
  | @rejoin t _ ih =>
    refine ⟨fun tp => ?_, ih.committed, ih.order, ih.skipped⟩
    change SettledIn log t.trail tp ((t.committed tp).getD (s.position tp))
    cases hc : t.committed tp with
    | some o => exact ih.committed tp o hc
    | none => exact settledIn_of_forall_le fun r hr htp => htp ▸ hs.position r hr

/-- **Offsets never pass unresolved work.** After any run, a record below its partition's committed
offset or fetch position is on the trail, every record got there after all that its partition holds
below it, and only messages of the DLQ topic were skipped. -/
theorem offsets_pass_resolved_only (hs : Joins log s) (h : Reaches cfg log s t) :
    (∀ r ∈ log, (r.offset < t.position r.tp ∨ ∃ o ∈ t.committed r.tp, r.offset < o) →
      ∃ how, (r, how) ∈ t.trail) ∧
    (∀ before r how after, t.trail = before ++ (r, how) :: after →
      ∀ r' ∈ log, r'.tp = r.tp → r'.offset < r.offset → ∃ how', (r', how') ∈ before) ∧
    ∀ r, (r, .skipped) ∈ t.trail → cfg.roleForTopic r.tp.topic = some .dlq := by
  have hsound := h.sound hs
  refine ⟨?_, ?_, hsound.skipped⟩
  · rintro r hr (hlt | ⟨o, ho, hlt⟩)
    · exact hsound.position r.tp r ⟨hr, rfl⟩ hlt
    · exact hsound.committed r.tp o ho r ⟨hr, rfl⟩ hlt
  · intro before r how after heq r' hr' htp hlt
    exact hsound.order before r how after heq r' ⟨hr', htp⟩ hlt

/-! Two undecodable messages, the second of which finds the DLQ unreachable. -/

def signalsConfig : ConsumerConfig where
  groupId := "workers"
  serviceName := "omnisense"
  topicName
    | .rawRecords => "omnisense.raw_records"
    | .signals => "omnisense.signals"
    | .graphUpdates => "omnisense.graph_updates"
    | .dlq => "omnisense.dlq"
  dlqEnabled := true
  maxAttempts := 3
  fromBytes _ := none
  one_le_maxAttempts := by decide

def signalsPartition : TopicPartition := ⟨"omnisense.signals", 0⟩

def garbage (offset : ℕ) : Record := ⟨signalsPartition, offset, none, []⟩

def dlqDownAfterFirst (r : Record) : Faults :=
  ⟨fun _ => .returned, if r.offset = 0 then .returned else .raised ["KafkaError"]⟩

def freshState : State := ⟨fun _ => 0, fun _ => none, [], []⟩

theorem first_garbage_resolved :
    ∃ how, (garbage 0, how) ∈
      (runOnce signalsConfig [(signalsPartition, [garbage 0, garbage 1])] dlqDownAfterFirst
        .accepted freshState).1.trail := by
  have hjoins : Joins {garbage 0, garbage 1} freshState :=
    ⟨rfl, fun _ _ => Nat.zero_le _, fun _ _ o ho => by simp [freshState] at ho⟩
  have hfetches : Fetches {garbage 0, garbage 1} freshState
      [(signalsPartition, [garbage 0, garbage 1])] := by
    refine ⟨by simp, forall_mem_singleton.mpr ⟨?_, ?_, ?_⟩⟩
    · intro r hr
      have hr : r = garbage 0 ∨ r = garbage 1 := by simpa using hr
      exact ⟨⟨hr, by rcases hr with rfl | rfl <;> rfl⟩, Nat.zero_le _⟩
    · simp [garbage]
    · rintro r ⟨hr, -⟩ - -
      simpa using hr
  have hrun : Reaches signalsConfig {garbage 0, garbage 1} freshState
      (runOnce signalsConfig [(signalsPartition, [garbage 0, garbage 1])] dlqDownAfterFirst
        .accepted freshState).1 := .cycle _ _ .start hfetches
  exact (offsets_pass_resolved_only hjoins hrun).1 (garbage 0) (by simp)
    (.inr ⟨1, by decide, by decide⟩)

end OmniSense.Events
