import OmniSense.Indexing.Stamps

/-! The search stores of one Signal after each revision of its row is handled, revision after
revision: they hold its chunks and nothing else as long as the chunks do not become fewer. -/

namespace OmniSense.Indexing

open Library Retrieval List State

variable (cfg : Settings)

def fullReplica : Replica := ⟨true, true, true⟩

namespace State

def perform (s : State) (now : ℤ) : List Op → State × Bool
  | [] => (s, true)
  | op :: rest =>
    if op = .refuse then (s, false) else (s.effect cfg now none op).perform now rest

def revise (s : State) (signal : Signal) (now : ℤ) : State × Bool :=
  let stored := s.upsert signal now
  match stored.row with
  | none => (stored, true)
  | some row => stored.perform cfg now (handle cfg fullReplica row.signal)

end State

def currentChunks (signal : Signal) : List Chunk :=
  if signal.isIndexable then (chunksFor cfg signal).toOption.getD [] else []

def Exact (s : State) : Prop :=
  ∀ row ∈ s.row, (s.keyword.map Entry.chunk).Perm (currentChunks cfg row.signal) ∧
    (s.vector.map Entry.chunk).Perm (currentChunks cfg row.signal)

def ExactAlong : State → List (Signal × ℤ) → Prop
  | _, [] => True
  | s, revision :: rest =>
    ((s.revise cfg revision.1 revision.2).2 = true →
      Exact cfg (s.revise cfg revision.1 revision.2).1) ∧
    ExactAlong (s.revise cfg revision.1 revision.2).1 rest

/-- The handler of this revision returns: there are no chunks to write, or it could cut them and
their version can be compared. -/
def returns (signal : Signal) : Bool :=
  !signal.isIndexable ||
    match chunksFor cfg signal with
    | .error _ => false
    | .ok chunks => chunks.isEmpty || 1 ≤ signal.version

/-- No handled revision has fewer chunks than the one handled before it, except where the Signal
was withdrawn. -/
def NeverShrinks : ℕ → List (Signal × ℤ) → Prop
  | _, [] => True
  | held, revision :: rest =>
    if returns cfg revision.1 then
      if revision.1.isIndexable then
        held ≤ (currentChunks cfg revision.1).length ∧
          NeverShrinks (currentChunks cfg revision.1).length rest
      else NeverShrinks 0 rest
    else NeverShrinks held rest

instance (s : State) : Decidable (Exact cfg s) := by
  unfold Exact
  infer_instance

instance decidableExactAlong : ∀ (s : State) (history : List (Signal × ℤ)),
    Decidable (ExactAlong cfg s history)
  | _, [] => .isTrue trivial
  | s, revision :: rest =>
    have := decidableExactAlong (s.revise cfg revision.1 revision.2).1 rest
    inferInstanceAs (Decidable (((s.revise cfg revision.1 revision.2).2 = true →
      Exact cfg (s.revise cfg revision.1 revision.2).1) ∧ ExactAlong cfg _ rest))

instance decidableNeverShrinks : ∀ (held : ℕ) (history : List (Signal × ℤ)),
    Decidable (NeverShrinks cfg held history)
  | _, [] => .isTrue trivial
  | held, revision :: rest =>
    have := decidableNeverShrinks (currentChunks cfg revision.1).length rest
    have := decidableNeverShrinks 0 rest
    have := decidableNeverShrinks held rest
    inferInstanceAs (Decidable (if returns cfg revision.1 then
      if revision.1.isIndexable then
        held ≤ (currentChunks cfg revision.1).length ∧
          NeverShrinks cfg (currentChunks cfg revision.1).length rest
      else NeverShrinks cfg 0 rest
    else NeverShrinks cfg held rest))

variable {cfg} {s : State} {signal : Signal} {now : ℤ} {store : IndexState} {n bound : ℕ}

/-! ## What the handler leaves in the stores -/

theorem perform_eq {ops : List Op} (h : .refuse ∉ ops) :
    s.perform cfg now ops = (ops.foldl (fun s op => s.effect cfg now none op) s, true) := by
  induction ops generalizing s with
  | nil => rfl
  | cons op ops ih =>
    obtain ⟨hop, hops⟩ := not_or.mp fun hmem => h (mem_cons.mpr hmem)
    rw [perform, if_neg (Ne.symm hop), ih hops, foldl_cons]

theorem batches_flatten (size : ℕ) (waiting es : List Entry) :
    (batches size waiting es).flatten = waiting ++ es := by
  induction es generalizing waiting with
  | nil =>
    unfold batches
    split_ifs with h
    · rw [h]
      rfl
    · simp
  | cons e es ih =>
    unfold batches
    split_ifs
    · rw [flatten_cons, ih, nil_append, append_assoc, singleton_append]
    · rw [ih, append_assoc, singleton_append]

theorem stored_writes {column : IndexState} (written : List (List Entry)) :
    ((written.map (Op.write store)).foldl (fun s op => s.effect cfg now none op) s).stored column =
      if column = store then written.flatten.foldl (put store) (s.stored store)
      else s.stored column := by
  induction written generalizing s with
  | nil =>
    split_ifs with h
    · rw [h]
      rfl
    · rfl
  | cons batch written ih =>
    have hstep : ∀ column, (s.effect cfg now none (.write store batch)).stored column =
        if column = store then batch.foldl (put store) (s.stored store)
        else s.stored column := by
      intro column
      have hall : (batch.filter fun entry => (none : Option (List ℕ)).all
          (entry.chunk.index ∈ ·)) = batch := filter_eq_self.mpr fun _ _ => rfl
      unfold effect
      dsimp only
      rw [hall, stored_withStored]
    rw [map_cons, foldl_cons, ih, hstep, hstep, if_pos rfl, flatten_cons,
      foldl_append]
    split_ifs <;> rfl

theorem stored_stamp {columns : List IndexState} {column : IndexState} :
    (s.effect cfg now none (.stamp columns)).stored column = s.stored column := by
  cases column <;> rfl

theorem stored_delete {column : IndexState} :
    (s.effect cfg now none (.deleteSignal store)).stored column =
      if column = store then [] else s.stored column := by
  have hnone : (s.stored store).filter
      (fun entry => !(none : Option (List ℕ)).all (entry.chunk.index ∈ ·)) = [] :=
    filter_eq_nil_iff.mpr fun _ _ => Bool.false_ne_true
  unfold effect
  dsimp only
  rw [hnone, stored_withStored]

def handledStore (cfg : Settings) (signal : Signal) (store : IndexState) (held : List Entry) :
    List Entry :=
  if signal.isIndexable then
    (entries signal (currentChunks cfg signal)).foldl (put store) held
  else []

theorem perform_withdraw :
    (s.perform cfg now (withdraw fullReplica)).2 = true ∧
      ∀ store, (s.perform cfg now (withdraw fullReplica)).1.stored store = [] := by
  rw [perform_eq (by decide)]
  refine ⟨rfl, fun store => ?_⟩
  change (((s.effect cfg now none (.deleteSignal .keyword)).effect cfg now none
    (.deleteSignal .vector)).effect cfg now none (.stamp [.keyword, .vector])).stored store = []
  rw [stored_stamp, stored_delete, stored_delete]
  cases store <;> rfl

theorem perform_index {chunks : List Chunk} (hembed : signal.embeddings = true)
    (hversion : 1 ≤ signal.version) :
    (s.perform cfg now (indexKeyword cfg fullReplica signal chunks ++
        indexVector cfg fullReplica signal chunks)).2 = true ∧
      ∀ store, (s.perform cfg now (indexKeyword cfg fullReplica signal chunks ++
        indexVector cfg fullReplica signal chunks)).1.stored store =
          (entries signal chunks).foldl (put store) (s.stored store) := by
  have hkeyword : indexKeyword cfg fullReplica signal chunks =
      (batches cfg.bulkBatchSize [] (entries signal chunks)).map (.write .keyword) ++
        [.stamp [.keyword]] := by
    unfold indexKeyword
    rw [if_pos (by rfl), if_neg (by omega)]
  have hvector : indexVector cfg fullReplica signal chunks =
      .embed :: (batches cfg.upsertBatchSize [] (entries signal chunks)).map (.write .vector) ++
        [.stamp [.vector]] := by
    unfold indexVector
    rw [hembed]
    rfl
  have hreturns : Op.refuse ∉ indexKeyword cfg fullReplica signal chunks ++
      indexVector cfg fullReplica signal chunks := by
    rw [hkeyword, hvector]
    simp
  rw [perform_eq hreturns]
  refine ⟨rfl, fun store => ?_⟩
  rw [hkeyword, hvector]
  -- The documents, their stamp, the vectors, the points, their stamp.
  have hembedded : ∀ (s : State) column, (s.effect cfg now none .embed).stored column =
      s.stored column := fun _ _ => rfl
  simp only [foldl_append, foldl_cons, foldl_nil, cons_append, stored_stamp,
    stored_writes, batches_flatten, nil_append, hembedded]
  cases store <;> rfl

theorem perform_handle (hembed : signal.embeddings = true) :
    (s.perform cfg now (handle cfg fullReplica signal)).2 = returns cfg signal ∧
      ∀ store, (s.perform cfg now (handle cfg fullReplica signal)).1.stored store =
        if returns cfg signal then handledStore cfg signal store (s.stored store)
        else s.stored store := by
  unfold handle returns handledStore currentChunks
  cases hindexable : signal.isIndexable with
  | false => exact perform_withdraw
  | true =>
    cases hchunks : chunksFor cfg signal with
    | error err => exact ⟨rfl, fun _ => rfl⟩
    | ok chunks =>
      cases chunks with
      | nil =>
        refine ⟨rfl, fun store => ?_⟩
        exact @stored_stamp cfg s now _ store
      | cons chunk chunks =>
        by_cases hversion : 1 ≤ signal.version
        · obtain ⟨hreturns, hstored⟩ :=
            @perform_index cfg s signal now (chunk :: chunks) hembed hversion
          refine ⟨?_, fun store => ?_⟩
          · rw [decide_eq_true hversion]
            exact hreturns
          · rw [decide_eq_true hversion]
            exact hstored store
        · -- The first document is refused before any is sent.
          have hrefused : indexKeyword cfg fullReplica signal (chunk :: chunks) = [.refuse] := by
            unfold indexKeyword
            rw [if_pos (by rfl), if_pos (by omega)]
          rw [decide_eq_false hversion]
          dsimp only
          rw [hrefused]
          exact ⟨rfl, fun _ => rfl⟩

/-! ## Fewer chunks -/

theorem put_all {held es : List Entry} (hversions : ∀ e ∈ held, e.version ≤ bound)
    (hes : ∀ e ∈ es, e.version = bound) (hnodup : (es.map fun e => e.chunk.index).Nodup) :
    es.foldl (put store) held =
      es.reverse ++ held.filter fun e => e.chunk.index ∉ es.map fun e => e.chunk.index := by
  induction es generalizing held with
  | nil =>
    simp
  | cons entry es ih =>
    obtain ⟨hentry, hes⟩ := forall_mem_cons.mp hes
    rw [map_cons, nodup_cons] at hnodup
    have hput : put store held entry =
        entry :: held.filter fun old => old.chunk.index ≠ entry.chunk.index :=
      put_eq fun old hold _ => hentry ▸ hversions old hold
    have hbelow : ∀ e ∈ entry :: held.filter fun old => old.chunk.index ≠ entry.chunk.index,
        e.version ≤ bound := by
      intro e he
      rcases mem_cons.mp he with rfl | he
      · exact hentry.le
      · exact hversions e (mem_filter.mp he).1
    rw [foldl_cons, hput, ih hbelow hes hnodup.2, filter_cons_of_pos (by simpa using
      hnodup.1), filter_filter, reverse_cons, append_assoc, singleton_append]
    simp only [map_cons, mem_cons, not_or, Bool.decide_and, Bool.and_comm, ne_eq]

/-- The entries carry the indexes up to the number given, each once, and no version above. -/
structure Filled (n bound : ℕ) (held : List Entry) : Prop where
  indexes : (held.map fun e => e.chunk.index).Perm (List.range n)
  versions : ∀ e ∈ held, e.version ≤ bound

theorem currentChunks_index (cfg : Settings) (signal : Signal) :
    (currentChunks cfg signal).map Chunk.index =
      List.range (currentChunks cfg signal).length := by
  unfold currentChunks
  split_ifs
  · cases hchunks : chunksFor cfg signal with
    | error err => rfl
    | ok chunks => exact chunksFor_index hchunks
  · rfl

theorem handledStore_exact {held : List Entry} (hindexable : signal.isIndexable = true)
    (hheld : Filled n signal.version held) :
    (((handledStore cfg signal store held).map Entry.chunk).Perm (currentChunks cfg signal) ↔
      n ≤ (currentChunks cfg signal).length) ∧
    (n ≤ (currentChunks cfg signal).length →
      Filled (currentChunks cfg signal).length signal.version
        (handledStore cfg signal store held)) := by
  have hchunks : (entries signal (currentChunks cfg signal)).map Entry.chunk =
      currentChunks cfg signal := by
    unfold entries
    rw [map_map]
    exact map_id _
  have hindex : (entries signal (currentChunks cfg signal)).map (fun e => e.chunk.index) =
      List.range (currentChunks cfg signal).length := by
    rw [← currentChunks_index, ← hchunks, map_map]
    rw [hchunks]
    rfl
  have hversion : ∀ e ∈ entries signal (currentChunks cfg signal), e.version = signal.version := by
    intro e he
    obtain ⟨chunk, -, rfl⟩ := mem_map.mp he
    rfl
  have hstore : handledStore cfg signal store held =
      (entries signal (currentChunks cfg signal)).reverse ++
        held.filter fun e => e.chunk.index ∉ List.range (currentChunks cfg signal).length := by
    unfold handledStore
    rw [if_pos hindexable, put_all hheld.versions hversion (hindex ▸ nodup_range), hindex]
  -- What stays of the old entries is what lies past the new ones.
  have hleft : (held.filter fun e => e.chunk.index ∉
      List.range (currentChunks cfg signal).length) = [] ↔
        n ≤ (currentChunks cfg signal).length := by
    rw [filter_eq_nil_iff]
    constructor
    · intro h
      by_contra hlt
      have hmem : (currentChunks cfg signal).length ∈ held.map fun e => e.chunk.index :=
        hheld.indexes.mem_iff.mpr (mem_range.mpr (by omega))
      obtain ⟨e, he, heq⟩ := mem_map.mp hmem
      refine h e he ?_
      simp [heq]
    · intro hle e he
      have hmem := hheld.indexes.mem_iff.mp (mem_map_of_mem he)
      have hlt := mem_range.mp hmem
      simp only [mem_range, decide_eq_true_eq, not_not]
      omega
  rw [hstore]
  refine ⟨?_, fun hle => ⟨?_, ?_⟩⟩
  · rw [← hleft, map_append, map_reverse, hchunks]
    constructor
    · intro hperm
      have hlength := hperm.length_eq
      rw [length_append, length_reverse, length_map] at hlength
      exact eq_nil_of_length_eq_zero (by omega)
    · intro hnil
      rw [hnil, map_nil, append_nil]
      exact reverse_perm _
  · rw [hleft.mpr hle, append_nil, map_reverse, hindex]
    exact reverse_perm _
  · intro e he
    rw [hleft.mpr hle, append_nil, mem_reverse] at he
    exact (hversion e he).le

/-! ## Revision after revision -/

theorem perform_signal {ops : List Op} (hops : ∀ op ∈ ops, op.isHandling = true) :
    (s.perform cfg now ops).1.row.map SignalRow.signal = s.row.map SignalRow.signal := by
  induction ops generalizing s with
  | nil => rfl
  | cons op ops ih =>
    obtain ⟨hop, hops⟩ := forall_mem_cons.mp hops
    unfold perform
    split_ifs
    · rfl
    · rw [ih hops]
      exact (effect_handling hop).1

theorem upsert_newer (hrow : ∀ row ∈ s.row, row.signal.version ≤ signal.version) :
    ∃ row, (s.upsert signal now).row = some row ∧ row.signal = signal ∧
      (s.upsert signal now).keyword = s.keyword ∧ (s.upsert signal now).vector = s.vector := by
  unfold upsert
  cases h : s.row with
  | none => exact ⟨_, rfl, rfl, rfl, rfl⟩
  | some row =>
    dsimp only
    rw [if_pos (hrow row h)]
    exact ⟨_, rfl, rfl, rfl, rfl⟩

theorem revise_spec (hembed : signal.embeddings = true)
    (hrow : ∀ row ∈ s.row, row.signal.version ≤ signal.version) :
    (s.revise cfg signal now).2 = returns cfg signal ∧
      (s.revise cfg signal now).1.row.map SignalRow.signal = some signal ∧
      ∀ store, (s.revise cfg signal now).1.stored store =
        if returns cfg signal then handledStore cfg signal store (s.stored store)
        else s.stored store := by
  obtain ⟨row, hstored, hsignal, hkeyword, hvector⟩ := @upsert_newer s signal now hrow
  have hrevise : s.revise cfg signal now =
      (s.upsert signal now).perform cfg now (handle cfg fullReplica signal) := by
    unfold revise
    dsimp only
    rw [hstored]
    dsimp only
    rw [hsignal]
  have hsame : ∀ store, (s.upsert signal now).stored store = s.stored store := by
    intro store
    cases store
    · exact hvector
    · exact hkeyword
  have hhandling : ∀ op ∈ handle cfg fullReplica signal, op.isHandling = true :=
    (@handle_serves cfg signal (fun _ => []) fullReplica fun _ _ => rfl).1
  obtain ⟨hreturns, hafter⟩ :=
    @perform_handle cfg (s.upsert signal now) signal now hembed
  rw [hrevise]
  refine ⟨hreturns, ?_, fun store => ?_⟩
  · rw [perform_signal hhandling, hstored, Option.map_some, hsignal]
  · rw [hafter, hsame]

theorem exact_iff {s : State} (hsignal : s.row.map SignalRow.signal = some signal) :
    Exact cfg s ↔ ∀ store, ((s.stored store).map Entry.chunk).Perm (currentChunks cfg signal) := by
  obtain ⟨row, hrow, rfl⟩ := Option.map_eq_some_iff.mp hsignal
  constructor
  · intro h store
    cases store
    · exact (h row hrow).2
    · exact (h row hrow).1
  · intro h other hother
    obtain rfl := Option.some.inj (hrow.symm.trans hother)
    exact ⟨h .keyword, h .vector⟩

structure Ready (n bound : ℕ) (s : State) : Prop where
  row : ∀ row ∈ s.row, row.signal.version ≤ bound
  stored : ∀ store, Filled n bound (s.stored store)

theorem Filled.mono {held : List Entry} (h : Filled n bound held)
    (hle : bound ≤ signal.version) : Filled n signal.version held :=
  ⟨h.indexes, fun e he => (h.versions e he).trans hle⟩

theorem exactAlong_ready {history : List (Signal × ℤ)} (hready : Ready n bound s)
    (hembed : ∀ revision ∈ history, revision.1.embeddings = true)
    (hbound : ∀ revision ∈ history, bound ≤ revision.1.version)
    (hversions : history.Pairwise fun a b => a.1.version ≤ b.1.version) :
    ExactAlong cfg s history ↔ NeverShrinks cfg n history := by
  induction history generalizing s n bound with
  | nil => exact Iff.rfl
  | cons revision history ih =>
    obtain ⟨signal, now⟩ := revision
    obtain ⟨hembed, hembeds⟩ := forall_mem_cons.mp hembed
    have hle := (forall_mem_cons.mp hbound).1
    obtain ⟨hlater, hversions⟩ := pairwise_cons.mp hversions
    obtain ⟨hreturns, hsignal, hstored⟩ := @revise_spec cfg s signal now hembed
      fun row hrow => (hready.row row hrow).trans hle
    have hrow : ∀ row ∈ (s.revise cfg signal now).1.row, row.signal.version ≤ signal.version := by
      intro row hrow
      rw [Option.mem_def.mp hrow, Option.map_some, Option.some.injEq] at hsignal
      rw [hsignal]
    unfold ExactAlong NeverShrinks
    rw [hreturns]
    by_cases hret : returns cfg signal = true
    · rw [if_pos hret, forall_prop_of_true hret, exact_iff hsignal]
      have hafter : ∀ store, (s.revise cfg signal now).1.stored store =
          handledStore cfg signal store (s.stored store) := by
        intro store
        rw [hstored, if_pos hret]
      cases hindexable : signal.isIndexable with
      | true =>
        rw [if_pos rfl]
        have hexact := fun store => @handledStore_exact cfg signal store n _ hindexable
          ((hready.stored store).mono hle)
        have hall : (∀ store, (((s.revise cfg signal now).1.stored store).map Entry.chunk).Perm
            (currentChunks cfg signal)) ↔ n ≤ (currentChunks cfg signal).length := by
          simp only [hafter, fun store => (hexact store).1]
          exact ⟨fun h => h .keyword, fun h _ => h⟩
        rw [hall]
        refine and_congr_right fun hfewer => ih ⟨hrow, fun store => ?_⟩ hembeds hlater hversions
        rw [hafter]
        exact (hexact store).2 hfewer
      | false =>
        -- Both stores are emptied.
        have hempty : ∀ store, (s.revise cfg signal now).1.stored store = [] := by
          intro store
          rw [hafter, handledStore, hindexable]
          rfl
        have hall : ∀ store, (((s.revise cfg signal now).1.stored store).map Entry.chunk).Perm
            (currentChunks cfg signal) := by
          intro store
          rw [hempty, currentChunks, hindexable]
          exact List.Perm.refl _
        rw [if_neg Bool.false_ne_true, and_iff_right hall]
        refine ih ⟨hrow, fun store => ?_⟩ hembeds hlater hversions
        rw [hempty]
        exact ⟨List.Perm.refl _, fun _ h => absurd h not_mem_nil⟩
    · rw [if_neg hret, and_iff_right fun h => absurd h hret]
      refine ih ⟨hrow, fun store => ?_⟩ hembeds hlater hversions
      rw [hstored, if_neg hret]
      exact (hready.stored store).mono hle

/-- The stores are exact after every handler that returns if and only if no handled revision has
fewer chunks than the one before. -/
theorem exactAlong_iff_neverShrinks (cfg : Settings) (history : List (Signal × ℤ))
    (hembed : ∀ revision ∈ history, revision.1.embeddings = true)
    (hversions : history.Pairwise fun a b => a.1.version ≤ b.1.version) :
    ExactAlong cfg start history ↔ NeverShrinks cfg 0 history := by
  refine exactAlong_ready ⟨?_, fun store => ?_⟩ hembed (fun _ _ => Nat.zero_le _) hversions
  · rintro row hrow
    cases hrow
  · cases store <;> exact ⟨List.Perm.refl _, fun _ h => absurd h not_mem_nil⟩

def enriched (text : String) (version : ℕ) : Signal :=
  { sampleSignal text version with status := .enriched, source := .news }

def growing : List (Signal × ℤ) :=
  [(enriched "Acme rose." 1, 10),
    (enriched "Acme rose by a lot today.\n\nThen it fell, and fell, and fell." 1, 20),
    ({ enriched "Acme rose." 2 with status := .duplicate }, 30), (enriched "Acme fell." 2, 40)]

theorem exactAlong_growing : NeverShrinks sampleSettings 0 growing ∧
    ExactAlong sampleSettings start growing := by
  have hcondition : NeverShrinks sampleSettings 0 growing := by decide +kernel
  exact ⟨hcondition, (exactAlong_iff_neverShrinks sampleSettings growing (by decide)
    (by decide +kernel)).mpr hcondition⟩

/-- The second paragraph is taken back: its chunk stays in both stores. -/
theorem shortened_text_keeps_chunk : ¬ ExactAlong sampleSettings start
    [(enriched "Acme rose by a lot today.\n\nThen it fell, and fell, and fell." 1, 10),
      (enriched "Acme rose by a lot today." 1, 20)] := by
  decide +kernel

end OmniSense.Indexing
