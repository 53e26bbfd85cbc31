import Mathlib.Data.List.Nodup
import OmniSense.Indexing.Worker
import OmniSense.Library.Effect
import OmniSense.Retrieval.Geometry

/-! What a handler of an enriched event has stored by the time it stamps, as long as the row that
it loaded is the one that is there. -/

namespace OmniSense.Indexing

open Library Retrieval List State

variable {cfg : Settings} {s : State} {signal : Signal} {held held' : IndexState → List Entry}
  {ops rest pending : List Op} {op : Op} {now : ℤ} {column : IndexState}

/-! ## What a stamp says -/

def Holds (cfg : Settings) (signal : Signal) (entries : List Entry) : Prop :=
  if signal.isIndexable then
    match chunksFor cfg signal with
    | .error _ => False
    | .ok [] => entries = []
    | .ok chunks => ∀ chunk ∈ chunks, ∃ entry ∈ entries, entry.chunk = chunk
  else entries = []

instance (cfg : Settings) (signal : Signal) (entries : List Entry) :
    Decidable (Holds cfg signal entries) := by
  unfold Holds
  split
  · split <;> infer_instance
  · infer_instance

def leaves (cfg : Settings) (replica : Replica) (signal : Signal) (column : IndexState) : Bool :=
  if signal.isIndexable then
    match chunksFor cfg signal with
    | .ok [] => true
    | _ => false
  else
    match column with
    | .keyword => !replica.keywordIndexer
    | .vector => !replica.vectorIndexer

/-! ## What a handler still has to do -/

def Reaches (cfg : Settings) (signal : Signal) (held : IndexState → List Entry) (pending : List Op)
    (column : IndexState) : Prop :=
  if signal.isIndexable then
    match chunksFor cfg signal with
    | .error _ => False
    | .ok [] => held column = []
    | .ok chunks => ∀ chunk ∈ chunks, (∃ entry ∈ held column, entry.chunk = chunk) ∨
        ∃ batch, .write column batch ∈ pending ∧ ∃ entry ∈ batch, entry.chunk = chunk
  else held column = [] ∨ .deleteSignal column ∈ pending

theorem reaches_nil : Reaches cfg signal held [] column ↔ Holds cfg signal (held column) := by
  unfold Reaches Holds
  split
  · split <;> simp
  · simp

def Backed (cfg : Settings) (signal : Signal) (held : IndexState → List Entry) :
    List Op → List Op → Prop
  | _, [] => True
  | pending, .stamp columns :: rest =>
    (∀ column ∈ columns, Reaches cfg signal held pending column) ∧
      Backed cfg signal held pending rest
  | pending, op :: rest => Backed cfg signal held (pending ++ [op]) rest

def Op.isStamp : Op → Bool
  | .stamp _ => true
  | _ => false

def Op.isRequest : Op → Bool
  | .write _ _ | .deleteSignal _ => true
  | _ => false

theorem backed_cons (h : op.isStamp = false) :
    Backed cfg signal held pending (op :: rest) ↔ Backed cfg signal held (pending ++ [op]) rest := by
  cases op <;> first | rfl | cases h

theorem backed_append {calls : List Op} (h : ∀ op ∈ calls, op.isStamp = false) :
    Backed cfg signal held pending (calls ++ rest) ↔
      Backed cfg signal held (pending ++ calls) rest := by
  induction calls generalizing pending with
  | nil => rw [nil_append, append_nil]
  | cons op calls ih =>
    obtain ⟨hop, hcalls⟩ := forall_mem_cons.mp h
    rw [cons_append, backed_cons hop, ih hcalls, append_assoc, singleton_append]

theorem Backed.step {done : List Op} (hstep : ∀ column pending,
      Reaches cfg signal held (done ++ pending) column → Reaches cfg signal held' pending column)
    (h : Backed cfg signal held (done ++ pending) ops) : Backed cfg signal held' pending ops := by
  induction ops generalizing pending with
  | nil => trivial
  | cons op ops ih =>
    by_cases hop : op.isStamp
    · cases op with
      | stamp columns => exact ⟨fun column hc => hstep _ _ (h.1 column hc), ih h.2⟩
      | _ => cases hop
    · rw [Bool.not_eq_true] at hop
      rw [backed_cons hop] at h ⊢
      rw [append_assoc] at h
      exact ih h

theorem Backed.tail (hop : op.isStamp = false) (hstep : ∀ column pending,
      Reaches cfg signal held (op :: pending) column → Reaches cfg signal held' pending column)
    (h : Backed cfg signal held [] (op :: rest)) : Backed cfg signal held' [] rest := by
  rw [backed_cons hop] at h
  exact @Backed.step cfg signal held held' rest [] [op] hstep h

def Legit (cfg : Settings) (signal : Signal) : Op → Prop
  | .write _ batch => signal.isIndexable = true ∧ ∃ chunks, chunksFor cfg signal = .ok chunks ∧
      ∀ entry ∈ batch, entry.chunk ∈ chunks ∧ entry.version = signal.version
  | .deleteSignal _ => signal.isIndexable = false
  | .stamp _ | .embed | .refuse => True
  | _ => False

/-! ## The chunks of a Signal -/

variable {chunks : List Chunk} {entry : Entry} {store : List Entry}

theorem makeChunks_index {text : List Char} {spans : List Span} {index : ℕ}
    (h : ((spans.zipIdx index).mapM fun s =>
      Chunk.make s.2 (slice text s.1.1 s.1.2) s.1.1 s.1.2) = .ok chunks) :
    chunks.map Chunk.index = List.range' index spans.length := by
  induction spans generalizing index chunks with
  | nil =>
    cases h
    rfl
  | cons span spans ih =>
    rw [zipIdx_cons, mapM_cons] at h
    obtain ⟨chunk, hchunk, h⟩ := ok_of_bind h
    obtain ⟨others, hothers, h⟩ := ok_of_bind h
    cases h
    have hindex : chunk.index = index := by
      unfold Chunk.make at hchunk
      split_ifs at hchunk
      cases hchunk
      rfl
    rw [map_cons, ih hothers, hindex, length_cons, List.range'_succ]

theorem chunksFor_index (h : chunksFor cfg signal = .ok chunks) :
    chunks.map Chunk.index = List.range chunks.length := by
  -- The five checks of the arguments, and then the chunks.
  unfold chunksFor splitText at h
  dsimp only at h
  iterate 5
    split at h
    · cases h
  have hindex := makeChunks_index h
  have hlength := congrArg List.length hindex
  rw [length_map, length_range'] at hlength
  rw [hindex, range_eq_range', hlength]

theorem chunksFor_injective (h : chunksFor cfg signal = .ok chunks) :
    ∀ a ∈ chunks, ∀ b ∈ chunks, a.index = b.index → a = b := by
  have hnodup : (chunks.map Chunk.index).Nodup := by
    rw [chunksFor_index h]
    exact nodup_range
  intro a ha b hb hindex
  exact inj_on_of_nodup_map hnodup ha hb hindex

/-! ## The stores -/

theorem put_eq (hversions : ∀ old ∈ store, column = .keyword → old.version ≤ entry.version) :
    put column store entry =
      entry :: store.filter fun old => old.chunk.index ≠ entry.chunk.index := by
  cases column with
  | vector => rfl
  | keyword =>
    refine if_neg ?_
    rw [any_eq_true]
    rintro ⟨old, hold, hnewer⟩
    have hle := hversions old hold rfl
    simp only [Bool.and_eq_true, decide_eq_true_eq] at hnewer
    exact absurd hle (not_le.mpr hnewer.2)

theorem mem_put {chunk : Chunk}
    (hversions : ∀ old ∈ store, column = .keyword → old.version ≤ entry.version) :
    (∃ e ∈ put column store entry, e.chunk = chunk) ↔
      entry.chunk = chunk ∨ ∃ e ∈ store, e.chunk.index ≠ entry.chunk.index ∧ e.chunk = chunk := by
  rw [put_eq hversions]
  simp only [mem_cons, mem_filter, decide_eq_true_eq, or_and_right, exists_or,
    exists_eq_left, and_assoc]

theorem version_put {bound : ℕ}
    (hstore : ∀ e ∈ store, e.version ≤ bound) (hentry : entry.version ≤ bound) :
    ∀ e ∈ put column store entry, e.version ≤ bound := by
  intro e he
  have hmem : e = entry ∨ e ∈ store := by
    cases column with
    | vector => exact (mem_cons.mp he).imp_right fun h => (mem_filter.mp h).1
    | keyword =>
      change e ∈ putDocument store entry at he
      unfold putDocument at he
      split_ifs at he
      · exact .inr he
      · exact (mem_cons.mp he).imp_right fun h => (mem_filter.mp h).1
  exact hmem.elim (fun h => h ▸ hentry) (hstore e)

theorem mem_foldl_put (hchunks : chunksFor cfg signal = .ok chunks)
    {batch store : List Entry} (hbatch : ∀ e ∈ batch, e.chunk ∈ chunks ∧ e.version = signal.version)
    (hstore : ∀ e ∈ store, column = .keyword → e.version ≤ signal.version) :
    (∀ e ∈ batch.foldl (put column) store, column = .keyword → e.version ≤ signal.version) ∧
      ∀ chunk ∈ chunks, (∃ e ∈ batch.foldl (put column) store, e.chunk = chunk) ↔
        (∃ e ∈ batch, e.chunk = chunk) ∨ ∃ e ∈ store, e.chunk = chunk := by
  induction batch generalizing store with
  | nil => exact ⟨hstore, by simp⟩
  | cons entry batch ih =>
    obtain ⟨⟨hentry, hversion⟩, hbatch⟩ := forall_mem_cons.mp hbatch
    have hput : ∀ e ∈ put column store entry, column = .keyword →
        e.version ≤ signal.version :=
      fun e he hcolumn => version_put (fun e he => hstore e he hcolumn) hversion.le e he
    obtain ⟨hversions, hheld⟩ := ih hbatch hput
    refine ⟨hversions, fun chunk hchunk => ?_⟩
    rw [foldl_cons, hheld chunk hchunk,
      mem_put fun old hold hcolumn => (hstore old hold hcolumn).trans hversion.ge]
    constructor
    · rintro (⟨e, he, h⟩ | h | ⟨e, he, -, h⟩)
      · exact .inl ⟨e, mem_cons_of_mem _ he, h⟩
      · exact .inl ⟨entry, mem_cons_self, h⟩
      · exact .inr ⟨e, he, h⟩
    · rintro (⟨e, he, h⟩ | ⟨e, he, h⟩)
      · rcases mem_cons.mp he with rfl | he
        · exact .inr (.inl h)
        · exact .inl ⟨e, he, h⟩
      · by_cases hindex : e.chunk.index = entry.chunk.index
        · -- Two chunks of the Signal with one index are the same.
          have hsame := chunksFor_injective hchunks _ (h ▸ hchunk) _ hentry hindex
          exact .inr (.inl (hsame ▸ h))
        · exact .inr (.inr ⟨e, he, hindex, h⟩)

/-! ## Calls -/

theorem stored_withStored {store : IndexState} {entries : List Entry} :
    (s.withStored store entries).stored column =
      if column = store then entries else s.stored column := by
  cases column <;> cases store <;> rfl

theorem reaches_of_ok (hindexable : signal.isIndexable = true)
    (hchunks : chunksFor cfg signal = .ok chunks) (hne : chunks ≠ []) :
    Reaches cfg signal held pending column ↔ ∀ chunk ∈ chunks,
      (∃ entry ∈ held column, entry.chunk = chunk) ∨
        ∃ batch, .write column batch ∈ pending ∧ ∃ entry ∈ batch, entry.chunk = chunk := by
  unfold Reaches
  rw [if_pos hindexable, hchunks]
  cases chunks with
  | nil => exact absurd rfl hne
  | cons chunk chunks => rfl

theorem reaches_of_not (hindexable : signal.isIndexable = false) :
    Reaches cfg signal held pending column ↔
      held column = [] ∨ .deleteSignal column ∈ pending := by
  unfold Reaches
  rw [hindexable]
  exact Iff.rfl

theorem Reaches.congr (hheld : held' column = held column)
    (h : Reaches cfg signal held pending column) : Reaches cfg signal held' pending column := by
  unfold Reaches at h ⊢
  rwa [hheld]

theorem Reaches.without (hwrite : op.isRequest = false)
    (h : Reaches cfg signal held (op :: pending) column) :
    Reaches cfg signal held pending column := by
  unfold Reaches at h ⊢
  split_ifs at h ⊢
  · split at h
    · exact h
    · exact h
    · refine fun chunk hchunk => (h chunk hchunk).imp_right ?_
      rintro ⟨batch, hmem, hentry⟩
      rcases mem_cons.mp hmem with rfl | hmem
      · cases hwrite
      · exact ⟨batch, hmem, hentry⟩
  · refine h.imp_right fun hmem => ?_
    rcases mem_cons.mp hmem with rfl | hmem
    · cases hwrite
    · exact hmem

section

variable (hversions : ∀ e ∈ s.keyword, e.version ≤ signal.version)
include hversions

theorem write_keeps {store : IndexState} {batch : List Entry} {reached : Option (List ℕ)}
    (hlegit : Legit cfg signal (.write store batch)) :
    (∀ e ∈ (s.effect cfg now reached (.write store batch)).keyword, e.version ≤ signal.version) ∧
      ∀ column pending, (Reaches cfg signal s.stored pending column →
        Reaches cfg signal (s.effect cfg now reached (.write store batch)).stored pending column) ∧
      (reached = none → Reaches cfg signal s.stored (.write store batch :: pending) column →
        Reaches cfg signal (s.effect cfg now reached (.write store batch)).stored pending column) := by
  obtain ⟨hindexable, chunks, hchunks, hbatch⟩ := hlegit
  have hwritten : ∀ e ∈ batch.filter fun entry => reached.all (entry.chunk.index ∈ ·),
      e.chunk ∈ chunks ∧ e.version = signal.version :=
    fun e he => hbatch e (mem_of_mem_filter he)
  have hstore : ∀ e ∈ s.stored store, store = .keyword → e.version ≤ signal.version := by
    rintro e he rfl
    exact hversions e he
  obtain ⟨hput, hheld⟩ := mem_foldl_put hchunks hwritten hstore
  refine ⟨?_, fun column pending => ?_⟩
  · cases store with
    | keyword => exact fun e he => hput e he rfl
    | vector => exact hversions
  by_cases hne : chunks = []
  · -- Without chunks there is nothing to write.
    have hempty : batch = [] := by
      refine eq_nil_iff_forall_not_mem.mpr fun e he => ?_
      have hmem := (hbatch e he).1
      rw [hne] at hmem
      cases hmem
    subst hempty
    have hsame : ∀ column, (s.effect cfg now reached (.write store [])).stored column =
        s.stored column := by
      intro column
      cases store <;> cases column <;> rfl
    have hplain : ∀ pending, Reaches cfg signal s.stored pending column ↔ s.stored column = [] := by
      intro pending
      unfold Reaches
      rw [if_pos hindexable, hchunks, hne]
    exact ⟨Reaches.congr (hsame column), fun _ h =>
      ((hplain pending).mpr ((hplain _).mp h)).congr (hsame column)⟩
  · have hafter : (s.effect cfg now reached (.write store batch)).stored column =
        if column = store then (batch.filter fun entry => reached.all (entry.chunk.index ∈ ·)).foldl
          (put store) (s.stored store) else s.stored column := stored_withStored
    have hkept : ∀ chunk ∈ chunks, (∃ e ∈ s.stored column, e.chunk = chunk) →
        ∃ e ∈ (s.effect cfg now reached (.write store batch)).stored column, e.chunk = chunk := by
      intro chunk hchunk h
      rw [hafter]
      split_ifs with hcolumn
      · subst hcolumn
        exact (hheld chunk hchunk).mpr (.inr h)
      · exact h
    simp only [reaches_of_ok hindexable hchunks hne]
    refine ⟨fun h chunk hchunk => (h chunk hchunk).imp_left (hkept chunk hchunk),
      fun hall h chunk hchunk => ?_⟩
    rcases h chunk hchunk with hold | ⟨batch', hmem, e, he, hchunk'⟩
    · exact .inl (hkept chunk hchunk hold)
    · rcases mem_cons.mp hmem with heq | hmem
      · obtain ⟨rfl, rfl⟩ := Op.write.inj heq
        refine .inl ?_
        rw [hafter, if_pos rfl]
        refine (hheld chunk hchunk).mpr (.inl ⟨e, mem_filter.mpr ⟨he, ?_⟩, hchunk'⟩)
        rw [hall]
        rfl
      · exact .inr ⟨batch', hmem, e, he, hchunk'⟩

theorem delete_keeps {store : IndexState} {reached : Option (List ℕ)}
    (hlegit : Legit cfg signal (.deleteSignal store)) :
    (∀ e ∈ (s.effect cfg now reached (.deleteSignal store)).keyword, e.version ≤ signal.version) ∧
      ∀ column pending, (Reaches cfg signal s.stored pending column →
        Reaches cfg signal (s.effect cfg now reached (.deleteSignal store)).stored pending column) ∧
      (reached = none → Reaches cfg signal s.stored (.deleteSignal store :: pending) column →
        Reaches cfg signal (s.effect cfg now reached (.deleteSignal store)).stored pending
          column) := by
  have hafter : ∀ column, (s.effect cfg now reached (.deleteSignal store)).stored column =
      if column = store then (s.stored store).filter
        fun entry => !reached.all (entry.chunk.index ∈ ·) else s.stored column :=
    fun _ => stored_withStored
  have hempty : ∀ column, s.stored column = [] →
      (s.effect cfg now reached (.deleteSignal store)).stored column = [] := by
    intro column h
    rw [hafter]
    split_ifs with hcolumn
    · subst hcolumn
      rw [h]
      rfl
    · exact h
  simp only [reaches_of_not hlegit]
  refine ⟨?_, fun column pending => ⟨fun h => h.imp_left (hempty column), fun hall h => ?_⟩⟩
  · cases store with
    | keyword => exact fun e he => hversions e (mem_of_mem_filter he)
    | vector => exact hversions
  · rcases h with h | h
    · exact .inl (hempty column h)
    · rcases mem_cons.mp h with heq | h
      · obtain rfl := Op.deleteSignal.inj heq
        refine .inl ?_
        rw [hafter, if_pos rfl, hall]
        exact filter_eq_nil_iff.mpr fun e _ => by simp
      · exact .inr h

end

/-! ## What a handler sets out to do -/

def Op.isHandling : Op → Bool
  | .write _ _ | .deleteSignal _ | .stamp _ | .embed | .refuse => true
  | _ => false

def Op.isStoring : Op → Bool
  | .upsert _ | .publish => true
  | _ => false

theorem not_isHandling (h : op.isStoring = true) : op.isHandling = false := by
  cases op <;> first | rfl | nomatch h

structure Serves (cfg : Settings) (held : IndexState → List Entry) (signal : Signal)
    (ops : List Op) : Prop where
  legit : ∀ op ∈ ops, Legit cfg signal op
  backed : Backed cfg signal held [] ops

theorem mem_batches {size : ℕ} {waiting es : List Entry} :
    (∃ batch ∈ batches size waiting es, entry ∈ batch) ↔ entry ∈ waiting ∨ entry ∈ es := by
  induction es generalizing waiting with
  | nil =>
    unfold batches
    split_ifs with h
    · simp [h]
    · simp
  | cons e es ih =>
    unfold batches
    split_ifs
    · rw [exists_mem_cons_iff, ih, mem_append, mem_singleton, mem_cons]
      simp only [not_mem_nil, false_or, or_assoc]
    · rw [ih, mem_append, mem_singleton, mem_cons, or_assoc]

section

variable (replica : Replica) {chunks : List Chunk}

theorem batches_backed (hindexable : signal.isIndexable = true)
    (hchunks : chunksFor cfg signal = .ok chunks) (hne : chunks ≠ []) (size : ℕ)
    (hrest : ∀ pending, Backed cfg signal held pending rest) :
    Backed cfg signal held pending ((batches size [] (entries signal chunks)).map (.write column) ++
      .stamp [column] :: rest) := by
  -- The batches of a store, and then its stamp.
  have hplain : ∀ op ∈ (batches size [] (entries signal chunks)).map (Op.write column),
      op.isStamp = false := by
    intro op hop
    obtain ⟨batch, -, rfl⟩ := mem_map.mp hop
    rfl
  rw [backed_append hplain]
  refine ⟨fun column' hcolumn => ?_, hrest _⟩
  obtain rfl := mem_singleton.mp hcolumn
  refine (reaches_of_ok hindexable hchunks hne).mpr fun chunk hchunk => .inr ?_
  have hentry : (⟨chunk, signal.version⟩ : Entry) ∈ entries signal chunks :=
    mem_map_of_mem hchunk
  obtain ⟨batch, hbatch, hmem⟩ := mem_batches.mpr (.inr hentry)
  exact ⟨batch, mem_append_right _ (mem_map_of_mem hbatch), _, hmem, rfl⟩

theorem batches_legit (hindexable : signal.isIndexable = true)
    (hchunks : chunksFor cfg signal = .ok chunks) (size : ℕ) :
    ∀ op ∈ (batches size [] (entries signal chunks)).map (Op.write column),
      op.isHandling = true ∧ Legit cfg signal op := by
  intro op hop
  obtain ⟨batch, hbatch, rfl⟩ := mem_map.mp hop
  refine ⟨rfl, hindexable, chunks, hchunks, fun entry hentry => ?_⟩
  have hmem : entry ∈ ([] : List Entry) ∨ entry ∈ entries signal chunks :=
    mem_batches.mp ⟨batch, hbatch, hentry⟩
  obtain ⟨chunk, hchunk, rfl⟩ := mem_map.mp (hmem.resolve_left not_mem_nil)
  exact ⟨hchunk, rfl⟩

theorem indexVector_serves (hindexable : signal.isIndexable = true)
    (hchunks : chunksFor cfg signal = .ok chunks) (hne : chunks ≠ []) :
    (∀ op ∈ indexVector cfg replica signal chunks, op.isHandling = true ∧ Legit cfg signal op) ∧
      ∀ pending, Backed cfg signal held pending (indexVector cfg replica signal chunks) := by
  unfold indexVector
  split_ifs
  · refine ⟨fun op hop => ?_, fun pending => ?_⟩
    · simp only [cons_append, mem_cons, mem_append, not_mem_nil,
        or_false] at hop
      rcases hop with rfl | hop | rfl
      · exact ⟨rfl, trivial⟩
      · exact batches_legit hindexable hchunks _ op hop
      · exact ⟨rfl, trivial⟩
    · rw [cons_append, backed_cons rfl]
      exact batches_backed hindexable hchunks hne _ fun _ => trivial
  · exact ⟨fun op hop => absurd hop not_mem_nil, fun _ => trivial⟩

theorem indexKeyword_serves (hindexable : signal.isIndexable = true)
    (hchunks : chunksFor cfg signal = .ok chunks) (hne : chunks ≠ [])
    (hrest : ∀ pending, Backed cfg signal held pending rest) :
    (∀ op ∈ indexKeyword cfg replica signal chunks, op.isHandling = true ∧ Legit cfg signal op) ∧
      Backed cfg signal held [] (indexKeyword cfg replica signal chunks ++ rest) := by
  unfold indexKeyword
  split_ifs
  · refine ⟨fun op hop => ?_, hrest _⟩
    obtain rfl := mem_singleton.mp hop
    exact ⟨rfl, trivial⟩
  · refine ⟨fun op hop => ?_, ?_⟩
    · rcases mem_append.mp hop with hop | hop
      · exact batches_legit hindexable hchunks _ op hop
      · obtain rfl := mem_singleton.mp hop
        exact ⟨rfl, trivial⟩
    · rw [append_assoc]
      exact batches_backed hindexable hchunks hne _ hrest
  · exact ⟨fun op hop => absurd hop not_mem_nil, hrest _⟩

theorem withdraw_serves (hindexable : signal.isIndexable = false)
    (hleaves : ∀ column, leaves cfg replica signal column = true → held column = []) :
    (∀ op ∈ withdraw replica, op.isHandling = true ∧ Legit cfg signal op) ∧
      Backed cfg signal held [] (withdraw replica) := by
  have hdeletes : ∀ op ∈ (if replica.keywordIndexer then [Op.deleteSignal .keyword] else []) ++
      (if replica.vectorIndexer then [Op.deleteSignal .vector] else []),
      ∃ store, op = .deleteSignal store := by
    intro op hop
    rcases mem_append.mp hop with hop | hop <;> split_ifs at hop <;>
      first
      | exact ⟨_, mem_singleton.mp hop⟩
      | cases hop
  refine ⟨fun op hop => ?_, ?_⟩
  · rcases mem_append.mp hop with hop | hop
    · obtain ⟨store, rfl⟩ := hdeletes op hop
      exact ⟨rfl, hindexable⟩
    · obtain rfl := mem_singleton.mp hop
      exact ⟨rfl, trivial⟩
  · unfold withdraw
    rw [backed_append]
    · refine ⟨fun column _ => (reaches_of_not hindexable).mpr ?_, trivial⟩
      rw [nil_append]
      -- A store is emptied, or it had nothing.
      cases column with
      | keyword =>
        cases hk : replica.keywordIndexer with
        | false => exact .inl (hleaves _ (by simp [leaves, hindexable, hk]))
        | true => exact .inr (mem_append_left _ (by simp))
      | vector =>
        cases hv : replica.vectorIndexer with
        | false => exact .inl (hleaves _ (by simp [leaves, hindexable, hv]))
        | true => exact .inr (mem_append_right _ (by simp))
    · intro op hop
      obtain ⟨store, rfl⟩ := hdeletes op hop
      rfl

theorem handle_serves
    (hleaves : ∀ column, leaves cfg replica signal column = true → held column = []) :
    (∀ op ∈ handle cfg replica signal, op.isHandling = true) ∧
      Serves cfg held signal (handle cfg replica signal) := by
  have hspec : (∀ op ∈ handle cfg replica signal, op.isHandling = true ∧ Legit cfg signal op) ∧
      Backed cfg signal held [] (handle cfg replica signal) := by
    unfold handle
    cases hindexable : signal.isIndexable with
    | false => exact withdraw_serves replica hindexable hleaves
    | true =>
      rw [if_neg (by decide)]
      cases hchunks : chunksFor cfg signal with
      | error err =>
        refine ⟨fun op hop => ?_, trivial⟩
        obtain rfl := mem_singleton.mp hop
        exact ⟨rfl, trivial⟩
      | ok chunks =>
        cases chunks with
        | nil =>
          refine ⟨fun op hop => ?_, fun column _ => ?_, trivial⟩
          · obtain rfl := mem_singleton.mp hop
            exact ⟨rfl, trivial⟩
          · unfold Reaches
            rw [if_pos hindexable, hchunks]
            refine hleaves column ?_
            unfold leaves
            rw [if_pos hindexable, hchunks]
        | cons chunk chunks =>
          have hne : chunk :: chunks ≠ [] := cons_ne_nil _ _
          obtain ⟨hvector, hbacked⟩ := @indexVector_serves cfg signal held replica _ hindexable
            hchunks hne
          obtain ⟨hkeyword, hboth⟩ := indexKeyword_serves replica hindexable hchunks hne hbacked
          exact ⟨fun op hop => (mem_append.mp hop).elim (hkeyword op) (hvector op), hboth⟩
  exact ⟨fun op hop => (hspec.1 op hop).1, fun op hop => (hspec.1 op hop).2, hspec.2⟩

end

theorem served (hserves : Serves cfg s.stored signal (op :: rest)) (hhandling : op.isHandling = true)
    (hversions : ∀ e ∈ s.keyword, e.version ≤ signal.version) :
    Serves cfg (s.effect cfg now none op).stored signal rest := by
  -- What a handler has left once a call of it has returned.
  obtain ⟨hop, hlegit⟩ := forall_mem_cons.mp hserves.legit
  have hbacked := hserves.backed
  refine ⟨hlegit, ?_⟩
  cases op with
  | write store batch =>
    refine Backed.tail rfl (fun column pending => ?_) hbacked
    exact ((write_keeps hversions hop).2 column pending).2 rfl
  | deleteSignal store =>
    refine Backed.tail rfl (fun column pending => ?_) hbacked
    exact ((delete_keeps hversions hop).2 column pending).2 rfl
  | stamp columns => exact hbacked.2
  | embed | refuse => exact Backed.tail rfl (fun column pending h => h.without rfl) hbacked
  | _ => cases hhandling

end OmniSense.Indexing
