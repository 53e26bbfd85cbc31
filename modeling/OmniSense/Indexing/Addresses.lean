import Mathlib.Data.Rat.Init
import OmniSense.Indexing.Exact

/-! The addresses of a Signal's vectors: those that stage 6 records on the Signal, and those that
the indexing worker writes. -/

namespace OmniSense.Indexing

open Retrieval List

/-! ## Point ids -/

def SIGNAL_ID_NAMESPACE : String := "6f2a1c9e-0000-5000-8000-6f6d6e697365"

def POINT_ID_NAMESPACE : String := "6979eead-d426-5311-873b-f61c66ebd53e"

inductive StageError
  | split (error : SplitError)
  | emptySignalId
  | provider (text : String)
  | wrongCount (returned expected : ℕ)
  | wrongWidth (returned expected : ℕ)
  | invalidRef
  deriving DecidableEq

/-- `chunk_id_for`, the indexers' join key. -/
def chunkIdFor (signalId : String) (chunkIndex : ℕ) : String :=
  signalId ++ ":" ++ toString chunkIndex

/-- `chunk_id`, the splitter's. -/
def chunkId (signalId : String) (chunkIndex : ℕ) : Except StageError String :=
  if signalId = "" then .error .emptySignalId
  else .ok (signalId ++ ":" ++ toString chunkIndex)

section

-- `str(uuid.uuid5(namespace, name))`.
variable (uuid5 : String → String → String)

/-- `point_id_for` of `signal_engine/embeddings.py`. -/
def stagePointId (signalId : String) (chunkIndex : ℕ) : Except StageError String := do
  return uuid5 SIGNAL_ID_NAMESPACE (← chunkId signalId chunkIndex)

/-- `point_id_for` of `vector/indexer.py`. -/
def pointIdFor (signalId : String) (chunkIndex : ℕ) : String :=
  uuid5 POINT_ID_NAMESPACE (chunkIdFor signalId chunkIndex)

/-! ## Stage 6 -/

structure EmbeddingRef where
  model : String
  dimensions : ℕ
  chunkIndex : ℕ
  collection : String
  pointId : String
  deriving DecidableEq

/-- `EmbeddingRef(...)`, whose strings are stripped; a UUID's text has no blanks. -/
def EmbeddingRef.make (model : String) (dimensions chunkIndex : ℕ) (collection pointId : String) :
    Except StageError EmbeddingRef :=
  if strip model = "" ∨ dimensions = 0 ∨ strip collection = "" then .error .invalidRef
  else .ok ⟨strip model, dimensions, chunkIndex, strip collection, pointId⟩

structure ChunkVector where
  chunkId : String
  pointId : String
  collection : String
  chunkIndex : ℕ
  charStart : ℕ
  charEnd : ℕ
  text : List Char
  vector : List ℚ
  deriving DecidableEq

structure EmbeddingProvider where
  model : String
  dimensions : ℕ
  embed : List (List Char) → Except String (List (List ℚ))

structure EmbeddingStage where
  provider : EmbeddingProvider
  batchSize : ℕ
  collection : String
  strategy : Option ChunkStrategy := none

namespace EmbeddingStage

variable (stage : EmbeddingStage) (cfg : Settings)

def chunksOf (signal : Signal) : Except SplitError (List Chunk) :=
  splitText cfg.lower signal.text (stage.strategy.getD (strategyFor signal.source))
    cfg.maxCharsPerChunk cfg.chunkOverlapChars none

/-- `_embed`: every batch answered in full, and every vector as wide as declared. -/
def embed (chunks : List Chunk) : Except StageError (List (List ℚ)) := do
  let produced ← ((chunks.map Chunk.text).toChunks stage.batchSize).mapM fun batch => do
    let vectors ← (stage.provider.embed batch).mapError .provider
    if vectors.length ≠ batch.length then throw (.wrongCount vectors.length batch.length)
    return vectors
  match produced.flatten.find? fun vector => vector.length ≠ stage.provider.dimensions with
  | some vector => throw (.wrongWidth vector.length stage.provider.dimensions)
  | none => return produced.flatten

def record (signalId : String) (chunk : Chunk) (vector : List ℚ) :
    Except StageError (EmbeddingRef × ChunkVector) := do
  let pointId ← stagePointId uuid5 signalId chunk.index
  let ref ← EmbeddingRef.make stage.provider.model stage.provider.dimensions chunk.index
    stage.collection pointId
  let handle ← chunkId signalId chunk.index
  return (ref, ⟨handle, pointId, stage.collection, chunk.index, chunk.charStart, chunk.charEnd,
    chunk.text, vector⟩)

/-- `apply`: the Signal's refs, and what the sink collects. -/
def apply (signalId : String) (signal : Signal) :
    Except StageError (List EmbeddingRef × List ChunkVector) := do
  if signal.duplicateOf.isSome then return ([], [])
  let chunks ← (stage.chunksOf cfg signal).mapError .split
  if chunks = [] then return ([], [])
  let vectors ← stage.embed chunks
  -- `zip(.., strict=True)`.
  if vectors.length ≠ chunks.length then throw (.wrongCount vectors.length chunks.length)
  let rows ← (chunks.zip vectors).mapM fun pair => stage.record uuid5 signalId pair.1 pair.2
  return (rows.map Prod.fst, rows.map Prod.snd)

end EmbeddingStage

/-! ## What the worker writes -/

def Signal.committed (signal : Signal) (refs : List EmbeddingRef) : Signal :=
  { signal with embeddings := !refs.isEmpty }.resolved

def Op.written (store : IndexState) : Op → List Entry
  | .write target batch => if target = store then batch else []
  | _ => []

def written (store : IndexState) (ops : List Op) : List Entry := ops.flatMap (Op.written store)

abbrev Address := String × String × ℕ

def EmbeddingRef.address (ref : EmbeddingRef) : Address :=
  (ref.collection, ref.pointId, ref.chunkIndex)

def pointAddresses (collection signalId : String) (points : List Entry) : List Address :=
  points.map fun entry =>
    (collection, pointIdFor uuid5 signalId entry.chunk.index, entry.chunk.index)

end

/-- Stage 6 and the worker agree about a Signal: the recorded addresses are those of the points,
every staged vector has its keyword document, and no two chunks share a point id. -/
structure Agrees (uuid5 : String → String → String) (collection signalId : String)
    (refs : List EmbeddingRef) (staged : List ChunkVector) (ops : List Op) : Prop where
  addresses : ∀ a, a ∈ refs.map EmbeddingRef.address ↔
    a ∈ pointAddresses uuid5 collection signalId (written .vector ops)
  documents : ∀ v ∈ staged, ∃ document ∈ written .keyword ops,
    document.chunk.index = v.chunkIndex ∧ chunkIdFor signalId document.chunk.index = v.chunkId ∧
      document.chunk.charStart = v.charStart ∧ document.chunk.charEnd = v.charEnd ∧
      document.chunk.text = v.text
  points_apart : ∀ s i s' i', pointIdFor uuid5 s i = pointIdFor uuid5 s' i' → s = s' ∧ i = i'
  refs_apart : ∀ s i s' i' id, stagePointId uuid5 s i = .ok id →
    stagePointId uuid5 s' i' = .ok id → s = s' ∧ i = i'

variable {uuid5 : String → String → String} {stage : EmbeddingStage} {cfg : Settings}
  {signal : Signal} {signalId collection : String} {refs : List EmbeddingRef}
  {staged : List ChunkVector} {chunk : Chunk} {chunks : List Chunk}

/-! ## Ids -/

theorem chunkIdFor_inj {s s' : String} {i i' : ℕ} (h : chunkIdFor s i = chunkIdFor s' i') :
    s = s' ∧ i = i' := by
  have hdigits : ∀ n : ℕ, ':' ∉ (toString n).toList := by
    intro n hmem
    rw [Nat.toString_eq_repr, Nat.toList_repr] at hmem
    exact absurd (Nat.isDigit_of_mem_toDigits (by decide) (by decide) hmem) (by decide)
  have hlists : s.toList ++ ':' :: (toString i).toList =
      s'.toList ++ ':' :: (toString i').toList := by
    have hcopy := congrArg String.toList h
    unfold chunkIdFor at hcopy
    simp only [String.toList_append, append_assoc] at hcopy
    exact hcopy
  -- Behind the last colon stand the digits.
  have hsplit : ∀ {l l' r r' : List Char}, ':' ∉ r → l ++ ':' :: r = l' ++ ':' :: r' →
      ∀ x, l' = l ++ x → l = l' ∧ r = r' := by
    intro l l' r r' hr heq x hx
    rw [hx, append_assoc] at heq
    have hrest := append_cancel_left heq
    cases x with
    | nil =>
      rw [append_nil] at hx
      exact ⟨hx.symm, (List.cons.inj hrest).2⟩
    | cons c x =>
      obtain ⟨_, hr'⟩ := List.cons.inj hrest
      exact absurd (hr' ▸ mem_append_right x mem_cons_self) hr
  have hparts : s.toList = s'.toList ∧ (toString i).toList = (toString i').toList := by
    rcases append_eq_append_iff.mp hlists with ⟨x, hx, _⟩ | ⟨x, hx, _⟩
    · exact hsplit (hdigits i) hlists x hx
    · obtain ⟨hl, hr⟩ := hsplit (hdigits i') hlists.symm x hx
      exact ⟨hl.symm, hr.symm⟩
  refine ⟨String.toList_injective hparts.1, ?_⟩
  have hvalue := hparts.2
  rw [Nat.toString_eq_repr, Nat.toString_eq_repr, Nat.toList_repr, Nat.toList_repr] at hvalue
  have hread := congrArg (fun digits => Nat.ofDigitChars 10 digits 0) hvalue
  rw [Nat.ofDigitChars_ten_toDigits, Nat.ofDigitChars_ten_toDigits] at hread
  exact hread

theorem stagePointId_ok {i : ℕ} {id : String} (h : stagePointId uuid5 signalId i = .ok id) :
    id = uuid5 SIGNAL_ID_NAMESPACE (chunkIdFor signalId i) := by
  unfold stagePointId chunkId at h
  split_ifs at h
  · cases h
  · exact (Except.ok.inj h).symm

/-! ## What stage 6 records -/

structure Records (uuid5 : String → String → String) (signalId : String) (chunk : Chunk)
    (row : EmbeddingRef × ChunkVector) : Prop where
  refIndex : row.1.chunkIndex = chunk.index
  refId : row.1.pointId = uuid5 SIGNAL_ID_NAMESPACE (chunkIdFor signalId chunk.index)
  index : row.2.chunkIndex = chunk.index
  handle : row.2.chunkId = chunkIdFor signalId chunk.index
  charStart : row.2.charStart = chunk.charStart
  charEnd : row.2.charEnd = chunk.charEnd
  text : row.2.text = chunk.text

theorem record_ok {vector : List ℚ} {row : EmbeddingRef × ChunkVector}
    (h : stage.record uuid5 signalId chunk vector = .ok row) :
    Records uuid5 signalId chunk row := by
  obtain ⟨pointId, hpoint, h⟩ := Library.ok_of_bind h
  obtain ⟨ref, href, h⟩ := Library.ok_of_bind h
  obtain ⟨handle, hhandle, h⟩ := Library.ok_of_bind h
  cases h
  obtain rfl := stagePointId_ok hpoint
  unfold EmbeddingRef.make at href
  unfold chunkId at hhandle
  split_ifs at href hhandle
  cases href
  cases hhandle
  exact ⟨rfl, rfl, rfl, rfl, rfl, rfl, rfl⟩

theorem apply_ok (hcanonical : signal.duplicateOf = none)
    (h : stage.apply uuid5 cfg signalId signal = .ok (refs, staged)) :
    ∃ (chunks : List Chunk) (rows : List (EmbeddingRef × ChunkVector)),
      stage.chunksOf cfg signal = .ok chunks ∧ rows.length = chunks.length ∧
      (∀ row ∈ rows, ∃ chunk ∈ chunks, Records uuid5 signalId chunk row) ∧
      refs = rows.map Prod.fst ∧ staged = rows.map Prod.snd := by
  unfold EmbeddingStage.apply at h
  rw [hcanonical, if_neg (by decide)] at h
  obtain ⟨chunks, hchunks, h⟩ := Library.ok_of_bind h
  have hcut : stage.chunksOf cfg signal = .ok chunks := by
    cases hresult : stage.chunksOf cfg signal with
    | error e =>
      rw [hresult] at hchunks
      cases hchunks
    | ok cut =>
      rw [hresult] at hchunks
      exact congrArg Except.ok (Except.ok.inj hchunks)
  split_ifs at h with hnone
  · obtain ⟨rfl, rfl⟩ := Prod.mk.inj (Except.ok.inj h)
    exact ⟨chunks, [], hcut, by rw [hnone]; rfl, fun _ h => absurd h not_mem_nil, rfl, rfl⟩
  · obtain ⟨vectors, _, h⟩ := Library.ok_of_bind h
    split_ifs at h with hcount
    · cases h
    · obtain ⟨rows, hrows, h⟩ := Library.ok_of_bind h
      obtain ⟨rfl, rfl⟩ := Prod.mk.inj (Except.ok.inj h)
      have hall := Library.ok_of_mapM hrows
      refine ⟨chunks, rows, hcut, ?_, fun row hrow => ?_, rfl, rfl⟩
      · rw [← hall.length_eq, length_zip, not_ne_iff.mp hcount, min_self]
      · obtain ⟨pair, hpair, hrecord⟩ := Library.forall₂_mem_right hall row hrow
        exact ⟨pair.1, (of_mem_zip hpair).1, record_ok hrecord⟩

theorem chunksFor_committed : chunksFor cfg (signal.committed refs) = chunksFor cfg signal := by
  unfold Signal.committed Signal.resolved
  split_ifs <;> rfl

theorem chunksOf_default (h : stage.strategy = none) :
    stage.chunksOf cfg signal = chunksFor cfg signal := by
  unfold EmbeddingStage.chunksOf
  rw [h]
  rfl

/-! ## What the worker writes -/

theorem written_withdraw (store : IndexState) (replica : Replica) :
    written store (withdraw replica) = [] := by
  unfold withdraw
  cases replica.keywordIndexer <;> cases replica.vectorIndexer <;> rfl

theorem written_writes (store target : IndexState) (groups : List (List Entry)) :
    written store (groups.map (Op.write target)) =
      if target = store then groups.flatten else [] := by
  unfold written
  induction groups with
  | nil => split_ifs <;> rfl
  | cons group groups ih =>
    have hfirst : Op.written store (.write target group) =
        if target = store then group else [] := rfl
    rw [map_cons, flatMap_cons, ih, hfirst]
    split_ifs <;> rfl

theorem written_keyword (hindexable : signal.isIndexable = true) (hversion : 1 ≤ signal.version)
    (hchunks : chunksFor cfg signal = .ok chunks) :
    written .keyword (handle cfg fullReplica signal) = entries signal chunks := by
  unfold handle
  rw [hindexable, hchunks]
  cases chunks with
  | nil => rfl
  | cons chunk rest =>
    have hvector : written .keyword (indexVector cfg fullReplica signal (chunk :: rest)) = [] := by
      unfold indexVector
      split_ifs
      · have hwrites := written_writes .keyword .vector
          (batches cfg.upsertBatchSize [] (entries signal (chunk :: rest)))
        unfold written at hwrites ⊢
        rw [cons_append, flatMap_cons, flatMap_append, hwrites]
        rfl
      · rfl
    have hkeyword : written .keyword (indexKeyword cfg fullReplica signal (chunk :: rest)) =
        entries signal (chunk :: rest) := by
      have hwrites := written_writes .keyword .keyword
        (batches cfg.bulkBatchSize [] (entries signal (chunk :: rest)))
      have hops : indexKeyword cfg fullReplica signal (chunk :: rest) =
          (batches cfg.bulkBatchSize [] (entries signal (chunk :: rest))).map (.write .keyword) ++
            [.stamp [.keyword]] := by
        unfold indexKeyword
        rw [if_pos (by rfl), if_neg (not_lt.mpr hversion)]
      rw [if_pos rfl, batches_flatten, nil_append] at hwrites
      unfold written at hwrites ⊢
      rw [hops, flatMap_append, hwrites]
      exact append_nil _
    change written .keyword (indexKeyword cfg fullReplica signal (chunk :: rest) ++
      indexVector cfg fullReplica signal (chunk :: rest)) = _
    unfold written at hkeyword hvector ⊢
    rw [flatMap_append, hkeyword, hvector, append_nil]

/-- **The addresses of stage 6 are those of the worker's points** only where there are none: the two
derive their point ids in different namespaces. -/
theorem addresses_recorded_iff (uuid5 : String → String → String)
    (hinj : ∀ ns name name', uuid5 ns name = uuid5 ns name' → name = name')
    (hapart : ∀ name, uuid5 SIGNAL_ID_NAMESPACE name ≠ uuid5 POINT_ID_NAMESPACE name)
    (cfg : Settings) (stage : EmbeddingStage) (hstrategy : stage.strategy = none)
    (signal : Signal) (signalId : String)
    (hgeometry : ValidGeometry (strategyFor signal.source) cfg.maxCharsPerChunk
      cfg.chunkOverlapChars none)
    (hcanonical : signal.duplicateOf = none) (refs : List EmbeddingRef) (staged : List ChunkVector)
    (happly : stage.apply uuid5 cfg signalId signal = .ok (refs, staged)) :
    Agrees uuid5 stage.collection signalId refs staged
        (handle cfg fullReplica (signal.committed refs)) ↔ signal.text.all isSpace = true := by
  obtain ⟨chunks, rows, hchunks, hlength, hrows, rfl, rfl⟩ := apply_ok hcanonical happly
  rw [chunksOf_default hstrategy] at hchunks
  rw [← splitText_nil_iff hgeometry hchunks]
  constructor
  · intro h
    by_contra hne
    cases rows with
    | nil => exact hne (length_eq_zero_iff.mp hlength.symm)
    | cons row rows =>
      obtain ⟨chunk, _, hrecords⟩ := hrows row mem_cons_self
      have hrecorded := (h.addresses row.1.address).mp (mem_map_of_mem mem_cons_self)
      obtain ⟨entry, _, hentry⟩ := mem_map.mp hrecorded
      have hid : pointIdFor uuid5 signalId entry.chunk.index = row.1.pointId :=
        congrArg (fun address : Address => address.2.1) hentry
      have hindex : entry.chunk.index = row.1.chunkIndex :=
        congrArg (fun address : Address => address.2.2) hentry
      -- The two ids have the same name.
      rw [hrecords.refId, hindex, hrecords.refIndex] at hid
      exact hapart _ hid.symm
  · rintro rfl
    obtain rfl := length_eq_zero_iff.mp hlength
    have hnothing : ∀ store refs,
        written store (handle cfg fullReplica (signal.committed refs)) = [] := by
      intro store refs
      unfold handle
      rw [chunksFor_committed, hchunks]
      split_ifs
      · exact written_withdraw store fullReplica
      · rfl
    refine ⟨fun a => ?_, fun v hv => absurd hv not_mem_nil, fun s i s' i' h => ?_,
      fun s i s' i' id h h' => ?_⟩
    · rw [hnothing]
      exact Iff.rfl
    · exact chunkIdFor_inj (hinj _ _ _ h)
    · rw [stagePointId_ok h] at h'
      exact chunkIdFor_inj (hinj _ _ _ (stagePointId_ok h'))

/-! ## A Signal of one chunk -/

namespace Addressed

def chunkName : String := chunkIdFor "sig_0123456789abcdef0123456789abcdef" 0

/-- What `uuid5` gives for that id; other names keep their namespace. -/
def ids (ns name : String) : String :=
  if name = chunkName ∧ ns = SIGNAL_ID_NAMESPACE then "198349c4-84d9-5eb6-bfda-1b646cb079ba"
  else if name = chunkName ∧ ns = POINT_ID_NAMESPACE then "d7f7026e-cdaf-5a8e-9519-561c4fb8d6a8"
  else ns ++ "/" ++ name

theorem ids_inj (ns name name' : String) (h : ids ns name = ids ns name') : name = name' := by
  have hslash : ∀ id other : String, '/' ∉ id.toList → id ≠ ns ++ "/" ++ other := by
    rintro id other hmem rfl
    refine hmem ?_
    rw [String.toList_append, String.toList_append]
    exact mem_append_left _ (mem_append_right _ mem_cons_self)
  have hsignal := fun other => hslash "198349c4-84d9-5eb6-bfda-1b646cb079ba" other (by decide)
  have hpoint := fun other => hslash "d7f7026e-cdaf-5a8e-9519-561c4fb8d6a8" other (by decide)
  have hother : ∀ a b, b ≠ chunkName → ids ns a = ids ns b → a = b := by
    intro a b hb heq
    have hplain : ids ns b = ns ++ "/" ++ b := by
      unfold ids
      rw [if_neg fun hs => hb hs.1, if_neg fun hs => hb hs.1]
    rw [hplain] at heq
    unfold ids at heq
    split_ifs at heq
    · exact absurd heq (hsignal b)
    · exact absurd heq (hpoint b)
    · exact (String.append_right_inj _).mp heq
  by_cases hn : name = chunkName
  · by_cases hn' : name' = chunkName
    · exact hn.trans hn'.symm
    · exact hother name name' hn' h
  · exact (hother name' name hn h.symm).symm

theorem ids_apart (name : String) :
    ids SIGNAL_ID_NAMESPACE name ≠ ids POINT_ID_NAMESPACE name := by
  have hne : SIGNAL_ID_NAMESPACE ≠ POINT_ID_NAMESPACE := by decide
  unfold ids
  by_cases h : name = chunkName
  · rw [if_pos ⟨h, rfl⟩, if_neg fun hs => hne hs.2.symm, if_pos ⟨h, rfl⟩]
    decide
  · rw [if_neg fun hs => h hs.1, if_neg fun hs => h hs.1, if_neg fun hs => h hs.1,
      if_neg fun hs => h hs.1]
    intro heq
    exact hne ((String.append_left_inj _).mp ((String.append_left_inj _).mp heq))

def sampleStage : EmbeddingStage where
  provider := ⟨"text-embedding", 2, fun texts => .ok (texts.map fun _ => [1, 0])⟩
  batchSize := 4
  collection := "signals"

def oneChunk : Signal := sampleSignal "Acme rose." 1

def oneChunkRefs : List EmbeddingRef :=
  [⟨"text-embedding", 2, 0, "signals", "198349c4-84d9-5eb6-bfda-1b646cb079ba"⟩]

def oneChunkStaged : List ChunkVector :=
  [⟨chunkName, "198349c4-84d9-5eb6-bfda-1b646cb079ba", "signals", 0, 0, 10, "Acme rose.".toList,
    [1, 0]⟩]

theorem applied : sampleStage.apply ids sampleSettings "sig_0123456789abcdef0123456789abcdef"
    oneChunk = .ok (oneChunkRefs, oneChunkStaged) := by
  decide

end Addressed

theorem addresses_recorded_one_chunk :
    Addressed.sampleStage.apply Addressed.ids sampleSettings "sig_0123456789abcdef0123456789abcdef"
      Addressed.oneChunk = .ok (Addressed.oneChunkRefs, Addressed.oneChunkStaged) ∧
    (Agrees Addressed.ids "signals" "sig_0123456789abcdef0123456789abcdef" Addressed.oneChunkRefs
        Addressed.oneChunkStaged (handle sampleSettings fullReplica
          (Addressed.oneChunk.committed Addressed.oneChunkRefs)) ↔
      "Acme rose.".toList.all isSpace = true) :=
  ⟨Addressed.applied, addresses_recorded_iff Addressed.ids Addressed.ids_inj Addressed.ids_apart
    sampleSettings Addressed.sampleStage rfl Addressed.oneChunk _
    ⟨by decide, by decide, by decide, by decide, by simp⟩ rfl _ _ Addressed.applied⟩

/-- The point is in the store under another id than the one on the Signal. -/
theorem one_chunk_misaddressed : ¬Agrees Addressed.ids "signals"
    "sig_0123456789abcdef0123456789abcdef" Addressed.oneChunkRefs Addressed.oneChunkStaged
      (handle sampleSettings fullReplica (Addressed.oneChunk.committed Addressed.oneChunkRefs)) := by
  intro h
  have hpoints : pointAddresses Addressed.ids "signals" "sig_0123456789abcdef0123456789abcdef"
      (written .vector (handle sampleSettings fullReplica
        (Addressed.oneChunk.committed Addressed.oneChunkRefs))) =
      [("signals", "d7f7026e-cdaf-5a8e-9519-561c4fb8d6a8", 0)] := by
    decide
  have hrecorded := (h.addresses ("signals", "198349c4-84d9-5eb6-bfda-1b646cb079ba", 0)).mp
    mem_cons_self
  rw [hpoints] at hrecorded
  exact absurd hrecorded (by decide)

end OmniSense.Indexing
