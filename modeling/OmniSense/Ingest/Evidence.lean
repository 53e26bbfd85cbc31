import OmniSense.Ingest.Counting

/-! Runs of the batcher. Rows that are counted but still buffered are followed as a ghost, and a
run counts every accepted row once as long as the replay guard fires exactly on those. -/

namespace OmniSense.Ingest

open Library List GraphWrite

/-! ## One transaction -/

/-- The counter moved to this batch: by what its rows add up to, unless it was there already. -/
structure Counted (dg : Digest) (items : List GraphWrite) (s s' : Store) (k : CountKey) : Prop where
  batch : s'.lastBatch k = some (batchIdFor dg (.of items))
  count : s'.count k = s.count k +
    if s.lastBatch k = some (batchIdFor dg (.of items)) then 0 else totalDelta dg k items

structure Kept (s s' : Store) (k : CountKey) : Prop where
  batch : s'.lastBatch k = s.lastBatch k
  count : s'.count k = s.count k

variable {w : Writer} {items : List GraphWrite}

abbrev committed (w : Writer) (items : List GraphWrite) (s : Store) : Store :=
  w.commitPlan ((GraphBatch.of items).plan w.digest) s

theorem edgeRowsOf_weight (hsep : KeysSeparate w.digest items) {r : EdgeRef}
    (h : Touches w.digest items (.edge r)) :
    ((edgeRowsOf w.digest (items.filterMap asEdge) r.group).get? r.key).elim 0
      EdgeRow.newEvidence = totalDelta w.digest (.edge r) items := by
  obtain ⟨e, he, rfl⟩ := touches_edge_iff.mp h
  have hweight : ((edgeRowsOf w.digest (items.filterMap asEdge)
      (e.ref w.digest).group).get? (e.ref w.digest).key).elim 0 EdgeRow.newEvidence =
        ((((items.filterMap asEdge).filter fun x => x.group = (e.ref w.digest).group).filter
          fun x => x.key w.digest = (e.ref w.digest).key).map
            fun x => (x.toRow w.digest).newEvidence).sum := groupInto_weight (fun _ _ => rfl) _ _
  rw [hweight, totalDelta_edge, filter_filter]
  have hfilter : ((items.filterMap asEdge).filter fun x =>
      decide (x.key w.digest = (e.ref w.digest).key) && decide (x.group = (e.ref w.digest).group)) =
      (items.filterMap asEdge).filter fun x => x.ref w.digest = e.ref w.digest := by
    refine filter_congr fun x hx => ?_
    rw [← Bool.decide_and, decide_eq_decide]
    constructor
    · rintro ⟨hkey, hgroup⟩
      exact hsep x e (mem_asEdge_iff.mp hx) (mem_asEdge_iff.mp he) hgroup hkey
    · intro href
      exact ⟨congrArg EdgeRef.key href, congrArg EdgeRef.group href⟩
  rw [hfilter]
  rfl

variable (s : Store) {dg : Digest} {f : Flight}

theorem committed_node (r : NodeRef) : (Touches w.digest items (.node r) →
      Counted w.digest items s (committed w items s) (.node r)) ∧
    (¬Touches w.digest items (.node r) → Kept s (committed w items s) (.node r)) := by
  obtain ⟨t, id⟩ := r
  have happly : (committed w items s).nodes (t, id) = _ :=
    runNodes_apply w (batchIdFor w.digest (.of items)) (items.filterMap asNode)
      s.nodes t id
  have hsome := nodeRowsOf_isSome w.digest items t id
  have hweight := nodeRowsOf_weight w.digest items t id
  cases hg : (nodeRowsOf (items.filterMap asNode) t).get? id with
  | none =>
    rw [hg] at happly hsome
    refine ⟨fun h => absurd (hsome.mpr h) (by simp), fun _ => ⟨?_, ?_⟩⟩
    · exact congrArg (fun o => o.bind NodeRecord.lastBatchId) happly
    · exact congrArg (fun o => o.elim 0 NodeRecord.sourceCount) happly
  | some row =>
    rw [hg] at happly hsome hweight
    refine ⟨fun _ => ⟨?_, ?_⟩, fun h => absurd (hsome.mp rfl) h⟩
    · exact congrArg (fun o => o.bind NodeRecord.lastBatchId) happly
    · rw [← hweight]
      exact congrArg (fun o => o.elim 0 NodeRecord.sourceCount) happly

theorem verify_matches {s : Store} (h : ((GraphBatch.of items).plan w.digest).verify (.of items)
      (committed w items s) = .ok ()) {g : EdgeGroup} {key : String} {row : EdgeRow}
    (hrow : (edgeRowsOf w.digest (items.filterMap asEdge) g).get? key = some row) :
    (committed w items s).matchesEnds g row := by
  -- The endpoints an edge statement looks for are those the transaction leaves behind.
  obtain ⟨-, e, he, href⟩ := edgeRowsOf_source hrow
  have hg : g ∈ edgeGroups (items.filterMap asEdge) :=
    mem_edgeGroups.mpr ⟨e, he, congrArg EdgeRef.group href⟩
  unfold WritePlan.verify at h
  split at h
  · next hnone =>
    have hall := List.find?_eq_none.mp hnone _ (mem_map_of_mem hg)
    simp only [ne_eq, decide_not, Bool.not_eq_true', decide_eq_false_iff_not, not_not] at hall
    refine countP_eq_length.mp hall row ?_
    rw [mem_insertionSort]
    exact mem_map.mpr ⟨(key, row), Dict.mem_items_iff.mpr hrow, rfl⟩
  · cases h

theorem committed_edges {s : Store} {r : EdgeRef} (h : ¬Touches w.digest items (.edge r)) :
    (committed w items s).edges r = s.edges r := by
  have happly : (committed w items s).edges r = _ :=
    runEdges_apply w _ _ (items.filterMap asEdge) r
  cases hg : (edgeRowsOf w.digest (items.filterMap asEdge) r.group).get? r.key with
  | none =>
    rw [hg] at happly
    exact happly
  | some row =>
    obtain ⟨-, e, he, href⟩ := edgeRowsOf_source hg
    have hrow : row.ref r.group ≠ r := fun heq =>
      h (touches_edge_iff.mpr ⟨e, he, href.trans heq⟩)
    rw [hg] at happly
    simp only [hrow, false_and, if_false] at happly
    exact happly

theorem committed_edge (hsep : KeysSeparate w.digest items) (r : EdgeRef) :
    (Touches w.digest items (.edge r) →
      Counted w.digest items s (committed w items s) (.edge r) ∨
        Kept s (committed w items s) (.edge r) ∧
          ((GraphBatch.of items).plan w.digest).verify (.of items) (committed w items s) ≠ .ok ()) ∧
    (¬Touches w.digest items (.edge r) → Kept s (committed w items s) (.edge r)) := by
  set edges := items.filterMap asEdge with hedges
  have happly : (committed w items s).edges r = _ := runEdges_apply w _ _ edges r
  have hkept : (committed w items s).edges r = s.edges r →
      Kept s (committed w items s) (.edge r) := fun h =>
    ⟨congrArg (fun o => o.bind EdgeRecord.lastBatchId) h,
      congrArg (fun o => o.elim 0 EdgeRecord.evidenceCount) h⟩
  cases hg : (edgeRowsOf w.digest edges r.group).get? r.key with
  | none =>
    rw [hg] at happly
    refine ⟨fun h => ?_, fun h => hkept (committed_edges h)⟩
    obtain ⟨e, he, rfl⟩ := touches_edge_iff.mp h
    have hsome : ((edgeRowsOf w.digest edges e.group).get? (e.key w.digest)).isSome :=
      groupInto_isSome.mpr ⟨e, mem_filter.mpr ⟨he, by simp⟩, rfl⟩
    rw [show (edgeRowsOf w.digest edges e.group).get? (e.key w.digest) = none from hg] at hsome
    cases hsome
  | some row =>
    rw [hg] at happly
    replace happly : (committed w items s).edges r =
        if row.ref r.group = r ∧ (committed w items s).matchesEnds r.group row then
          some (w.setEdge (batchIdFor w.digest (.of items)) r.group.edgeType row (s.edges r))
        else s.edges r := happly
    obtain ⟨hkey, e, he, href⟩ := edgeRowsOf_source hg
    refine ⟨fun h => ?_, fun h => hkept (committed_edges h)⟩
    have hrow : row.ref r.group = r := by
      obtain ⟨e', he', rfl⟩ := touches_edge_iff.mp h
      rw [← href]
      exact hsep e e' (mem_asEdge_iff.mp he) (mem_asEdge_iff.mp he') (congrArg EdgeRef.group href)
        ((congrArg EdgeRef.key href).trans hkey)
    by_cases hmatch : (committed w items s).matchesEnds r.group row
    · left
      simp only [hrow, hmatch, and_self, if_true] at happly
      have hweight := edgeRowsOf_weight hsep h
      rw [← hedges, hg] at hweight
      refine ⟨congrArg (fun o => o.bind EdgeRecord.lastBatchId) happly, ?_⟩
      rw [← hweight]
      exact congrArg (fun o => o.elim 0 EdgeRecord.evidenceCount) happly
    · right
      simp only [hmatch, Bool.false_eq_true, and_false, if_false] at happly
      exact ⟨hkept happly, fun hok => hmatch (verify_matches hok hg)⟩

theorem committed_spec (hsep : KeysSeparate w.digest items) (k : CountKey) :
    (Touches w.digest items k →
      Counted w.digest items s (committed w items s) k ∨
        Kept s (committed w items s) k ∧
          ((GraphBatch.of items).plan w.digest).verify (.of items) (committed w items s) ≠ .ok ()) ∧
    (¬Touches w.digest items k → Kept s (committed w items s) k) := by
  cases k with
  | node r => exact ⟨fun h => .inl ((committed_node s r).1 h), (committed_node s r).2⟩
  | edge r => exact committed_edge s hsep r

/-! ## Runs -/

/-- A run of the batcher with its ghosts: the rows accepted so far, those that completed flushes
removed, and those still buffered that a committed transaction has counted. -/
structure Trace where
  system : System
  accepted : List GraphWrite
  written : List GraphWrite
  counted : List GraphWrite

def Trace.start (s : Store) : Trace := ⟨⟨.new, s, []⟩, [], [], []⟩

def stamped (w : Writer) (items : List GraphWrite) (s : Store) : List GraphWrite :=
  items.filter fun x => (x.countKey w.digest).bind s.lastBatch =
    some (batchIdFor w.digest (.of items))

namespace Trace

variable (cfg : BatcherConfig) (w : Writer)

def step (t : Trace) (e : Event) : Trace :=
  let system := t.system.step cfg w e
  match e with
  | .submit item now =>
    { t with
      system := system
      accepted :=
        if (t.system.batcher.submit cfg now item).2 = .accepted then t.accepted ++ [item]
        else t.accepted }
  | .attempt tx _ =>
    match t.system.batcher.flight with
    | none => { t with system := system }
    | some f =>
      match w.apply (.of f.take) tx t.system.store with
      | (_, .ok _) => { t with system := system, written := t.written ++ f.take, counted := [] }
      | (store, .error _) =>
        { t with
          system := system
          counted := if tx.commits then stamped w f.take store else t.counted }
  | .cancel tx =>
    match t.system.batcher.flight with
    | none => { t with system := system }
    | some f =>
      { t with
        system := system
        counted := if tx.commits then stamped w f.take system.store else t.counted }
  | _ => { t with system := system }

def rowsOf (dg : Digest) (k : CountKey) (items : List GraphWrite) : List GraphWrite :=
  items.filter fun x => x.countKey dg = some k

/-- A transaction that commits meets the replay guard as it should: each node or edge it touches
either carries this batch's id and has all of its rows in the batch counted already, or carries
another id and has none of them counted. -/
def Guarded (t : Trace) : Event → Prop
  | .attempt tx _ | .cancel tx => tx.commits → ∀ f ∈ t.system.batcher.flight,
    ∀ k, Touches w.digest f.take k →
      (t.system.store.lastBatch k = some (batchIdFor w.digest (.of f.take)) ∧
        rowsOf w.digest k t.counted = rowsOf w.digest k f.take) ∨
      (t.system.store.lastBatch k ≠ some (batchIdFor w.digest (.of f.take)) ∧
        rowsOf w.digest k t.counted = [])
  | _ => True

def DeadLetters (t : Trace) : Event → Prop
  | .attempt tx _ => cfg.deadLetter ∧ ∃ f ∈ t.system.batcher.flight, cfg.maxAttempts ≤ f.attempt ∧
    ∃ err, (w.apply (.of f.take) tx t.system.store).2 = .error err
  | _ => False

end Trace

theorem totalDelta_congr {k : CountKey} {xs ys : List GraphWrite}
    (h : Trace.rowsOf dg k xs = Trace.rowsOf dg k ys) : totalDelta dg k xs = totalDelta dg k ys :=
  congrArg (fun rows => (rows.map delta).sum) h

theorem stamped_subset : stamped w items s ⊆ items := filter_subset_self _

theorem totalDelta_stamped (k : CountKey) : totalDelta w.digest k (stamped w items s) =
      if s.lastBatch k = some (batchIdFor w.digest (.of items)) then totalDelta w.digest k items
      else 0 := by
  unfold totalDelta stamped
  rw [filter_filter]
  split_ifs with h
  · have hsame : (items.filter fun x => decide (x.countKey w.digest = some k) &&
        decide ((x.countKey w.digest).bind s.lastBatch =
          some (batchIdFor w.digest (.of items)))) =
        items.filter fun x => x.countKey w.digest = some k := by
      refine filter_congr fun x _ => ?_
      by_cases hk : x.countKey w.digest = some k <;> simp [hk, h]
    rw [hsame]
  · have hnone : (items.filter fun x => decide (x.countKey w.digest = some k) &&
        decide ((x.countKey w.digest).bind s.lastBatch =
          some (batchIdFor w.digest (.of items)))) = [] := by
      rw [filter_eq_nil_iff]
      intro x _ hx
      rw [Bool.and_eq_true, decide_eq_true_eq, decide_eq_true_eq] at hx
      rw [hx.1] at hx
      exact h hx.2
    rw [hnone]
    rfl

theorem not_touches_of_isEmpty (h : ((GraphBatch.of items).plan dg).isEmpty)
    (k : CountKey) : ¬Touches dg items k := by
  obtain ⟨hnodes, -, hedges⟩ := h
  intro htouch
  cases k with
  | node r =>
    obtain ⟨row, hrow⟩ := Option.isSome_iff_exists.mp
      ((nodeRowsOf_isSome dg items r.1 r.2).mpr htouch)
    have happly := runNodes_apply ⟨nodeSchema fun _ => [], dg, 0⟩ ""
      (items.filterMap asNode) (fun _ => none) r.1 r.2
    rw [hrow, show groupNodes (items.filterMap asNode) = [] from
      isEmpty_iff.mp hnodes] at happly
    cases happly
  | edge r =>
    obtain ⟨e, he, rfl⟩ := touches_edge_iff.mp htouch
    have hmem : e.group ∈ edgeGroups (items.filterMap asEdge) :=
      mem_edgeGroups.mpr ⟨e, he, rfl⟩
    have hnil : groupEdges dg (items.filterMap asEdge) = [] :=
      isEmpty_iff.mp hedges
    rw [groupEdges, map_eq_nil_iff] at hnil
    rw [hnil] at hmem
    cases hmem

theorem apply_cases (w : Writer) (items : List GraphWrite) (tx : TxOutcome) (s : Store) :
    ((∀ k, ¬Touches w.digest items k) ∧ ∃ o, w.apply (.of items) tx s = (s, .ok o)) ∨
    (tx.commits = false ∧ ∃ err, w.apply (.of items) tx s = (s, .error err)) ∨
    (tx.commits = true ∧ (w.apply (.of items) tx s).1 = committed w items s ∧
      ∀ o, (w.apply (.of items) tx s).2 = .ok o →
        ((GraphBatch.of items).plan w.digest).verify (.of items) (committed w items s) = .ok ()) := by
  -- What `apply` can do: nothing on an empty batch, nothing on a rollback, else commit.
  by_cases hempty : ((GraphBatch.of items).plan w.digest).isEmpty
  · exact .inl ⟨not_touches_of_isEmpty hempty, _, if_pos hempty⟩
  refine .inr ?_
  have happly : w.apply (.of items) tx s = _ := if_neg hempty
  rw [happly]
  cases tx with
  | rolledBack => exact .inl ⟨rfl, _, rfl⟩
  | unacknowledged => exact .inr ⟨rfl, rfl, fun _ h => by cases h⟩
  | answered =>
    refine .inr ⟨rfl, rfl, fun o h => ?_⟩
    change Except.map _ (WritePlan.verify _ _ (committed w items s)) = _ at h
    cases hv : ((GraphBatch.of items).plan w.digest).verify (.of items) (committed w items s) with
    | ok _ => rfl
    | error err =>
      rw [hv] at h
      cases h

def Trace.CountsExactly (dg : Digest) (s₀ : Store) (t : Trace) : Prop :=
  ∀ k, t.system.store.count k =
    s₀.count k + totalDelta dg k t.written + totalDelta dg k t.counted

structure Trace.Sound (cfg : BatcherConfig) (dg : Digest) (s₀ : Store) (t : Trace) : Prop where
  counts : t.CountsExactly dg s₀
  rows : t.accepted = t.written ++ t.system.batcher.buffer
  flight : ∀ f ∈ t.system.batcher.flight,
    f.take <+: t.system.batcher.buffer.take cfg.maxBatchRows ∧ t.counted ⊆ f.take
  idle : t.system.batcher.flight = none →
    t.counted ⊆ t.system.batcher.buffer.take cfg.maxBatchRows

variable {cfg : BatcherConfig} {s₀ : Store} {t : Trace}

theorem Trace.start_sound (dg : Digest) (s₀ : Store) : (Trace.start s₀).Sound cfg dg s₀ :=
  ⟨fun _ => rfl, rfl, by simp [Trace.start, Batcher.new], fun _ => nil_subset _⟩

theorem Counted.count_eq {s s' : Store} {k : CountKey} {written counted : List GraphWrite}
    (h : Counted w.digest items s s' k)
    (hcount : s.count k = s₀.count k + totalDelta w.digest k written + totalDelta w.digest k counted)
    (hguard : (s.lastBatch k = some (batchIdFor w.digest (.of items)) ∧
        Trace.rowsOf w.digest k counted = Trace.rowsOf w.digest k items) ∨
      (s.lastBatch k ≠ some (batchIdFor w.digest (.of items)) ∧
        Trace.rowsOf w.digest k counted = [])) :
    s'.count k = s₀.count k + totalDelta w.digest k written + totalDelta w.digest k items := by
  -- The guard, met as it should be, leaves a touched counter with all the rows of the batch.
  rw [h.count, hcount]
  rcases hguard with ⟨hid, hrows⟩ | ⟨hid, hrows⟩
  · rw [if_pos hid, totalDelta_congr hrows, add_zero]
  · have hzero : totalDelta w.digest k counted = totalDelta w.digest k [] :=
      totalDelta_congr hrows
    rw [if_neg hid, hzero]
    rfl

section

variable {f : Flight} (hf : f ∈ t.system.batcher.flight)
  (hguard : ∀ k, Touches w.digest f.take k →
    (t.system.store.lastBatch k = some (batchIdFor w.digest (.of f.take)) ∧
      Trace.rowsOf w.digest k t.counted = Trace.rowsOf w.digest k f.take) ∨
    (t.system.store.lastBatch k ≠ some (batchIdFor w.digest (.of f.take)) ∧
      Trace.rowsOf w.digest k t.counted = []))
  (hsep : KeysSeparate w.digest f.take) (hs : t.Sound cfg w.digest s₀)
include hf hguard hsep hs

theorem Trace.Sound.count_stamped (k : CountKey) :
    (committed w f.take t.system.store).count k = s₀.count k + totalDelta w.digest k t.written +
      totalDelta w.digest k (stamped w f.take (committed w f.take t.system.store)) := by
  rw [totalDelta_stamped]
  obtain ⟨htouch, hmiss⟩ := committed_spec (w := w) t.system.store hsep k
  by_cases hk : Touches w.digest f.take k
  · rcases htouch hk with hcounted | ⟨hkept, -⟩
    · rw [if_pos hcounted.batch]
      exact hcounted.count_eq (hs.counts k) (hguard k hk)
    · rw [hkept.count, hkept.batch, hs.counts k]
      rcases hguard k hk with ⟨hid, hrows⟩ | ⟨hid, hrows⟩
      · rw [if_pos hid, totalDelta_congr hrows]
      · have hzero : totalDelta w.digest k t.counted = totalDelta w.digest k [] :=
          totalDelta_congr hrows
        rw [if_neg hid, hzero]
        rfl
  · rw [(hmiss hk).count, hs.counts k, totalDelta_eq_zero_of_subset (hs.flight f hf).2 hk,
      totalDelta_of_not_touches hk, ite_self]

theorem Trace.Sound.count_verified (hok : ((GraphBatch.of f.take).plan w.digest).verify (.of f.take)
      (committed w f.take t.system.store) = .ok ()) (k : CountKey) :
    (committed w f.take t.system.store).count k =
      s₀.count k + totalDelta w.digest k t.written + totalDelta w.digest k f.take := by
  obtain ⟨htouch, hmiss⟩ := committed_spec (w := w) t.system.store hsep k
  by_cases hk : Touches w.digest f.take k
  · rcases htouch hk with hcounted | ⟨-, hbad⟩
    · exact hcounted.count_eq (hs.counts k) (hguard k hk)
    · exact absurd hok hbad
  · rw [(hmiss hk).count, hs.counts k, totalDelta_eq_zero_of_subset (hs.flight f hf).2 hk,
      totalDelta_of_not_touches hk]

end

theorem KeysSeparate.subset {xs ys : List GraphWrite} (h : KeysSeparate dg ys)
    (hsub : xs ⊆ ys) : KeysSeparate dg xs :=
  fun e e' he he' => h e e' (hsub he) (hsub he')

theorem submit_buffer (cfg : BatcherConfig) (now : ℚ) (item : GraphWrite) (b : Batcher) :
    (b.submit cfg now item).1.flight = b.flight ∧
      (b.submit cfg now item).1.buffer =
        if (b.submit cfg now item).2 = .accepted then b.buffer ++ [item] else b.buffer := by
  unfold Batcher.submit
  split_ifs <;> simp_all

theorem Trace.Sound.submit (hs : t.Sound cfg w.digest s₀) (item : GraphWrite) (now : ℚ) :
    (t.step cfg w (.submit item now)).Sound cfg w.digest s₀ := by
  obtain ⟨hflight, hbuffer⟩ := submit_buffer cfg now item t.system.batcher
  have htaken : t.system.batcher.buffer.take cfg.maxBatchRows <+:
      (t.system.batcher.submit cfg now item).1.buffer.take cfg.maxBatchRows := by
    rw [hbuffer]
    split_ifs
    · refine prefix_take_iff.mpr ⟨?_, length_take_le _ _⟩
      exact ( take_prefix _ _).trans (prefix_append _ _)
    · exact prefix_rfl
  refine ⟨hs.counts, ?_, ?_, ?_⟩
  · change (if (t.system.batcher.submit cfg now item).2 = .accepted then t.accepted ++ [item]
      else t.accepted) = t.written ++ (t.system.batcher.submit cfg now item).1.buffer
    rw [hbuffer, hs.rows]
    split_ifs
    · rw [append_assoc]
    · rfl
  · intro f hf
    have hf : f ∈ t.system.batcher.flight := hflight ▸ hf
    exact ⟨(hs.flight f hf).1.trans htaken, (hs.flight f hf).2⟩
  · intro hnone
    exact List.Subset.trans (hs.idle (hflight ▸ hnone)) htaken.subset

theorem Trace.Sound.flush (hs : t.Sound cfg w.digest s₀) :
    (t.step cfg w .flush).Sound cfg w.digest s₀ := by
  by_cases hgo : t.system.batcher.flight.isNone ∧ ¬t.system.batcher.buffer.isEmpty
  · have hbegin : t.system.batcher.beginFlush cfg = _ := if_pos hgo
    refine ⟨hs.counts, ?_, ?_, ?_⟩
    · change t.accepted = t.written ++ (t.system.batcher.beginFlush cfg).buffer
      rw [hbegin]
      exact hs.rows
    · intro f hf
      change f ∈ (t.system.batcher.beginFlush cfg).flight at hf
      change f.take <+: (t.system.batcher.beginFlush cfg).buffer.take _ ∧ _
      rw [hbegin] at hf ⊢
      cases hf
      exact ⟨prefix_rfl, hs.idle (Option.isNone_iff_eq_none.mp hgo.1)⟩
    · intro hnone
      change (t.system.batcher.beginFlush cfg).flight = none at hnone
      rw [hbegin] at hnone
      cases hnone
  · have hstay : t.system.batcher.beginFlush cfg = t.system.batcher := if_neg hgo
    have hsame : t.step cfg w .flush = t := by
      change { t with system := { t.system with batcher := t.system.batcher.beginFlush cfg } } = t
      rw [hstay]
    rwa [hsame]

theorem Trace.Sound.release (hs : t.Sound cfg w.digest s₀)
    (hf : f ∈ t.system.batcher.flight) {store : Store} {counted : List GraphWrite}
    (hcounted : counted ⊆ f.take)
    (hcount : ∀ k, store.count k =
      s₀.count k + totalDelta w.digest k t.written + totalDelta w.digest k counted)
    (flight : Option Flight) (hflight : ∀ f' ∈ flight, f'.take = f.take) :
    (⟨⟨{ t.system.batcher with flight := flight }, store, t.system.dead⟩, t.accepted, t.written,
      counted⟩ : Trace).Sound cfg w.digest s₀ := by
  -- A flush that gives its rows back: the batcher is as before but for the flight.
  refine ⟨hcount, hs.rows, ?_, ?_⟩
  · intro f' hf'
    rw [hflight f' hf']
    exact ⟨(hs.flight f hf).1, hcounted⟩
  · intro _
    exact List.Subset.trans hcounted (hs.flight f hf).1.subset

theorem Trace.Sound.complete (hs : t.Sound cfg w.digest s₀)
    (hf : f ∈ t.system.batcher.flight) {store : Store} (now : ℚ)
    (hcount : ∀ k, store.count k =
      s₀.count k + totalDelta w.digest k t.written + totalDelta w.digest k f.take) :
    (⟨⟨t.system.batcher.endFlush cfg now f, store, t.system.dead⟩, t.accepted,
      t.written ++ f.take, []⟩ : Trace).Sound cfg w.digest s₀ := by
  -- A flush that completes: its rows leave the buffer, written.
  refine ⟨fun k => ?_, ?_, by simp [Batcher.endFlush], fun _ => nil_subset _⟩
  · rw [hcount k, totalDelta_append, ← add_assoc]
    rfl
  · obtain ⟨rest, hrest⟩ := (hs.flight f hf).1.trans ( take_prefix _ _)
    change t.accepted = t.written ++ f.take ++ t.system.batcher.buffer.drop f.take.length
    rw [hs.rows, ← hrest, drop_left, append_assoc]

theorem Trace.Sound.take_subset (hs : t.Sound cfg w.digest s₀)
    (hf : f ∈ t.system.batcher.flight) : f.take ⊆ t.accepted := by
  have htaken := (hs.flight f hf).1.trans ( take_prefix _ _)
  intro x hx
  rw [hs.rows]
  exact mem_append_right _ (htaken.subset hx)

theorem Trace.Sound.attempt (hs : t.Sound cfg w.digest s₀)
    (hsep : KeysSeparate w.digest t.accepted) {tx : TxOutcome} {now : ℚ}
    (hkeep : ¬t.DeadLetters cfg w (.attempt tx now)) (hguard : t.Guarded w (.attempt tx now)) :
    (t.step cfg w (.attempt tx now)).Sound cfg w.digest s₀ := by
  cases hf : t.system.batcher.flight with
  | none =>
    have hstay : t.step cfg w (.attempt tx now) = t := by simp only [Trace.step, System.step, hf]
    rwa [hstay]
  | some f =>
    have hmem : f ∈ t.system.batcher.flight := hf
    have hsepf := hsep.subset (hs.take_subset hmem)
    -- An error keeps the rows, for the next attempt or for the next flush.
    have herror : ∀ store err, w.apply (.of f.take) tx t.system.store = (store, .error err) →
        ∀ counted, (if tx.commits then stamped w f.take store else t.counted) = counted →
        counted ⊆ f.take →
        (∀ k, store.count k =
          s₀.count k + totalDelta w.digest k t.written + totalDelta w.digest k counted) →
        (t.step cfg w (.attempt tx now)).Sound cfg w.digest s₀ := by
      rintro store err happly counted rfl hsub hcount
      by_cases hmore : f.attempt < cfg.maxAttempts
      · have hnext := hs.release hmem hsub hcount (some { f with attempt := f.attempt + 1 })
          (by simp)
        simpa only [Trace.step, System.step, hf, happly, hmore, if_true] using hnext
      · have hdl : cfg.deadLetter = false := by
          rw [← Bool.not_eq_true]
          intro hdl
          exact hkeep ⟨hdl, f, hmem, not_lt.mp hmore, err, congrArg Prod.snd happly⟩
        have hnext := hs.release hmem hsub hcount none (by simp)
        simpa only [Trace.step, System.step, hf, happly, hmore, hdl, if_false,
          Bool.false_eq_true] using hnext
    have hok : ∀ store o, w.apply (.of f.take) tx t.system.store = (store, .ok o) →
        (∀ k, store.count k =
          s₀.count k + totalDelta w.digest k t.written + totalDelta w.digest k f.take) →
        (t.step cfg w (.attempt tx now)).Sound cfg w.digest s₀ := by
      intro store o happly hcount
      have hnext := hs.complete hmem now hcount
      simpa only [Trace.step, System.step, hf, happly] using hnext
    rcases apply_cases w f.take tx t.system.store with
      ⟨hnone, o, happly⟩ | ⟨hrolled, err, happly⟩ | ⟨hcommits, hstore, hverify⟩
    · refine hok _ o happly fun k => ?_
      rw [hs.counts k, totalDelta_eq_zero_of_subset (hs.flight f hmem).2 (hnone k),
        totalDelta_of_not_touches (hnone k)]
    · refine herror _ err happly t.counted (by rw [hrolled]; rfl) (hs.flight f hmem).2 hs.counts
    · have hguard := hguard hcommits f hmem
      rcases hres : w.apply (.of f.take) tx t.system.store with ⟨store, o | err⟩
      all_goals
        rw [hres] at hstore hverify
        obtain rfl : store = _ := hstore
      · refine herror _ _ hres _ (if_pos hcommits) (stamped_subset _) ?_
        exact hs.count_stamped hmem hguard hsepf
      · exact hok _ _ hres (hs.count_verified hmem hguard hsepf (hverify _ rfl))

theorem Trace.Sound.cancel (hs : t.Sound cfg w.digest s₀)
    (hsep : KeysSeparate w.digest t.accepted) {tx : TxOutcome} (hguard : t.Guarded w (.cancel tx)) :
    (t.step cfg w (.cancel tx)).Sound cfg w.digest s₀ := by
  cases hf : t.system.batcher.flight with
  | none =>
    have hstay : t.step cfg w (.cancel tx) = t := by simp only [Trace.step, System.step, hf]
    rwa [hstay]
  | some f =>
    have hmem : f ∈ t.system.batcher.flight := hf
    have hgo : ∀ counted, (if tx.commits then stamped w f.take
          (w.apply (.of f.take) tx t.system.store).1 else t.counted) = counted →
        counted ⊆ f.take →
        (∀ k, (w.apply (.of f.take) tx t.system.store).1.count k =
          s₀.count k + totalDelta w.digest k t.written + totalDelta w.digest k counted) →
        (t.step cfg w (.cancel tx)).Sound cfg w.digest s₀ := by
      rintro counted rfl hsub hcount
      have hnext := hs.release hmem hsub hcount none (by simp)
      simpa only [Trace.step, System.step, hf] using hnext
    rcases apply_cases w f.take tx t.system.store with
      ⟨hnone, o, happly⟩ | ⟨hrolled, err, happly⟩ | ⟨hcommits, hstore, -⟩
    · have hzero : ∀ k, ∀ counted ⊆ f.take, (w.apply (.of f.take) tx t.system.store).1.count k =
          s₀.count k + totalDelta w.digest k t.written + totalDelta w.digest k counted := by
        intro k counted hsub
        rw [happly, hs.counts k, totalDelta_eq_zero_of_subset (hs.flight f hmem).2 (hnone k),
          totalDelta_eq_zero_of_subset hsub (hnone k)]
      have hsub : (if tx.commits then stamped w f.take
          (w.apply (.of f.take) tx t.system.store).1 else t.counted) ⊆ f.take := by
        split_ifs
        · exact stamped_subset _
        · exact (hs.flight f hmem).2
      exact hgo _ rfl hsub fun k => hzero k _ hsub
    · refine hgo t.counted (by rw [hrolled]; rfl) (hs.flight f hmem).2 ?_
      rw [happly]
      exact hs.counts
    · refine hgo _ (if_pos hcommits) (stamped_subset _) ?_
      rw [hstore]
      exact hs.count_stamped hmem (hguard hcommits f hmem) (hsep.subset (hs.take_subset hmem))

theorem Trace.Sound.step (hs : t.Sound cfg w.digest s₀) {e : Event}
    (hsep : KeysSeparate w.digest t.accepted) (hkeep : ¬t.DeadLetters cfg w e)
    (hguard : t.Guarded w e) :
    (t.step cfg w e).Sound cfg w.digest s₀ := by
  cases e with
  | submit item now => exact hs.submit item now
  | flush => exact hs.flush
  | attempt tx now => exact hs.attempt hsep hkeep hguard
  | cancel tx => exact hs.cancel hsep hguard
  | close => exact ⟨hs.counts, hs.rows, hs.flight, hs.idle⟩

/-- The runs in which every transaction that commits meets the guard as it should, and no batch
goes to the dead-letter hook. -/
inductive GuardedRun (cfg : BatcherConfig) (w : Writer) (s₀ : Store) : Trace → Prop
  | start : GuardedRun cfg w s₀ (.start s₀)
  | step {t : Trace} {e : Event} : GuardedRun cfg w s₀ t → ¬t.DeadLetters cfg w e →
    t.Guarded w e → GuardedRun cfg w s₀ (t.step cfg w e)

theorem accepted_prefix_step (cfg : BatcherConfig) (w : Writer) (t : Trace) (e : Event) :
    t.accepted <+: (t.step cfg w e).accepted := by
  cases e with
  | submit item now =>
    change t.accepted <+: if _ then _ else _
    split_ifs
    · exact prefix_append _ _
    · exact prefix_rfl
  | flush | close => exact prefix_rfl
  | attempt tx now =>
    cases hf : t.system.batcher.flight with
    | none => simp only [Trace.step, hf, prefix_rfl]
    | some f =>
      rcases hres : w.apply (.of f.take) tx t.system.store with ⟨store, err | o⟩ <;>
        simp only [Trace.step, hf, hres, prefix_rfl]
  | cancel tx =>
    unfold Trace.step
    cases t.system.batcher.flight <;> exact prefix_rfl

theorem GuardedRun.sound (h : GuardedRun cfg w s₀ t)
    (hsep : KeysSeparate w.digest t.accepted) : t.Sound cfg w.digest s₀ := by
  induction h with
  | start => exact Trace.start_sound _ _
  | @step t e _ hkeep hguard ih =>
    have hsep := hsep.subset (accepted_prefix_step cfg w t e).subset
    exact (ih hsep).step hsep hkeep hguard

/-- **Once the buffer is drained, every accepted row has been counted exactly once.** -/
theorem drained_counts (h : GuardedRun cfg w s₀ t)
    (hsep : KeysSeparate w.digest t.accepted) (hdrained : t.system.batcher.buffer = [])
    (k : CountKey) :
    t.system.store.count k = s₀.count k + totalDelta w.digest k t.accepted := by
  have hs := h.sound hsep
  have hcounted : t.counted = [] := by
    apply eq_nil_of_subset_nil
    cases hf : t.system.batcher.flight with
    | none => simpa [hdrained] using hs.idle hf
    | some f =>
      have htake := (hs.flight f hf).1
      rw [hdrained, take_nil, prefix_nil] at htake
      exact htake ▸ (hs.flight f hf).2
  rw [hs.counts k, hcounted, hs.rows, hdrained, append_nil]
  rfl

/-! ## Replays, kept and lost -/

def defaultConfig : BatcherConfig where
  maxBatchRows := 500
  maxAge := 2
  capacityBatches := 2
  maxAttempts := 3
  deadLetter := false
  one_le_maxBatchRows := by decide
  maxAge_pos := by decide
  one_le_capacityBatches := by decide

def company (id : String) : GraphWrite :=
  .node ⟨.company, id, "t", id, id, 0, [], 1, .empty, by decide⟩

def sampleWriter : Writer where
  schema := nodeSchema fun _ => []
  digest :=
    { sha256 := fun s =>
        if s = "n\x1fCompany\x1facme\x1f1" then "2e8e487ae409463875c14a9b677ad245"
        else if s = "n\x1fCompany\x1facme\x1f1\x1en\x1fCompany\x1fglobex\x1f1" then
          "a5a84626de3e0a447b29c749df369434"
        else s
      isoformat := fun _ => "1970-01-01T00:00:00+00:00" }
  schemaVersion := 1

def runTrace (events : List Event) : Trace :=
  events.foldl (Trace.step defaultConfig sampleWriter) (.start .empty)

def sameRetry : Trace :=
  runTrace [.submit (company "acme") 0, .flush, .attempt .unacknowledged 0, .attempt .answered 0]

theorem drained_counts_same_retry :
    sameRetry.system.store.count (.node (.company, "acme")) =
      Store.empty.count (.node (.company, "acme")) +
        totalDelta sampleWriter.digest (.node (.company, "acme")) sameRetry.accepted := by
  have hkept : ∀ t e, ¬Trace.DeadLetters defaultConfig sampleWriter t e := by
    intro t e h
    cases e with
    | attempt => exact Bool.false_ne_true h.1
    | _ => exact h
  have htouch : ∀ k, Touches sampleWriter.digest [company "acme"] k →
      k = .node (.company, "acme") := by
    rintro k ⟨x, hx, hk⟩
    obtain rfl := mem_singleton.mp hx
    exact (Option.some.inj hk).symm
  have hfirst : GuardedRun defaultConfig sampleWriter .empty (.start .empty) := .start
  have hsubmit := hfirst.step (hkept _ (.submit (company "acme") 0)) trivial
  have hflush := hsubmit.step (hkept _ .flush) trivial
  have hlost := hflush.step (hkept _ (.attempt .unacknowledged 0)) <| by
    rintro - f - k -
    refine .inr ⟨?_, rfl⟩
    cases k <;> exact (Option.some_ne_none _).symm
  have hrun : GuardedRun defaultConfig sampleWriter .empty sameRetry :=
    hlost.step (hkept _ (.attempt .answered 0)) <| by
      rintro - f hf k hk
      cases hf
      obtain rfl := htouch k hk
      exact .inl ⟨by decide, rfl⟩
  have hsep : KeysSeparate sampleWriter.digest sameRetry.accepted := by
    intro e e' he
    cases mem_singleton.mp he
  have hdrained : sameRetry.system.batcher.buffer = [] :=
    length_eq_zero_iff.mp (by decide)
  exact drained_counts hrun hsep hdrained _

/-- The last attempts of a flush that committed unacknowledged roll back; the next flush takes a
longer prefix, whose id the guard does not know. And two signals that name the same company, a flush
apart, make batches of one id. -/
theorem replays_lose_count :
    (∃ t, t = runTrace [.submit (company "acme") 0, .flush, .attempt .unacknowledged 0,
        .attempt .rolledBack 0, .attempt .rolledBack 0, .submit (company "globex") 0, .flush,
        .attempt .answered 0] ∧
      t.system.batcher.buffer.length = 0 ∧ t.system.store.count (.node (.company, "acme")) = 2 ∧
      totalDelta sampleWriter.digest (.node (.company, "acme")) t.accepted = 1) ∧
    ∃ t, t = runTrace [.submit (company "acme") 0, .flush, .attempt .answered 0,
        .submit (company "acme") 0, .flush, .attempt .answered 0] ∧
      t.system.batcher.buffer.length = 0 ∧ t.system.store.count (.node (.company, "acme")) = 1 ∧
      totalDelta sampleWriter.digest (.node (.company, "acme")) t.accepted = 2 :=
  ⟨⟨_, rfl, by decide⟩, ⟨_, rfl, by decide⟩⟩

end OmniSense.Ingest
