import OmniSense.Library.Unions
import OmniSense.Resolution.Blocking

/-! The `BlockingIndex` over calls of `add` and `remove`. -/

namespace OmniSense.Resolution

open Library List

/-! What a `BlockingIndex` tells after any calls of `add` and `remove` is decided by the records
that they leave: the order in which blocks and their members came about does not show. -/

section

inductive IndexCall
  | add (record : ResolutionRecord)
  | remove (rid : String)

namespace BlockingIndex

def call (index : BlockingIndex) : IndexCall → BlockingIndex
  | .add record => index.add record
  | .remove rid => index.remove rid

variable (keysOf : ResolutionRecord → List BlockingKey)

def after (maxBlockSize : Option ℕ)
    (calls : List IndexCall) : BlockingIndex :=
  calls.foldl call (new keysOf maxBlockSize)

def bucket (byKey : Dict BlockingKey (List String)) (key : BlockingKey) : List String :=
  (byKey.get? key).getD []

/-- Every record is in the blocks of its keys, as often as it has them, and no block is empty. -/
structure Faithful (index : BlockingIndex) : Prop where
  count : ∀ key rid, (bucket index.byKey key).count rid =
    (index.records.get? rid).elim 0 fun record => (index.keysOf record).count key
  nonempty : ∀ key, index.byKey.get? key ≠ some []

variable {index index' : BlockingIndex} {byKey : Dict BlockingKey (List String)}

/-! ## `remove` -/

theorem bucket_dropFrom (rid : String) (key' key : BlockingKey)
    (hnonempty : ∀ key, byKey.get? key ≠ some []) :
    bucket (dropFrom rid byKey key') key =
        (if key = key' then (bucket byKey key).filter (· ≠ rid) else bucket byKey key) ∧
      (dropFrom rid byKey key').get? key ≠ some [] := by
  unfold dropFrom bucket
  cases hold : byKey.get? key' with
  | none =>
    refine ⟨?_, hnonempty key⟩
    split_ifs with hkey
    · rw [hkey, hold]
      rfl
    · rfl
  | some members =>
    dsimp only
    by_cases hempty : members.filter (· ≠ rid) = []
    · rw [if_pos hempty, Dict.get?_erase]
      split_ifs with hkey
      · subst hkey
        rw [hold]
        exact ⟨hempty.symm, Option.some_ne_none _ |>.symm⟩
      · exact ⟨rfl, hnonempty key⟩
    · rw [if_neg hempty, Dict.get?_set]
      split_ifs with hkey
      · subst hkey
        rw [hold]
        exact ⟨rfl, fun h => hempty (Option.some.inj h)⟩
      · exact ⟨rfl, hnonempty key⟩

theorem bucket_dropAll (rid : String) (keys : List BlockingKey) (key : BlockingKey)
    (hnonempty : ∀ key, byKey.get? key ≠ some []) :
    bucket (keys.foldl (dropFrom rid) byKey) key =
        (if key ∈ keys then (bucket byKey key).filter (· ≠ rid) else bucket byKey key) ∧
      (keys.foldl (dropFrom rid) byKey).get? key ≠ some [] := by
  induction keys generalizing byKey with
  | nil => exact ⟨rfl, hnonempty key⟩
  | cons head keys ih =>
    have hhead := fun key => bucket_dropFrom rid head key hnonempty
    obtain ⟨hbucket, hrest⟩ := ih fun key => (hhead key).2
    refine ⟨?_, hrest⟩
    rw [foldl_cons, hbucket, (hhead key).1]
    by_cases hkey : key = head <;> by_cases hmem : key ∈ keys <;>
      simp [hkey, hmem, filter_filter]

theorem Faithful.remove (h : index.Faithful) (rid : String) : (index.remove rid).Faithful := by
  unfold BlockingIndex.remove
  cases hold : index.records.get? rid with
  | none => exact h
  | some record =>
    have hdrop := fun key => bucket_dropAll rid (index.keysOf record) key h.nonempty
    refine ⟨fun key rid' => ?_, fun key => (hdrop key).2⟩
    rw [(hdrop key).1, Dict.get?_erase]
    by_cases hrid : rid' = rid
    · rw [if_pos hrid, hrid, Option.elim_none]
      split_ifs with hkey
      · exact count_eq_zero.mpr fun hmem => by simpa using (mem_filter.mp hmem).2
      · rw [h.count, hold, Option.elim_some, count_eq_zero.mpr hkey]
    · rw [if_neg hrid, ← h.count]
      split_ifs with hkey
      · exact count_filter (by simpa using hrid)
      · rfl

/-! ## `add` -/

theorem bucket_addAll (rid : String) (keys : List BlockingKey) (key : BlockingKey)
    (hnonempty : ∀ key, byKey.get? key ≠ some []) :
    let added := keys.foldl
      (fun byKey key => byKey.alter key fun bucket => bucket.getD [] ++ [rid]) byKey
    bucket added key = bucket byKey key ++ List.replicate (keys.count key) rid ∧
      added.get? key ≠ some [] := by
  induction keys generalizing byKey with
  | nil => exact ⟨(append_nil _).symm, hnonempty key⟩
  | cons head keys ih =>
    have hget : ∀ key, (byKey.alter head fun bucket => bucket.getD [] ++ [rid]).get? key =
        if key = head then some (bucket byKey head ++ [rid]) else byKey.get? key :=
      fun key => Dict.get?_alter byKey head key _
    obtain ⟨hbucket, hrest⟩ := @ih (byKey.alter head fun bucket => bucket.getD [] ++ [rid]) <| by
      intro key
      rw [hget]
      split_ifs
      · simp
      · exact hnonempty key
    refine ⟨?_, hrest⟩
    rw [foldl_cons, hbucket]
    unfold bucket at hget ⊢
    rw [hget, count_cons]
    by_cases hkey : key = head
    · subst hkey
      simp [replicate_succ]
    · rw [if_neg hkey, if_neg (by simpa using Ne.symm hkey), Nat.add_zero]

theorem get?_remove (index : BlockingIndex) (rid rid' : String) :
    (index.remove rid).records.get? rid' =
      if rid' = rid then none else index.records.get? rid' := by
  unfold BlockingIndex.remove
  cases hold : index.records.get? rid with
  | none =>
    split_ifs with hrid
    · exact hrid ▸ hold
    · rfl
  | some record => exact Dict.get?_erase _ _ _

theorem remove_keysOf (index : BlockingIndex) (rid : String) :
    (index.remove rid).keysOf = index.keysOf ∧
      (index.remove rid).maxBlockSize = index.maxBlockSize := by
  unfold BlockingIndex.remove
  split <;> exact ⟨rfl, rfl⟩

theorem get?_add (index : BlockingIndex) (record : ResolutionRecord) (rid : String) :
    (index.add record).records.get? rid =
      if rid = record.id then some record else index.records.get? rid := by
  unfold BlockingIndex.add
  rw [Dict.get?_set]
  split_ifs with hrid hold
  · rfl
  · rw [get?_remove, if_neg hrid]
  · rfl

theorem Faithful.insert (h : index.Faithful) {record : ResolutionRecord}
    (hnew : index.records.get? record.id = none) : (index.add record).Faithful := by
  -- An index without the record, to which it is added.
  have hadd : index.add record =
      { index with
        records := index.records.set record.id record
        byKey := (index.keysOf record).foldl
          (fun byKey key => byKey.alter key fun bucket => bucket.getD [] ++ [record.id])
            index.byKey } := by
    unfold BlockingIndex.add
    rw [hnew]
    rfl
  have hbuckets := fun key => bucket_addAll record.id (index.keysOf record) key h.nonempty
  rw [hadd]
  refine ⟨fun key rid => ?_, fun key => (hbuckets key).2⟩
  rw [(hbuckets key).1, count_append, count_replicate, h.count, Dict.get?_set]
  by_cases hrid : rid = record.id
  · subst hrid
    rw [hnew, if_pos rfl, if_pos (by simp), Option.elim_none, Option.elim_some, Nat.zero_add]
  · rw [if_neg hrid, if_neg (by simpa using Ne.symm hrid), Nat.add_zero]

theorem add_of_indexed (index : BlockingIndex) {record : ResolutionRecord}
    (hold : (index.records.get? record.id).isSome = true) :
    index.add record = (index.remove record.id).add record := by
  have hgone : ((index.remove record.id).records.get? record.id).isSome = false := by
    rw [get?_remove, if_pos rfl]
    rfl
  unfold BlockingIndex.add
  rw [if_pos hold, hgone]
  rfl

theorem Faithful.add (h : index.Faithful) (record : ResolutionRecord) :
    (index.add record).Faithful := by
  cases hold : index.records.get? record.id with
  | none => exact h.insert hold
  | some old =>
    rw [add_of_indexed index (hold ▸ rfl)]
    exact (h.remove record.id).insert (by rw [get?_remove, if_pos rfl])

theorem add_keysOf (index : BlockingIndex) (record : ResolutionRecord) :
    (index.add record).keysOf = index.keysOf ∧
      (index.add record).maxBlockSize = index.maxBlockSize := by
  unfold BlockingIndex.add
  split_ifs
  · exact remove_keysOf index record.id
  · exact ⟨rfl, rfl⟩

theorem after_faithful (maxBlockSize : Option ℕ)
    (calls : List IndexCall) :
    (after keysOf maxBlockSize calls).Faithful ∧ (after keysOf maxBlockSize calls).keysOf = keysOf ∧
      (after keysOf maxBlockSize calls).maxBlockSize = maxBlockSize := by
  induction calls using List.reverseRecOn with
  | nil => exact ⟨⟨fun _ _ => rfl, fun _ => nofun⟩, rfl, rfl⟩
  | append_singleton calls last ih =>
    obtain ⟨hfaithful, hkeys, hsize⟩ := ih
    have hlast : after keysOf maxBlockSize (calls ++ [last]) =
        (after keysOf maxBlockSize calls).call last := by
      unfold after
      rw [foldl_append]
      rfl
    rw [hlast]
    cases last with
    | add record =>
      obtain ⟨hkeys', hsize'⟩ := add_keysOf (after keysOf maxBlockSize calls) record
      exact ⟨hfaithful.add record, hkeys'.trans hkeys, hsize'.trans hsize⟩
    | remove rid =>
      obtain ⟨hkeys', hsize'⟩ := remove_keysOf (after keysOf maxBlockSize calls) rid
      exact ⟨hfaithful.remove rid, hkeys'.trans hkeys, hsize'.trans hsize⟩

/-! ## What the index tells -/

def blocks (index : BlockingIndex) : List (BlockingKey × List String) :=
  index.byKey.items.map fun e => (e.1, sorted e.2)

theorem length_sorted (members : List String) : (sorted members).length = members.length :=
  (sorted_perm members).length_eq

theorem nodup_blocks (index : BlockingIndex) : index.blocks.Nodup := by
  have hkeys : (index.blocks.map Prod.fst).Nodup := by
    unfold blocks
    rw [map_map]
    exact index.byKey.nodup
  exact hkeys.of_map

structure Agree (index index' : BlockingIndex) : Prop where
  left : index.Faithful
  right : index'.Faithful
  keysOf : index.keysOf = index'.keysOf
  maxBlockSize : index.maxBlockSize = index'.maxBlockSize
  records : ∀ rid, index.records.get? rid = index'.records.get? rid

theorem Agree.symm (h : index.Agree index') : index'.Agree index :=
  ⟨h.right, h.left, h.keysOf.symm, h.maxBlockSize.symm, fun rid => (h.records rid).symm⟩

theorem Agree.bucket_perm (h : index.Agree index') (key : BlockingKey) :
    (bucket index.byKey key).Perm (bucket index'.byKey key) := by
  refine perm_iff_count.mpr fun rid => ?_
  rw [h.left.count, h.right.count, h.records, h.keysOf]

theorem Agree.mem_blocks (h : index.Agree index') {e : BlockingKey × List String}
    (he : e ∈ index.blocks) : e ∈ index'.blocks := by
  obtain ⟨⟨key, members⟩, hmem, rfl⟩ := mem_map.mp he
  have hget := Dict.mem_items_iff.mp hmem
  have hperm := h.bucket_perm key
  unfold bucket at hperm
  rw [hget] at hperm
  cases hget' : index'.byKey.get? key with
  | none =>
    rw [hget'] at hperm
    exact absurd (hperm.eq_nil ▸ hget) (h.left.nonempty key)
  | some members' =>
    rw [hget'] at hperm
    refine mem_map.mpr ⟨(key, members'), Dict.mem_items_iff.mpr hget', ?_⟩
    exact congrArg (Prod.mk key) (sorted_congr hperm).symm

theorem Agree.blocks_perm (h : index.Agree index') : index.blocks.Perm index'.blocks :=
  (perm_ext_iff_of_nodup (nodup_blocks index) (nodup_blocks index')).mpr fun _ =>
    ⟨h.mem_blocks, h.symm.mem_blocks⟩

theorem Agree.sharedKeys (h : index.Agree index') (left right : String) :
    index.sharedKeys left right = index'.sharedKeys left right := by
  unfold BlockingIndex.sharedKeys
  rw [h.records, h.records, h.keysOf]

theorem oversized_sorted (index : BlockingIndex) (e : BlockingKey × List String) :
    index.oversized (e.1, sorted e.2) = index.oversized e := by
  simp only [oversized, length_sorted]

theorem candidatePairs_eq (index : BlockingIndex) :
    index.candidatePairs = sortedBy (toLex : Pair → String ×ₗ String)
      ((index.blocks.filter fun e => 2 ≤ e.2.length ∧ ¬index.oversized e).flatMap fun e =>
        pairsOf e.2).dedup := by
  unfold candidatePairs blocks
  rw [filter_map, flatMap_map]
  have hfilter : (index.byKey.items.filter fun e => 2 ≤ e.2.length ∧ ¬index.oversized e) =
      index.byKey.items.filter ((fun e : BlockingKey × List String =>
        decide (2 ≤ e.2.length ∧ ¬index.oversized e)) ∘ fun e => (e.1, sorted e.2)) := by
    refine filter_congr fun e _ => ?_
    simp only [Function.comp, oversized_sorted, length_sorted]
  rw [hfilter]

theorem oversizedBlocks_eq (index : BlockingIndex) :
    index.oversizedBlocks = ((index.blocks.filter fun e => 2 ≤ e.2.length).filter
      index.oversized).map fun e => (e.1, e.2.length) := by
  unfold oversizedBlocks blocks
  rw [filter_map, filter_map, map_map]
  have hinner : (index.byKey.items.filter fun e => 2 ≤ e.2.length) =
      index.byKey.items.filter ((fun e : BlockingKey × List String =>
        decide (2 ≤ e.2.length)) ∘ fun e => (e.1, sorted e.2)) :=
    filter_congr fun e _ => by simp only [Function.comp, length_sorted]
  have houter : ∀ items : List (BlockingKey × List String), items.filter index.oversized =
      items.filter (index.oversized ∘ fun e => (e.1, sorted e.2)) := fun items =>
    filter_congr fun e _ => (oversized_sorted index e).symm
  rw [hinner, houter]
  refine map_congr_left fun e _ => ?_
  simp only [Function.comp, length_sorted]

theorem Agree.oversized (h : index.Agree index') : index.oversized = index'.oversized := by
  funext e
  unfold BlockingIndex.oversized
  rw [h.maxBlockSize]

theorem Agree.candidatePairs (h : index.Agree index') :
    index.candidatePairs = index'.candidatePairs := by
  rw [candidatePairs_eq, candidatePairs_eq, h.oversized]
  have hpairs : ((index.blocks.filter fun e => 2 ≤ e.2.length ∧ ¬index'.oversized e).flatMap fun e =>
      pairsOf e.2).Perm ((index'.blocks.filter fun e => 2 ≤ e.2.length ∧ ¬index'.oversized e).flatMap
        fun e => pairsOf e.2) := (h.blocks_perm.filter _).flatMap_right _
  refine sortedBy_congr ?_ hpairs.dedup
  exact (nodup_dedup _).map toLex.injective

theorem Agree.stats (h : index.Agree index') : index.stats = index'.stats := by
  have hblocks := h.blocks_perm
  have hrecords : index.records.keys.Perm index'.records.keys := by
    refine (perm_ext_iff_of_nodup index.records.nodup index'.records.nodup).mpr fun rid => ?_
    exact Dict.mem_keys.trans (h.records rid ▸ Dict.mem_keys.symm)
  have hoversized : index.oversizedBlocks.Perm index'.oversizedBlocks := by
    rw [oversizedBlocks_eq, oversizedBlocks_eq, h.oversized]
    exact ((hblocks.filter _).filter _).map _
  have hlengths : ∀ index : BlockingIndex, index.byKey.items.map (fun e => e.2.length) =
      index.blocks.map fun e => e.2.length := by
    intro index
    unfold blocks
    rw [map_map]
    exact map_congr_left fun e _ => (length_sorted e.2).symm
  have hsizes : (index.byKey.items.map fun e => e.2.length).Perm
      (index'.byKey.items.map fun e => e.2.length) := by
    rw [hlengths, hlengths]
    exact hblocks.map _
  have hcount : ∀ index : BlockingIndex, (index.byKey.items.countP fun e => 1 < e.2.length) =
      (index.byKey.items.map fun e => e.2.length).countP fun n => 1 < n :=
    fun index => by rw [countP_map]; rfl
  have hlargest : ∀ index : BlockingIndex, index.byKey.values.map List.length =
      index.byKey.items.map fun e => e.2.length := fun index => map_map ..
  have hmax : ∀ sizes sizes' : List ℕ, sizes.Perm sizes' →
      sizes.foldl max 0 = sizes'.foldl max 0 := fun _ _ hperm => hperm.foldl_eq 0
  unfold BlockingIndex.stats
  rw [hcount, hcount, hsizes.countP_eq, hlargest, hlargest, hmax _ _ hsizes, h.candidatePairs,
    hoversized.length_eq, (hoversized.map fun e => e.2 * (e.2 - 1) / 2).sum_eq]
  have hkeys : index.byKey.items.length = index'.byKey.items.length := by
    simpa using hsizes.length_eq
  have hrecords' : index.records.items.length = index'.records.items.length := by
    simpa [Dict.keys] using hrecords.length_eq
  rw [hkeys, hrecords']

end BlockingIndex

end

/-! No pair is lost silently: after any calls of `add` and `remove`, two records that share a key
are proposed, unless the cap has taken every block that they share. -/

section

def IndexCall.leave (rid : String) (held : Option ResolutionRecord) :
    IndexCall → Option ResolutionRecord
  | .add record => if rid = record.id then some record else held
  | .remove removed => if rid = removed then none else held

theorem TextTools.nodup_blockingKeys (tools : TextTools) (record : ResolutionRecord) :
    (tools.blockingKeys record).Nodup :=
  nodup_appendNew nodup_nil _

namespace BlockingIndex

def current (calls : List IndexCall) (rid : String) : Option ResolutionRecord :=
  calls.foldl (IndexCall.leave rid) none

variable {keysOf : ResolutionRecord → List BlockingKey} {maxBlockSize : Option ℕ}
  {calls : List IndexCall} {key : BlockingKey} {rid : String}

/-! ## The current records -/

theorem get?_call (index : BlockingIndex) (call : IndexCall) :
    (index.call call).records.get? rid = call.leave rid (index.records.get? rid) := by
  cases call with
  | add record => exact get?_add index record rid
  | remove removed => exact get?_remove index removed rid

theorem get?_after :
    (after keysOf maxBlockSize calls).records.get? rid = current calls rid := by
  induction calls using List.reverseRecOn with
  | nil => rfl
  | append_singleton calls last ih =>
    unfold after current at ih ⊢
    rw [foldl_append, foldl_append, foldl_cons, foldl_nil, get?_call, ih]
    rfl

/-! ## Blocks -/

theorem count_bucket : (bucket (after keysOf maxBlockSize calls).byKey key).count rid =
    (current calls rid).elim 0 fun record => (keysOf record).count key := by
  obtain ⟨hfaithful, hkeys, _⟩ := after_faithful keysOf maxBlockSize calls
  rw [hfaithful.count, get?_after, hkeys]

theorem mem_bucket : rid ∈ bucket (after keysOf maxBlockSize calls).byKey key ↔
    ∃ record, current calls rid = some record ∧ key ∈ keysOf record := by
  rw [← count_pos_iff, count_bucket]
  cases current calls rid with
  | none => simp
  | some record => simp [count_pos_iff]

theorem nodup_bucket (hnodup : ∀ record, (keysOf record).Nodup) :
    (bucket (after keysOf maxBlockSize calls).byKey key).Nodup := by
  refine nodup_iff_count_le_one.mpr fun rid => ?_
  rw [count_bucket]
  cases current calls rid with
  | none => exact Nat.zero_le 1
  | some record => exact nodup_iff_count_le_one.mp (hnodup record) key

/-! ## Proposed pairs -/

variable {index : BlockingIndex} {members : List String} {left right : String}

theorem pairKey_mem_pairsOf (hleft : left ∈ members) (hright : right ∈ members)
    (hne : left ≠ right) : pairKey left right ∈ pairsOf (sorted members) := by
  -- In the order of the block, the smaller id stands first.
  have hordered : ∀ {a b}, a ∈ members → b ∈ members → a ≠ b → a ≤ b →
      (a, b) ∈ pairsOf (sorted members) := by
    intro a b ha hb hab hle
    have hsub : [a, b].Subset (sorted members) := by
      intro x hx
      rcases mem_pair.mp hx with rfl | rfl
      · exact mem_sorted.mpr ha
      · exact mem_sorted.mpr hb
    have hnodup : [a, b].Nodup := nodup_cons.mpr
      ⟨fun h => hab (mem_singleton.mp h), nodup_singleton b⟩
    refine mem_pairsOf.mpr (sublist_of_subperm_of_pairwise (hnodup.subperm hsub)
      (pairwise_pair.mpr hle) ?_)
    exact pairwise_insertionSort _ members
  unfold pairKey
  split_ifs with hle
  · exact hordered hleft hright hne hle
  · exact hordered hright hleft hne.symm (le_of_not_ge hle)

theorem proposed_or_oversized (hleft : left ∈ bucket index.byKey key)
    (hright : right ∈ bucket index.byKey key) (hne : left ≠ right) :
    pairKey left right ∈ index.candidatePairs ∨ key.kind ∈ lowPrecisionKinds ∧
      (key, (bucket index.byKey key).length) ∈ index.oversizedBlocks := by
  obtain ⟨members, hget⟩ : ∃ members, index.byKey.get? key = some members := by
    cases hget : index.byKey.get? key with
    | none =>
      unfold bucket at hleft
      rw [hget] at hleft
      exact absurd hleft not_mem_nil
    | some members => exact ⟨members, rfl⟩
  have hbucket : bucket index.byKey key = members := by
    unfold bucket
    rw [hget]
    rfl
  rw [hbucket] at hleft hright ⊢
  have hitem : (key, members) ∈ index.byKey.items := Dict.mem_items_iff.mpr hget
  have htwo : 2 ≤ members.length := by
    have hsub : [left, right].Subset members := by
      intro x hx
      rcases mem_pair.mp hx with rfl | rfl
      · exact hleft
      · exact hright
    have hnodup : [left, right].Nodup := nodup_cons.mpr
      ⟨fun h => hne (mem_singleton.mp h), nodup_singleton right⟩
    exact (hnodup.subperm hsub).length_le
  by_cases hover : index.oversized (key, members) = true
  · refine .inr ⟨(of_decide_eq_true hover).1, mem_map.mpr ⟨(key, members), ?_, rfl⟩⟩
    exact mem_filter.mpr ⟨mem_filter.mpr ⟨hitem, decide_eq_true htwo⟩, hover⟩
  · refine .inl ((sortedBy_perm _ _).mem_iff.mpr (mem_dedup.mpr ?_))
    refine mem_flatMap.mpr ⟨(key, members), ?_, pairKey_mem_pairsOf hleft hright hne⟩
    exact mem_filter.mpr ⟨hitem, decide_eq_true ⟨htwo, hover⟩⟩

/-- **No pair is lost silently.** After any calls, a block holds the ids whose current records have
its key, once each; and a pair that shares a key is proposed, or every key that it shares is of low
precision and recorded as oversized. -/
theorem no_pair_lost (tools : TextTools) (maxBlockSize : Option ℕ) (calls : List IndexCall) :
    (∀ key, (bucket (after tools.blockingKeys maxBlockSize calls).byKey key).Nodup ∧
      (∀ rid, rid ∈ bucket (after tools.blockingKeys maxBlockSize calls).byKey key ↔
        ∃ record, current calls rid = some record ∧ key ∈ tools.blockingKeys record) ∧
      (after tools.blockingKeys maxBlockSize calls).byKey.get? key ≠ some []) ∧
    ∀ left right l r, left ≠ right → current calls left = some l → current calls right = some r →
      (∃ key ∈ tools.blockingKeys l, key ∈ tools.blockingKeys r) →
        pairKey left right ∈ (after tools.blockingKeys maxBlockSize calls).candidatePairs ∨
          ∀ key ∈ tools.blockingKeys l, key ∈ tools.blockingKeys r →
            key.kind ∈ lowPrecisionKinds ∧ ∃ size,
              (key, size) ∈ (after tools.blockingKeys maxBlockSize calls).oversizedBlocks := by
  have hnonempty := (after_faithful tools.blockingKeys maxBlockSize calls).1.nonempty
  refine ⟨fun key => ⟨nodup_bucket tools.nodup_blockingKeys, fun rid => mem_bucket,
    hnonempty key⟩, ?_⟩
  intro left right l r hne hl hr _
  by_contra hlost
  rw [not_or] at hlost
  obtain ⟨hmissing, hunrecorded⟩ := hlost
  refine hunrecorded fun key hkeyl hkeyr => ?_
  rcases proposed_or_oversized (mem_bucket.mpr ⟨l, hl, hkeyl⟩) (mem_bucket.mpr ⟨r, hr, hkeyr⟩) hne
    with hproposed | ⟨hlow, hrecorded⟩
  · exact absurd hproposed hmissing
  · exact ⟨hlow, _, hrecorded⟩

end BlockingIndex

end

end OmniSense.Resolution
