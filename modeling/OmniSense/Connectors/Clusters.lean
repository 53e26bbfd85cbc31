import Mathlib.Data.List.Forall2
import OmniSense.Connectors.Hashing

/-! The clusters are the connected components of the near-duplicate graph, whatever the order of the
members and of the sets of candidates. -/

namespace OmniSense.Connectors
open Library List ClusterMember

def Near (threshold : ℤ) (x y : ClusterMember) : Prop :=
  x.fingerprint ≠ 0 ∧ y.fingerprint ≠ 0 ∧
    (bitDistance SIMHASH_BITS x.fingerprint y.fingerprint : ℤ) ≤ threshold

def SameStory (threshold : ℤ) (members : List ClusterMember) : ClusterMember → ClusterMember → Prop :=
  Relation.EqvGen fun x y => x ∈ members ∧ y ∈ members ∧ Near threshold x y

variable {threshold bands : ℤ} {width : ℕ}

variable {x y : ClusterMember} {members : List ClusterMember}

theorem Near.symm (h : Near threshold x y) : Near threshold y x := by
  obtain ⟨hx, hy, hle⟩ := h
  exact ⟨hy, hx, by rwa [bitDistance_comm]⟩

/-! ## Distances and bands -/

theorem hamming_ok {a b : ℕ} (ha : a < 2 ^ SIMHASH_BITS) (hb : b < 2 ^ SIMHASH_BITS) :
    hamming a b = .ok (bitDistance SIMHASH_BITS a b) := by
  unfold hamming checkFingerprint
  rw [if_pos ha, if_pos hb, ← bitCount_xor ha hb]
  rfl

theorem bandWidth_ok (h : bandWidth bands = .ok width) :
    1 ≤ bands ∧ bands.toNat * width = SIMHASH_BITS := by
  unfold bandWidth at h
  dsimp only at h
  split_ifs at h with hbad hdigits
  push Not at hbad
  obtain ⟨hpos, hmod⟩ := hbad
  cases h
  refine ⟨hpos, Nat.mul_div_cancel' ?_⟩
  obtain ⟨n, rfl⟩ := Int.eq_ofNat_of_zero_le (by omega : 0 ≤ bands)
  have hdvd : (n : ℤ) ∣ (SIMHASH_BITS : ℤ) := Int.dvd_of_emod_eq_zero hmod
  exact Int.natCast_dvd_natCast.mp hdvd

theorem isNearDuplicate_ok (hthreshold : 0 ≤ threshold ∧ threshold ≤ SIMHASH_BITS)
    (x y : ClusterMember) :
    ∃ near, isNearDuplicate x.fingerprint y.fingerprint threshold = .ok near ∧
      (near = true ↔ Near threshold x y) := by
  unfold isNearDuplicate
  rw [if_pos hthreshold]
  split_ifs with hzero
  · refine ⟨false, rfl, ?_⟩
    unfold Near
    constructor
    · intro h
      cases h
    · tauto
  · rw [hamming_ok x.fingerprint_lt y.fingerprint_lt]
    push Not at hzero
    refine ⟨_, rfl, ?_⟩
    rw [decide_eq_true_eq]
    exact ⟨fun h => ⟨hzero.1, hzero.2, h⟩, fun h => h.2.2⟩

def keysOf (bands : ℤ) (width : ℕ) (m : ClusterMember) : List String :=
  (List.range bands.toNat).map (bandKey m.fingerprint width)

theorem simhashBandKeys_ok (h : bandWidth bands = .ok width) (m : ClusterMember) :
    simhashBandKeys m.fingerprint bands = .ok (keysOf bands width m) := by
  unfold simhashBandKeys
  rw [h]
  rfl

/-- **Near duplicates share a band key.** -/
theorem Near.shared_key (h : bandWidth bands = .ok width)
    (hlt : threshold < bands) (hnear : Near threshold x y) :
    ∃ key, key ∈ keysOf bands width x ∧ key ∈ keysOf bands width y := by
  obtain ⟨hpos, hmul⟩ := bandWidth_ok h
  have hdistance : bitDistance (bands.toNat * width) x.fingerprint y.fingerprint < bands.toNat := by
    have := hnear.2.2
    rw [hmul]
    omega
  obtain ⟨index, hindex, heq⟩ := exists_band_eq hdistance
  refine ⟨bandKey x.fingerprint width index,
    mem_map_of_mem (mem_range.mpr hindex), mem_map.mpr ⟨index, ?_, ?_⟩⟩
  · exact mem_range.mpr hindex
  · unfold bandKey
    rw [heq]

/-! ## The index -/

def BandedIndex.bucket (index : BandedIndex) (key : String) : List String :=
  (index.get? key).getD []

theorem mem_bucket_add {index : BandedIndex} {memberId x : String} {keys : List String}
    {key : String} : x ∈ (index.add memberId keys).bucket key ↔
      x ∈ index.bucket key ∨ x = memberId ∧ key ∈ keys := by
  induction keys generalizing index with
  | nil => simp [BandedIndex.add]
  | cons k keys ih =>
    have hstep : index.add memberId (k :: keys) = BandedIndex.add
        (index.alter k fun old => appendNew (old.getD []) [memberId]) memberId keys := rfl
    rw [hstep, ih]
    unfold BandedIndex.bucket
    rw [Dict.get?_alter, mem_cons]
    split_ifs with hk
    · subst hk
      rw [Option.getD_some, mem_appendNew, mem_singleton]
      tauto
    · simp [hk]

theorem mem_candidates {index : BandedIndex} {keys : List String} {exclude x : String} :
    x ∈ index.candidates keys exclude ↔ x ≠ exclude ∧ ∃ key ∈ keys, x ∈ index.bucket key := by
  have hloop : ∀ found, x ∈ keys.foldl
      (fun found key => appendNew found ((index.get? key).getD [])) found ↔
        x ∈ found ∨ ∃ key ∈ keys, x ∈ index.bucket key := by
    induction keys with
    | nil => simp
    | cons k keys ih =>
      intro found
      rw [foldl_cons, ih, mem_appendNew, exists_mem_cons_iff, or_assoc]
      rfl
  unfold BandedIndex.candidates
  rw [mem_filter, hloop, decide_eq_true_eq]
  simp [and_comm]

/-! ## The members by id -/

section

variable {members : List ClusterMember} (hnodup : (members.map signalId).Nodup)

/-- `by_id`. -/
def byIdOf (members : List ClusterMember) : Dict String ClusterMember :=
  .ofList (members.map fun m => (m.signalId, m))

include hnodup

theorem items_byIdOf : (byIdOf members).items = members.map fun m => (m.signalId, m) := by
  refine Dict.items_ofList ?_
  rw [map_map]
  exact hnodup

theorem values_byIdOf : (byIdOf members).values = members := by
  unfold Dict.values
  rw [items_byIdOf hnodup, map_map]
  exact map_id members

theorem keys_byIdOf : (byIdOf members).keys = members.map signalId := by
  unfold Dict.keys
  rw [items_byIdOf hnodup, map_map]
  rfl

theorem get?_byIdOf {x : String} {m : ClusterMember} :
    (byIdOf members).get? x = some m ↔ m ∈ members ∧ m.signalId = x := by
  rw [← Dict.mem_items_iff, items_byIdOf hnodup, mem_map]
  constructor
  · rintro ⟨m', hm', heq⟩
    obtain ⟨rfl, rfl⟩ := Prod.mk.inj heq
    exact ⟨hm', rfl⟩
  · rintro ⟨hm, rfl⟩
    exact ⟨m, hm, rfl⟩

theorem addMembers_ok : members.foldlM addMember .empty = .ok (byIdOf members) := by
  have hstep : ∀ done rest, members = done ++ rest →
      rest.foldlM addMember (byIdOf done) = .ok (byIdOf members) := by
    intro done rest heq
    induction rest generalizing done with
    | nil =>
      rw [heq, append_nil]
      rfl
    | cons m rest ih =>
      have hdone : (done.map signalId).Nodup :=
        (List.Nodup.sublist (sublist_append_left done (m :: rest)) (heq ▸ hnodup.of_map)).map_on
          fun x hx y hy hxy => inj_on_of_nodup_map hnodup
            (heq ▸ mem_append_left _ hx) (heq ▸ mem_append_left _ hy) hxy
      have hnew : (byIdOf done).get? m.signalId = none := by
        rw [Option.eq_none_iff_forall_ne_some]
        intro m' hm'
        obtain ⟨hmem, hid⟩ := (get?_byIdOf hdone).mp hm'
        rw [heq, map_append, nodup_append] at hnodup
        exact hnodup.2.2 _ (mem_map_of_mem hmem) _
          (mem_map_of_mem mem_cons_self) hid
      have hadd : addMember (byIdOf done) m = .ok (byIdOf (done ++ [m])) := by
        unfold addMember byIdOf
        rw [map_append, map_singleton, Dict.ofList_snoc]
        change (if ((byIdOf done).get? m.signalId).isSome = true then _ else _) = _
        rw [hnew]
        rfl
      rw [foldlM_cons, hadd]
      exact ih (done ++ [m]) (by rw [heq, append_assoc, singleton_append])
  exact hstep [] members rfl

end

/-! ## The loop over the members -/

def NearIds (threshold : ℤ) (members : List ClusterMember) (p : String × String) : Prop :=
  ∃ x ∈ members, ∃ y ∈ members, x.signalId = p.1 ∧ y.signalId = p.2 ∧ Near threshold x y

structure Joining (threshold : ℤ) (members : List ClusterMember) (forest : Forest String)
    (pairs : List (String × String)) : Prop where
  sets : forest.ranked.Components (members.map signalId) pairs
  near : ∀ p ∈ pairs, NearIds threshold members p

theorem Joining.mem {forest : Forest String}
    {pairs : List (String × String)} (h : Joining threshold members forest pairs) :
    ∀ p ∈ pairs, p.1 ∈ members.map signalId ∧
      p.2 ∈ members.map signalId := by
  intro p hp
  obtain ⟨x, hx, y, hy, hx', hy', -⟩ := h.near p hp
  exact ⟨hx' ▸ mem_map_of_mem hx, hy' ▸ mem_map_of_mem hy⟩

theorem Joining.union {forest : Forest String}
    {pairs : List (String × String)} (h : Joining threshold members forest pairs)
    (hx : x ∈ members) (hy : y ∈ members) (hnear : Near threshold x y) :
    Joining threshold members (forest.union x.signalId y.signalId)
      (pairs ++ [(x.signalId, y.signalId)]) := by
  have hxid := mem_map_of_mem (f := signalId) hx
  have hyid := mem_map_of_mem (f := signalId) hy
  have hids : forest.ids = members.map signalId := h.sets.ids_eq
  have hmerges := Forest.union_merges h.sets.valid (hids ▸ hxid) (hids ▸ hyid)
  refine ⟨h.sets.snoc h.mem ⟨hxid, hyid⟩ hmerges, fun p hp => ?_⟩
  rcases mem_append.mp hp with hp | hp
  · exact h.near p hp
  · obtain rfl := mem_singleton.mp hp
    exact ⟨x, hx, y, hy, rfl, rfl, hnear⟩

section

variable {members : List ClusterMember} (hnodup : (members.map signalId).Nodup)
  (hthreshold : 0 ≤ threshold ∧ threshold ≤ SIMHASH_BITS)

include hnodup hthreshold

variable {pairs : List (String × String)} {forest : Forest String}

theorem unionCandidate_ok
    (h : Joining threshold members forest pairs) {x y : ClusterMember} (hx : x ∈ members)
    (hy : y ∈ members) :
    ∃ forest' pairs', unionCandidate threshold (byIdOf members) x forest y.signalId = .ok forest' ∧
      Joining threshold members forest' pairs' ∧ pairs ⊆ pairs' ∧
        (Near threshold x y → (x.signalId, y.signalId) ∈ pairs') := by
  have hget := (get?_byIdOf hnodup).mpr ⟨hy, rfl⟩
  obtain ⟨near, hok, hnear⟩ := isNearDuplicate_ok hthreshold x y
  unfold unionCandidate
  simp only [hget, hok]
  cases near with
  | true =>
    refine ⟨_, _, rfl, h.union hx hy (hnear.mp rfl), subset_append_left _ _, fun _ => ?_⟩
    exact mem_append_right _ (mem_singleton_self _)
  | false =>
    refine ⟨_, pairs, rfl, h, List.Subset.refl _, fun hxy => ?_⟩
    cases hnear.mpr hxy

theorem unionCandidates_ok
    (h : Joining threshold members forest pairs) {x : ClusterMember} (hx : x ∈ members)
    {found : List String} (hfound : ∀ c ∈ found, c ∈ members.map signalId) :
    ∃ forest', found.foldlM (unionCandidate threshold (byIdOf members) x) forest = .ok forest' ∧
      ∃ pairs', Joining threshold members forest' pairs' ∧ pairs ⊆ pairs' ∧
        ∀ y ∈ members, y.signalId ∈ found → Near threshold x y →
          (x.signalId, y.signalId) ∈ pairs' := by
  -- After the loop over its candidates, `x` is joined to all near ones among them.
  refine foldlM_done (I := fun done forest => ∃ pairs', Joining threshold members forest pairs' ∧
    pairs ⊆ pairs' ∧ ∀ y ∈ members, y.signalId ∈ done → Near threshold x y →
      (x.signalId, y.signalId) ∈ pairs') ⟨pairs, h, List.Subset.refl _, by simp⟩ ?_
  rintro done c hc forest ⟨pairs₁, hjoining, hsub, hdone⟩
  obtain ⟨y, hy, rfl⟩ := mem_map.mp (hfound c hc)
  obtain ⟨forest', pairs₂, hok, hjoining', hsub', hnear⟩ :=
    unionCandidate_ok hnodup hthreshold hjoining hx hy
  refine ⟨forest', hok, pairs₂, hjoining', List.Subset.trans hsub hsub', fun z hz hmem hxz => ?_⟩
  rcases mem_append.mp hmem with hmem | hmem
  · exact hsub' (hdone z hz hmem hxz)
  · obtain rfl := inj_on_of_nodup_map hnodup hz hy (mem_singleton.mp hmem)
    exact hnear hxz

/-- What the loop over the members keeps, after those in `done`. -/
structure Indexed (threshold bands : ℤ) (width : ℕ) (members done : List ClusterMember)
    (state : BandedIndex × Forest String) : Prop where
  known : ∀ key, ∀ x ∈ state.1.bucket key, x ∈ members.map signalId
  indexed : ∀ m ∈ done, m.fingerprint ≠ 0 → ∀ key ∈ keysOf bands width m,
    m.signalId ∈ state.1.bucket key
  joined : ∃ pairs, Joining threshold members state.2 pairs ∧
    ∀ x ∈ done, ∀ y ∈ done, x ≠ y → Near threshold x y →
      (x.signalId, y.signalId) ∈ pairs ∨ (y.signalId, x.signalId) ∈ pairs

theorem indexMember_ok (hwidth : bandWidth bands = .ok width) (hlt : threshold < bands)
    (order : SetOrder) {done : List ClusterMember} {state : BandedIndex × Forest String}
    (h : Indexed threshold bands width members done state) {m : ClusterMember}
    (hm : m ∈ members) (hdone : done ⊆ members) :
    ∃ state', indexMember order threshold bands (byIdOf members) state m = .ok state' ∧
      Indexed threshold bands width members (done ++ [m]) state' := by
  obtain ⟨hknown, hindexed, pairs, hjoining, hjoined⟩ := h
  unfold indexMember
  split_ifs with hzero
  · -- A member without text is near nothing.
    refine ⟨state, rfl, hknown, fun x hx hx0 => ?_, pairs, hjoining, fun x hx y hy hne hxy => ?_⟩
    · rcases mem_append.mp hx with hx | hx
      · exact hindexed x hx hx0
      · exact absurd (mem_singleton.mp hx ▸ hzero) hx0
    · have hold : ∀ z ∈ done ++ [m], z.fingerprint ≠ 0 → z ∈ done := by
        intro z hz hz0
        rcases mem_append.mp hz with hz | hz
        · exact hz
        · exact absurd (mem_singleton.mp hz ▸ hzero) hz0
      exact hjoined x (hold x hx hxy.1) y (hold y hy hxy.2.1) hne hxy
  · have hcandidate : ∀ c ∈ order.visit m.signalId
        (state.1.candidates (keysOf bands width m) m.signalId),
        c ∈ members.map signalId := by
      intro c hc
      obtain ⟨-, key, -, hbucket⟩ := mem_candidates.mp ((order.perm _ _).mem_iff.mp hc)
      exact hknown key c hbucket
    obtain ⟨forest', hok, pairs', hjoining', hsub, hnear⟩ :=
      unionCandidates_ok hnodup hthreshold hjoining hm hcandidate
    have hfound : ∀ y ∈ done, y ≠ m → Near threshold m y → (m.signalId, y.signalId) ∈ pairs' := by
      intro y hy hne hmy
      obtain ⟨key, hkey, hkey'⟩ := hmy.shared_key hwidth hlt
      refine hnear y (hdone hy) ((order.perm _ _).mem_iff.mpr ?_) hmy
      refine mem_candidates.mpr ⟨fun heq => hne ?_, key, hkey, hindexed y hy hmy.2.1 key hkey'⟩
      exact inj_on_of_nodup_map hnodup (hdone hy) hm heq
    rw [simhashBandKeys_ok hwidth]
    refine ⟨(state.1.add m.signalId (keysOf bands width m), forest'), ?_, ?_, ?_, pairs', hjoining',
      ?_⟩
    · change (do
        let forest ← (order.visit m.signalId (state.1.candidates (keysOf bands width m)
          m.signalId)).foldlM (unionCandidate threshold (byIdOf members) m) state.2
        return (state.1.add m.signalId (keysOf bands width m), forest)) = _
      rw [hok]
      rfl
    · intro key x hx
      rcases mem_bucket_add.mp hx with hx | ⟨rfl, -⟩
      · exact hknown key x hx
      · exact mem_map_of_mem hm
    · intro x hx hx0 key hkey
      rcases mem_append.mp hx with hx | hx
      · exact mem_bucket_add.mpr (.inl (hindexed x hx hx0 key hkey))
      · obtain rfl := mem_singleton.mp hx
        exact mem_bucket_add.mpr (.inr ⟨rfl, hkey⟩)
    · intro x hx y hy hne hxy
      rcases mem_append.mp hx with hx' | hx' <;> rcases mem_append.mp hy with hy' | hy'
      · exact (hjoined x hx' y hy' hne hxy).imp (hsub ·) (hsub ·)
      · obtain rfl := mem_singleton.mp hy'
        exact .inr (hfound x hx' hne hxy.symm)
      · obtain rfl := mem_singleton.mp hx'
        exact .inl (hfound y hy' (Ne.symm hne) hxy)
      · exact absurd ((mem_singleton.mp hx').trans (mem_singleton.mp hy').symm) hne

theorem indexMembers_ok (hwidth : bandWidth bands = .ok width) (hlt : threshold < bands)
    (order : SetOrder) :
    ∃ index forest, members.foldlM (indexMember order threshold bands (byIdOf members))
        (.empty, Forest.start (members.map signalId)) = .ok (index, forest) ∧
      ∃ pairs, Joining threshold members forest pairs ∧
        ∀ x ∈ members, ∀ y ∈ members, x ≠ y → Near threshold x y →
          (x.signalId, y.signalId) ∈ pairs ∨ (y.signalId, x.signalId) ∈ pairs := by
  -- The whole loop never fails, and its sets are the components of all near pairs.
  have hstart : ([] : List ClusterMember) ⊆ members ∧ Indexed threshold bands width members []
      ((.empty : BandedIndex), Forest.start (members.map signalId)) := by
    refine ⟨nil_subset _, fun key x hx => ?_, by simp, [],
      ⟨Forest.components_start _, by simp⟩, by simp⟩
    cases hx
  obtain ⟨⟨index, forest⟩, hok, -, hindexed⟩ := foldlM_done
    (f := indexMember order threshold bands (byIdOf members))
    (I := fun done state => done ⊆ members ∧ Indexed threshold bands width members done state)
    hstart fun done m hm state hdone => by
      obtain ⟨state', hok, h⟩ :=
        indexMember_ok hnodup hthreshold hwidth hlt order hdone.2 hm hdone.1
      exact ⟨state', hok, append_subset.mpr ⟨hdone.1, by simpa using hm⟩, h⟩
  exact ⟨index, forest, hok, hindexed.joined⟩

omit hthreshold in
theorem linked_iff (hjoining : Joining threshold members forest pairs)
    (hall : ∀ x ∈ members, ∀ y ∈ members, x ≠ y → Near threshold x y →
      (x.signalId, y.signalId) ∈ pairs ∨ (y.signalId, x.signalId) ∈ pairs)
    {x y : ClusterMember} (hx : x ∈ members) (hy : y ∈ members) :
    UnionFind.Linked pairs x.signalId y.signalId ↔ SameStory threshold members x y := by
  constructor
  · intro hlinked
    -- Sent to the classes of `SameStory`, linked ids have equal images.
    let near := fun x y => x ∈ members ∧ y ∈ members ∧ Near threshold x y
    let story := fun i => ((byIdOf members).get? i).map (Quot.mk near)
    have hstory : ∀ p ∈ pairs, story p.1 = story p.2 := by
      intro p hp
      obtain ⟨a, ha, b, hb, hida, hidb, hnear⟩ := hjoining.near p hp
      have hab : Quot.mk near a = Quot.mk near b := Quot.sound ⟨ha, hb, hnear⟩
      simp only [story, (get?_byIdOf hnodup).mpr ⟨ha, hida⟩, (get?_byIdOf hnodup).mpr ⟨hb, hidb⟩,
        Option.map_some, hab]
    have heq := UnionFind.Linked.rec_on hstory hlinked
    simp only [story, (get?_byIdOf hnodup).mpr ⟨hx, rfl⟩, (get?_byIdOf hnodup).mpr ⟨hy, rfl⟩,
      Option.map_some, Option.some.injEq] at heq
    exact Quot.eqvGen_exact heq
  · intro hstory
    clear hx hy
    induction hstory with
    | rel a b hab =>
      obtain ⟨ha, hb, hnear⟩ := hab
      by_cases hne : a = b
      · subst hne
        exact .refl _
      · rcases hall a ha b hb hne hnear with h | h
        · exact .rel _ _ h
        · exact .symm _ _ (.rel _ _ h)
    | refl a => exact .refl _
    | symm a b _ ih => exact .symm _ _ ih
    | trans a b c _ _ ih ih' => exact .trans _ _ _ ih ih'

end

/-! ## Clusters -/

theorem electionKey_id (h : electionKey x = electionKey y) : x.signalId = y.signalId := by
  have h' := congrArg (fun k => (ofLex (ofLex k).2).2) h
  simpa only [electionKey, ofLex_toLex] using h'

theorem nodup_electionKey
    (hnodup : (members.map signalId).Nodup) : (members.map electionKey).Nodup := by
  refine pairwise_map.mpr ((pairwise_map.mp hnodup).imp fun hne heq => ?_)
  exact hne (electionKey_id heq)

structure Elected (sha256 : String → String) (c : Cluster) : Prop where
  ordered : c.members.Pairwise fun a b => electionKey a < electionKey b
  canonical : c.canonicalId = (c.members.head c.members_ne).signalId
  named : clusterIdFor sha256 c.canonicalId = .ok c.clusterId

theorem makeCluster_ok (sha256 : String → String) {group : List ClusterMember} (hne : group ≠ [])
    (hnodup : (group.map signalId).Nodup) :
    ∃ c, makeCluster sha256 group = .ok c ∧ c.members = sortedBy electionKey group ∧
      Elected sha256 c := by
  have hstrict := sortedBy_strict (nodup_electionKey hnodup)
  unfold makeCluster
  split
  next heq =>
    have hlen := (sortedBy_perm electionKey group).length_eq
    rw [heq] at hlen
    exact absurd (length_eq_zero_iff.mp hlen.symm) hne
  next canonical rest heq =>
    have hid : clusterIdFor sha256 canonical.signalId =
        .ok ("dc_" ++ String.ofList ((sha256 canonical.signalId).toList.take 12)) :=
      if_neg canonical.signalId_ne
    rw [hid]
    refine ⟨⟨_, canonical.signalId, canonical :: rest, cons_ne_nil _ _⟩, rfl,
      heq.symm, ?_, rfl, hid⟩
    rwa [heq] at hstrict

/-- The clusters are the connected components of the near-duplicate graph, each with its canonical
member first, in the order of the canonical members. -/
structure Clustering (sha256 : String → String) (threshold : ℤ) (members : List ClusterMember)
    (clusters : List Cluster) : Prop where
  partition : (clusters.map Cluster.members).flatten.Perm members
  together : ∀ x y, Together (clusters.map Cluster.members) x y ↔
    x ∈ members ∧ y ∈ members ∧ SameStory threshold members x y
  elected : ∀ c ∈ clusters, Elected sha256 c
  sorted : clusters.Pairwise fun a b => a.sortKey < b.sortKey

theorem Cluster.head_mem (c : Cluster) : c.members.head c.members_ne ∈ c.members :=
  List.head_mem _

theorem nodup_sortKey {clusters : List Cluster}
    (hnodup : (((clusters.map Cluster.members).flatten).map signalId).Nodup) :
    (clusters.map Cluster.sortKey).Nodup := by
  induction clusters with
  | nil => exact .nil
  | cons c clusters ih =>
    rw [map_cons, flatten_cons, map_append, nodup_append] at hnodup
    obtain ⟨-, hrest, hdisjoint⟩ := hnodup
    refine nodup_cons.mpr ⟨fun hmem => ?_, ih hrest⟩
    obtain ⟨c', hc', hkey⟩ := mem_map.mp hmem
    refine hdisjoint _ (mem_map_of_mem c.head_mem) _ ?_ (electionKey_id hkey).symm
    exact mem_map_of_mem (mem_flatten_of_mem (mem_map_of_mem hc') c'.head_mem)

theorem SameStory.congr {members members' : List ClusterMember} (hperm : members.Perm members') :
    SameStory threshold members = SameStory threshold members' := by
  unfold SameStory
  simp only [hperm.mem_iff]

theorem Elected.eq {sha256 : String → String} {c c' : Cluster} (h : Elected sha256 c)
    (h' : Elected sha256 c') (hmem : ∀ x, x ∈ c.members ↔ x ∈ c'.members) : c = c' := by
  have hmembers := eq_of_strict h.ordered h'.ordered hmem
  obtain ⟨clusterId, canonicalId, members, hne⟩ := c
  obtain ⟨clusterId', canonicalId', members', hne'⟩ := c'
  obtain rfl : members = members' := hmembers
  obtain rfl : canonicalId = canonicalId' := h.canonical.trans h'.canonical.symm
  obtain rfl : clusterId = clusterId' := Except.ok.inj (h.named.symm.trans h'.named)
  rfl

section

variable {sha256 : String → String} {members members' : List ClusterMember}
  {clusters clusters' : List Cluster}

theorem Clustering.subset (h : Clustering sha256 threshold members clusters)
    (h' : Clustering sha256 threshold members' clusters') (hperm : members.Perm members')
    (hnodup : members.Nodup) {c : Cluster} (hc : c ∈ clusters) : c ∈ clusters' := by
  have hflat := h.partition.nodup_iff.mpr hnodup
  have hflat' := h'.partition.nodup_iff.mpr (hperm.nodup_iff.mp hnodup)
  have hblock := mem_map_of_mem (f := Cluster.members) hc
  have hhead := (h'.partition.trans hperm.symm).mem_iff.mpr
    (h.partition.mem_iff.mp (mem_flatten_of_mem hblock c.head_mem))
  obtain ⟨block, hblock', hhead'⟩ := mem_flatten.mp hhead
  obtain ⟨c', hc', rfl⟩ := mem_map.mp hblock'
  have hmem : ∀ z, z ∈ c.members ↔ z ∈ c'.members := by
    intro z
    rw [mem_block_iff hflat hblock c.head_mem, mem_block_iff hflat' hblock' hhead',
      h.together, h'.together, SameStory.congr hperm, hperm.mem_iff, hperm.mem_iff]
  rwa [(h.elected c hc).eq (h'.elected c' hc') hmem]

theorem Clustering.unique (h : Clustering sha256 threshold members clusters)
    (h' : Clustering sha256 threshold members' clusters') (hperm : members.Perm members')
    (hnodup : members.Nodup) : clusters = clusters' :=
  eq_of_strict h.sorted h'.sorted fun _ =>
    ⟨h.subset h' hperm hnodup, h'.subset h hperm.symm (hperm.nodup_iff.mp hnodup)⟩

end

/-! ## `assign_clusters` -/

section

variable {members : List ClusterMember} (hnodup : (members.map signalId).Nodup)
include hnodup

theorem flatMap_byIdOf : ((members.map signalId).flatMap fun memberId =>
    ((byIdOf members).get? memberId).toList) = members := by
  rw [flatMap_map]
  calc (members.flatMap fun m => ((byIdOf members).get? m.signalId).toList)
      = members.flatMap fun m => [m] := flatMap_congr fun m hm => by
        rw [(get?_byIdOf hnodup).mpr ⟨hm, rfl⟩, Option.toList_some]
    _ = members := flatMap_singleton' members

theorem together_groups {forest : Forest String} {pairs : List (String × String)}
    (hjoining : Joining threshold members forest pairs)
    (hall : ∀ x ∈ members, ∀ y ∈ members, x ≠ y → Near threshold x y →
      (x.signalId, y.signalId) ∈ pairs ∨ (y.signalId, x.signalId) ∈ pairs)
    {x y : ClusterMember} :
    Together (forest.group fun memberId => ((byIdOf members).get? memberId).toList).values x y ↔
      x ∈ members ∧ y ∈ members ∧ SameStory threshold members x y := by
  rw [Forest.group_ranked, hjoining.sets.together_group]
  simp only [Option.mem_toList, get?_byIdOf hnodup]
  constructor
  · rintro ⟨_, -, _, -, hlinked, ⟨hx, rfl⟩, ⟨hy, rfl⟩⟩
    exact ⟨hx, hy, (linked_iff hnodup hjoining hall hx hy).mp hlinked⟩
  · rintro ⟨hx, hy, hstory⟩
    exact ⟨x.signalId, mem_map_of_mem hx, y.signalId, mem_map_of_mem hy,
      (linked_iff hnodup hjoining hall hx hy).mpr hstory, ⟨hx, rfl⟩, ⟨hy, rfl⟩⟩

theorem makeClusters_ok (sha256 : String → String) {groups : List (List ClusterMember)}
    (hperm : groups.flatten.Perm members) (hne : [] ∉ groups)
    (htogether : ∀ x y, Together groups x y ↔
      x ∈ members ∧ y ∈ members ∧ SameStory threshold members x y) :
    ∃ clusters, groups.mapM (makeCluster sha256) = .ok clusters ∧
      Clustering sha256 threshold members (sortedBy Cluster.sortKey clusters) := by
  -- Groups that partition the members become their clustering.
  have hids : (groups.flatten.map signalId).Nodup :=
    (hperm.map signalId).nodup_iff.mpr hnodup
  have hgroup : ∀ g ∈ groups, ∃ c, makeCluster sha256 g = .ok c ∧
      c.members = sortedBy electionKey g ∧ Elected sha256 c := by
    intro g hg
    refine makeCluster_ok sha256 (fun hnil => hne (hnil ▸ hg)) (hids.sublist ?_)
    exact (sublist_flatten_of_mem hg).map signalId
  obtain ⟨clusters, hok, hmade⟩ := mapM_done hgroup
  have hmembers : clusters.map Cluster.members = groups.map (sortedBy electionKey) := by
    have hall : List.Forall₂ (· = ·) (clusters.map Cluster.members)
        (groups.map (sortedBy electionKey)) :=
      List.forall₂_map_left_iff.mpr (List.forall₂_map_right_iff.mpr
        (List.Forall₂.flip (hmade.imp fun _ _ h => h.1)))
    rwa [List.forall₂_eq_eq_eq] at hall
  have helected : ∀ c ∈ clusters, Elected sha256 c := fun c hc =>
    let ⟨_, _, _, h⟩ := forall₂_mem_right hmade c hc
    h
  have hsorted := sortedBy_perm Cluster.sortKey clusters
  have hflatten : (clusters.map Cluster.members).flatten.Perm members :=
    hmembers ▸ (flatten_map_perm (sortedBy_perm electionKey) groups).trans hperm
  refine ⟨clusters, hok, (hsorted.map _).flatten.trans hflatten, fun x y => ?_, fun c hc => ?_, ?_⟩
  · rw [Together.perm (hsorted.map _), hmembers, together_map_perm (sortedBy_perm electionKey),
      htogether]
  · exact helected c (hsorted.mem_iff.mp hc)
  · refine sortedBy_strict (nodup_sortKey ?_)
    exact (hflatten.map signalId).nodup_iff.mpr hnodup

theorem assignClusters_clustering (order : SetOrder) (sha256 : String → String)
    (hwidth : bandWidth bands = .ok width) (hthreshold : 0 ≤ threshold) (hlt : threshold < bands) :
    ∃ clusters, assignClusters order sha256 threshold bands members = .ok clusters ∧
      Clustering sha256 threshold members clusters := by
  obtain ⟨hpos, hmul⟩ := bandWidth_ok hwidth
  have hbits : threshold ≤ SIMHASH_BITS := by
    have hne : width ≠ 0 := by
      rintro rfl
      cases hmul
    have hle : bands.toNat ≤ SIMHASH_BITS :=
      hmul ▸ Nat.le_mul_of_pos_right _ (Nat.pos_of_ne_zero hne)
    omega
  obtain ⟨index, forest, hloop, pairs, hjoining, hall⟩ :=
    indexMembers_ok hnodup ⟨hthreshold, hbits⟩ hwidth hlt order
  have hperm : (forest.group fun memberId => ((byIdOf members).get? memberId).toList).values.flatten.Perm
      members := by
    rw [Forest.group_ranked]
    exact (hjoining.sets.group_perm _).trans (.of_eq (flatMap_byIdOf hnodup))
  have hne : [] ∉ (forest.group fun memberId => ((byIdOf members).get? memberId).toList).values := by
    rw [Forest.group_ranked]
    refine hjoining.sets.group_nonempty _ fun memberId hid => ?_
    obtain ⟨m, hm, rfl⟩ := mem_map.mp hid
    rw [(get?_byIdOf hnodup).mpr ⟨hm, rfl⟩]
    exact cons_ne_nil _ _
  obtain ⟨clusters, hclusters, hclustering⟩ := makeClusters_ok hnodup sha256 hperm hne
    fun x y => together_groups hnodup hjoining hall
  refine ⟨_, ?_, hclustering⟩
  have hrun : (byIdOf members).values.foldlM (indexMember order threshold bands (byIdOf members))
      (.empty, Forest.start (byIdOf members).keys) = .ok (index, forest) := by
    rw [values_byIdOf hnodup, keys_byIdOf hnodup]
    exact hloop
  unfold assignClusters
  rw [if_neg (not_le.mpr hlt), hwidth, addMembers_ok hnodup]
  simp only [bind, Except.bind, hrun, hclusters]
  rfl

end

/-- The clusters are the connected components, each with the minimum of the election key as its
canonical member, and the result is that of any permutation of the members. -/
theorem assignClusters_components (order : SetOrder) (sha256 : String → String)
    {members : List ClusterMember} (hnodup : (members.map signalId).Nodup)
    (hwidth : bandWidth bands = .ok width) (hthreshold : 0 ≤ threshold) (hlt : threshold < bands) :
    ∃ clusters, assignClusters order sha256 threshold bands members = .ok clusters ∧
      (clusters.flatMap Cluster.members).Perm members ∧
      (∀ x ∈ members, ∀ y ∈ members, (∃ c ∈ clusters, x ∈ c.members ∧ y ∈ c.members) ↔
        SameStory threshold members x y) ∧
      (∀ c ∈ clusters, ∃ m ∈ c.members, m.signalId = c.canonicalId ∧
        ∀ m' ∈ c.members, electionKey m ≤ electionKey m') ∧
      ∀ (order' : SetOrder) (members' : List ClusterMember), members'.Perm members →
        assignClusters order' sha256 threshold bands members' = .ok clusters := by
  obtain ⟨clusters, hok, h⟩ :=
    assignClusters_clustering hnodup order sha256 hwidth hthreshold hlt
  refine ⟨clusters, hok, ?_, fun x hx y hy => ?_, fun c hc => ?_, fun order' members' hperm => ?_⟩
  · rw [flatMap_def]
    exact h.partition
  · have htogether := h.together x y
    unfold Together at htogether
    simp only [mem_map, exists_exists_and_eq_and] at htogether
    rw [htogether]
    exact ⟨fun h => h.2.2, fun h => ⟨hx, hy, h⟩⟩
  · have helected := h.elected c hc
    refine ⟨c.members.head c.members_ne, c.head_mem, helected.canonical.symm, fun m' hm' => ?_⟩
    have hordered := helected.ordered
    rw [← cons_head_tail c.members_ne] at hordered hm'
    rcases mem_cons.mp hm' with rfl | hm'
    · exact le_rfl
    · exact ((pairwise_cons.mp hordered).1 m' hm').le
  · have hnodup' := (hperm.map signalId).nodup_iff.mpr hnodup
    obtain ⟨clusters', hok', h'⟩ :=
      assignClusters_clustering hnodup' order' sha256 hwidth hthreshold hlt
    rw [hok', h.unique h' hperm.symm hnodup.of_map]

def acmeWire : ClusterMember :=
  ⟨"sig_wire", 1, 0xf0, 17 / 20, some "rss", by decide, by decide, by decide +kernel⟩

def acmeBlog : ClusterMember :=
  ⟨"sig_blog", 2, 0xf1, 13 / 20, some "blog", by decide, by decide, by decide +kernel⟩

/-- One bit apart, the two copies are one story. -/
theorem assignClusters_components_acme : ∃ clusters,
    assignClusters ⟨fun _ found => found, fun _ _ => .refl _⟩ id 3 4 [acmeWire, acmeBlog] =
      .ok clusters ∧ ∃ c ∈ clusters, acmeWire ∈ c.members ∧ acmeBlog ∈ c.members := by
  obtain ⟨clusters, hok, -, htogether, -⟩ := @assignClusters_components 3 4 16
    ⟨fun _ found => found, fun _ _ => .refl _⟩ id [acmeWire, acmeBlog]
    (by decide) (by rfl) (by decide) (by decide)
  refine ⟨clusters, hok, (htogether acmeWire (by simp) acmeBlog (by simp)).mpr ?_⟩
  exact .rel _ _ ⟨by simp, by simp, by decide, by decide, by decide⟩

end OmniSense.Connectors
