import OmniSense.Library.Bits
import OmniSense.Retrieval.Types
import Mathlib.Algebra.BigOperators.Group.List.Basic
import Mathlib.Data.Finset.Lattice.Basic
import Mathlib.Data.Int.Bitwise
import Mathlib.Data.List.Flatten

/-! `collapse_near_duplicates`: the passages each survivor absorbed, followed beside the list of
survivors, and the evidence that is left in the end. -/

namespace OmniSense.Retrieval

open Library List

def hamming (a b : ℤ) : ℕ := bitCount (Int.xor a b).natAbs

theorem hamming_comm (a b : ℤ) : hamming a b = hamming b a := by
  unfold hamming
  cases a <;> cases b <;> simp only [Int.xor, Nat.xor_comm]

def absorb (keeper absorbed : Passage) : Passage :=
  let collapsed := keeper.collapsedSignalIds
  { keeper with
    duplicateOfCount := keeper.duplicateOfCount + 1
    collapsedSignalIds :=
      if absorbed.signalId ≠ keeper.signalId ∧ absorbed.signalId ∉ collapsed then
        collapsed ++ [absorbed.signalId]
      else collapsed
    foundBy := keeper.foundBy ∪ absorbed.foundBy }

structure Survivors where
  passages : List Passage
  hashes : List (ℕ × ℤ)

section

variable (simhashOf : Passage → Option ℤ) (maxDistance : ℤ)

def Survivors.add (s : Survivors) (passage : Passage) : Survivors :=
  match simhashOf passage with
  | none => { s with passages := s.passages ++ [passage] }
  | some fingerprint =>
    match s.hashes.find? fun entry => (hamming fingerprint entry.2 : ℤ) ≤ maxDistance with
    | none => ⟨s.passages ++ [passage], s.hashes ++ [(s.passages.length, fingerprint)]⟩
    | some entry =>
      { s with passages := s.passages.modify entry.1 fun keeper => absorb keeper passage }

def collapseNearDuplicates (passages : List Passage) : List Passage :=
  (passages.foldl (Survivors.add simhashOf maxDistance) ⟨[], []⟩).passages

end

/-! ## What a survivor absorbed -/

structure Cluster where
  leader : Passage
  absorbed : List Passage

namespace Cluster

def members (c : Cluster) : List Passage := c.leader :: c.absorbed

def survivor (c : Cluster) : Passage := c.absorbed.foldl absorb c.leader

def put (passage : Passage) (c : Cluster) : Cluster :=
  { c with absorbed := c.absorbed ++ [passage] }

theorem survivor_put (c : Cluster) (passage : Passage) :
    (c.put passage).survivor = absorb c.survivor passage :=
  foldl_concat ..

end Cluster

def Passage.signalIds (p : Passage) : List String := p.signalId :: p.collapsedSignalIds

theorem mem_signalIds_absorb {keeper absorbed : Passage} {id : String} :
    id ∈ (absorb keeper absorbed).signalIds ↔ id ∈ keeper.signalIds ∨ id = absorbed.signalId := by
  unfold Passage.signalIds absorb
  dsimp only
  split_ifs with hnew
  · rw [mem_cons, mem_append, mem_singleton, mem_cons, or_assoc]
  · -- The Signal of the absorbed passage is there already.
    have hknown : absorbed.signalId = keeper.signalId ∨
        absorbed.signalId ∈ keeper.collapsedSignalIds := by
      by_contra h
      rw [not_or] at h
      exact hnew h
    rw [mem_cons]
    constructor
    · exact Or.inl
    · rintro (h | rfl)
      · exact h
      · exact hknown

theorem mem_signalIds_survivor {c : Cluster} {id : String} :
    id ∈ c.survivor.signalIds ↔ id ∈ c.members.map Passage.signalId ∨
      id ∈ c.leader.collapsedSignalIds := by
  obtain ⟨leader, absorbed⟩ := c
  unfold Cluster.survivor Cluster.members
  induction absorbed using List.reverseRecOn with
  | nil => simp [Passage.signalIds]
  | append_singleton absorbed p ih =>
    rw [foldl_concat, mem_signalIds_absorb, ih, ← cons_append, map_append,
      mem_append, map_singleton, mem_singleton]
    exact or_right_comm

theorem mem_foundBy_survivor {c : Cluster} {b : Backend} :
    b ∈ c.survivor.foundBy ↔ ∃ p ∈ c.members, b ∈ p.foundBy := by
  obtain ⟨leader, absorbed⟩ := c
  unfold Cluster.survivor Cluster.members
  induction absorbed using List.reverseRecOn with
  | nil => simp
  | append_singleton absorbed p ih =>
    rw [foldl_concat]
    change b ∈ (absorbed.foldl absorb leader).foundBy ∪ p.foundBy ↔ _
    rw [Finset.mem_union, ih, ← cons_append]
    simp only [mem_append, mem_singleton, or_and_right, exists_or, exists_eq_left]

theorem survivor_eq (c : Cluster) : c.survivor =
    { c.leader with
      duplicateOfCount := c.leader.duplicateOfCount + c.absorbed.length
      collapsedSignalIds := c.survivor.collapsedSignalIds
      foundBy := c.survivor.foundBy } := by
  obtain ⟨leader, absorbed⟩ := c
  unfold Cluster.survivor
  induction absorbed using List.reverseRecOn with
  | nil => simp
  | append_singleton absorbed p ih =>
    rw [foldl_concat, absorb, ih, length_append]
    simp [add_assoc]

/-! ## The clusters of a run -/

section

variable (simhashOf : Passage → Option ℤ) (maxDistance : ℤ)

def Apart (p q : Passage) : Prop :=
  ∀ a ∈ simhashOf p, ∀ b ∈ simhashOf q, maxDistance < hamming a b

def Near (p q : Passage) : Prop :=
  ∃ a ∈ simhashOf p, ∃ b ∈ simhashOf q, hamming a b ≤ maxDistance

/-- The passages in clusters: the leaders in their order and far from each other, every other
passage near its leader. -/
structure Clustered (passages : List Passage) (clusters : List Cluster) : Prop where
  leaders : (clusters.map Cluster.leader).Sublist passages
  members : (clusters.flatMap Cluster.members).Perm passages
  apart : (clusters.map Cluster.leader).Pairwise (Apart simhashOf maxDistance)
  near : ∀ c ∈ clusters, ∀ p ∈ c.absorbed, Near simhashOf maxDistance p c.leader

structure Survivors.Follows (seen : List Passage) (clusters : List Cluster) (s : Survivors) :
    Prop where
  clustered : Clustered simhashOf maxDistance seen clusters
  passages : s.passages = clusters.map Cluster.survivor
  hashes : ∀ entry, entry ∈ s.hashes ↔
    ∃ leader, (clusters.map Cluster.leader)[entry.1]? = some leader ∧
      simhashOf leader = some entry.2

end

section

variable {simhashOf : Passage → Option ℤ} {maxDistance : ℤ} {seen : List Passage}
  {clusters : List Cluster} {s : Survivors} {p : Passage}

theorem Clustered.lead (h : Clustered simhashOf maxDistance seen clusters)
    (hfar : ∀ leader ∈ clusters.map Cluster.leader, Apart simhashOf maxDistance leader p) :
    Clustered simhashOf maxDistance (seen ++ [p]) (clusters ++ [⟨p, []⟩]) where
  leaders := by
    rw [map_append]
    exact h.leaders.append (.refl _)
  members := by
    rw [flatMap_append]
    exact h.members.append (.refl _)
  apart := by
    rw [map_append, pairwise_append]
    refine ⟨h.apart, pairwise_singleton _ _, fun leader hleader q hq => ?_⟩
    obtain rfl : q = p := mem_singleton.mp hq
    exact hfar leader hleader
  near := by
    intro c hc q hq
    rcases mem_append.mp hc with hc | hc
    · exact h.near c hc q hq
    · obtain rfl := mem_singleton.mp hc
      cases hq

theorem map_modify_of_eq {α β : Type} {f : α → β} {g : α → α} {k : β → β}
    (h : ∀ a, f (g a) = k (f a)) (l : List α) (i : ℕ) :
    (l.modify i g).map f = (l.map f).modify i k := by
  refine ext_getElem? fun j => ?_
  rw [List.getElem?_map, List.getElem?_modify, List.getElem?_modify, List.getElem?_map]
  cases l[j]? with
  | none => rfl
  | some a =>
    split_ifs
    · exact congrArg some (h a)
    · rfl

theorem leaders_put (clusters : List Cluster) (i : ℕ) (p : Passage) :
    (clusters.modify i (Cluster.put p)).map Cluster.leader = clusters.map Cluster.leader := by
  have hkept : ∀ c : Cluster, (c.put p).leader = id c.leader := fun _ => rfl
  rw [map_modify_of_eq hkept, modify_id]

theorem Clustered.put (h : Clustered simhashOf maxDistance seen clusters) {i : ℕ}
    {leader : Passage} (hleader : (clusters.map Cluster.leader)[i]? = some leader)
    (hnear : Near simhashOf maxDistance p leader) :
    Clustered simhashOf maxDistance (seen ++ [p]) (clusters.modify i (Cluster.put p)) := by
  have hlt : i < clusters.length := by
    rw [← length_map (f := Cluster.leader)]
    exact (List.getElem?_eq_some_iff.mp hleader).1
  obtain ⟨before, c, behind, rfl, rfl, hput⟩ := exists_of_modify (Cluster.put p) hlt
  have hc : c.leader = leader := by
    rw [map_append, List.getElem?_append_right (by simp), length_map,
      Nat.sub_self] at hleader
    exact Option.some.inj hleader
  constructor
  · rw [leaders_put]
    exact h.leaders.trans (sublist_append_left _ _)
  · have hmembers := h.members
    rw [flatMap_append, flatMap_cons] at hmembers
    rw [hput, flatMap_append, flatMap_cons]
    -- The passage is last in its cluster and last of those seen.
    refine List.Perm.trans ?_ (hmembers.append_right [p])
    rw [append_assoc, append_assoc]
    refine List.Perm.append_left _ ?_
    change ((c.members ++ [p]) ++ behind.flatMap Cluster.members).Perm _
    rw [append_assoc]
    exact List.Perm.append_left _ perm_append_comm
  · rw [leaders_put]
    exact h.apart
  · rw [hput]
    intro d hd q hq
    rcases mem_append.mp hd with hd | hd
    · exact h.near d (mem_append_left _ hd) q hq
    · rcases mem_cons.mp hd with rfl | hd
      · rcases mem_append.mp hq with hq | hq
        · exact h.near c (mem_append_right _ mem_cons_self) q hq
        · obtain rfl := mem_singleton.mp hq
          change Near simhashOf maxDistance q c.leader
          rw [hc]
          exact hnear
      · exact h.near d (mem_append_right _ (mem_cons_of_mem _ hd)) q hq

theorem Survivors.Follows.lead (h : s.Follows simhashOf maxDistance seen clusters)
    (hfar : ∀ leader ∈ clusters.map Cluster.leader, Apart simhashOf maxDistance leader p)
    {hashes : List (ℕ × ℤ)}
    (hhashes : ∀ entry, entry ∈ hashes ↔ entry ∈ s.hashes ∨
      (entry.1 = s.passages.length ∧ simhashOf p = some entry.2)) :
    Survivors.Follows simhashOf maxDistance (seen ++ [p]) (clusters ++ [⟨p, []⟩])
      ⟨s.passages ++ [p], hashes⟩ := by
  have hlength : s.passages.length = (clusters.map Cluster.leader).length := by
    rw [h.passages, length_map, length_map]
  refine ⟨h.clustered.lead hfar, ?_, fun entry => ?_⟩
  · rw [map_append, ← h.passages]
    rfl
  · rw [hhashes, h.hashes, map_append, hlength]
    constructor
    · rintro (⟨leader, hleader, hsome⟩ | ⟨hindex, hsome⟩)
      · have hlt := (List.getElem?_eq_some_iff.mp hleader).1
        exact ⟨leader, (List.getElem?_append_left hlt).trans hleader, hsome⟩
      · exact ⟨p, hindex ▸ List.getElem?_concat_length .., hsome⟩
    · rintro ⟨leader, hleader, hsome⟩
      rcases Nat.lt_or_ge entry.1 (clusters.map Cluster.leader).length with hlt | hge
      · rw [List.getElem?_append_left hlt] at hleader
        exact .inl ⟨leader, hleader, hsome⟩
      · rw [List.getElem?_append_right hge] at hleader
        have hlt := (List.getElem?_eq_some_iff.mp hleader).1
        obtain rfl : leader = p := mem_singleton.mp (mem_of_getElem? hleader)
        rw [map_singleton, length_singleton] at hlt
        exact .inr ⟨by omega, hsome⟩

theorem Survivors.Follows.add (h : s.Follows simhashOf maxDistance seen clusters) (p : Passage) :
    ∃ clusters', (s.add simhashOf maxDistance p).Follows simhashOf maxDistance (seen ++ [p])
      clusters' := by
  unfold Survivors.add
  cases hprint : simhashOf p with
  | none =>
    refine ⟨_, h.lead (fun leader _ a _ b hb => ?_) fun entry => ?_⟩
    · rw [hprint] at hb
      cases hb
    · rw [hprint]
      exact ⟨.inl, fun hentry => hentry.elim id fun hnew => nomatch hnew.2⟩
  | some fingerprint =>
    dsimp only
    cases hfind : s.hashes.find? fun entry =>
        decide ((hamming fingerprint entry.2 : ℤ) ≤ maxDistance) with
    | none =>
      rw [List.find?_eq_none] at hfind
      refine ⟨_, h.lead (fun leader hleader a ha b hb => ?_) fun entry => ?_⟩
      · obtain rfl : fingerprint = b := Option.some.inj (hprint.symm.trans hb)
        obtain ⟨i, hi⟩ := mem_iff_getElem?.mp hleader
        have hfar := hfind (i, a) ((h.hashes _).mpr ⟨leader, hi, ha⟩)
        rw [decide_eq_true_iff, not_le, hamming_comm] at hfar
        exact hfar
      · rw [mem_append, mem_singleton, Prod.ext_iff, hprint, Option.some_inj,
          eq_comm (a := fingerprint)]
    | some entry =>
      have hnear : ((hamming fingerprint entry.2 : ℕ) : ℤ) ≤ maxDistance :=
        of_decide_eq_true (List.find?_some (p := fun entry : ℕ × ℤ =>
          decide ((hamming fingerprint entry.2 : ℤ) ≤ maxDistance)) hfind)
      obtain ⟨leader, hleader, hsome⟩ := (h.hashes entry).mp (mem_of_find?_eq_some hfind)
      refine ⟨clusters.modify entry.1 (Cluster.put p), ?_, ?_, ?_⟩
      · exact h.clustered.put hleader ⟨_, hprint, _, hsome, hnear⟩
      · have hput : ∀ c : Cluster, (c.put p).survivor = absorb c.survivor p :=
          fun c => c.survivor_put p
        rw [map_modify_of_eq (k := fun keeper => absorb keeper p) hput, ← h.passages]
      · rw [leaders_put]
        exact h.hashes

/-! ## The evidence -/

theorem collapse_follows (simhashOf : Passage → Option ℤ) (maxDistance : ℤ)
    (passages : List Passage) : ∃ clusters,
      Clustered simhashOf maxDistance passages clusters ∧
        collapseNearDuplicates simhashOf maxDistance passages = clusters.map Cluster.survivor := by
  suffices h : ∃ clusters, (passages.foldl (Survivors.add simhashOf maxDistance) ⟨[], []⟩).Follows
      simhashOf maxDistance passages clusters by
    obtain ⟨clusters, hfollows⟩ := h
    exact ⟨clusters, hfollows.clustered, hfollows.passages⟩
  induction passages using List.reverseRecOn with
  | nil =>
    refine ⟨[], ⟨.slnil, .nil, .nil, fun c hc => nomatch hc⟩, rfl, fun entry => ?_⟩
    refine iff_of_false not_mem_nil ?_
    rintro ⟨leader, hleader, -⟩
    cases hleader
  | append_singleton seen p ih =>
    obtain ⟨clusters, hfollows⟩ := ih
    rw [foldl_concat]
    exact hfollows.add p

theorem Clustered.counts (h : Clustered simhashOf maxDistance seen clusters)
    (hfresh : ∀ p ∈ seen, p.duplicateOfCount = 0) :
    ((clusters.map Cluster.survivor).map fun s => (1 + s.duplicateOfCount : ℤ)).sum =
      seen.length := by
  have hone : ∀ c ∈ clusters, 1 + c.survivor.duplicateOfCount = c.members.length := by
    intro c hc
    have hleader := hfresh _ (h.leaders.subset (mem_map_of_mem hc))
    have hcount : c.survivor.duplicateOfCount =
        c.leader.duplicateOfCount + c.absorbed.length :=
      congrArg Passage.duplicateOfCount (survivor_eq c)
    rw [hcount, hleader, Cluster.members, length_cons]
    omega
  rw [← h.members.length_eq]
  clear h
  induction clusters with
  | nil => rfl
  | cons c rest ih =>
    obtain ⟨hc, hrest⟩ := forall_mem_cons.mp hone
    rw [map_cons, map_cons, sum_cons, hc, ih hrest, flatMap_cons,
      length_append, Nat.cast_add]

theorem Clustered.evidence (h : Clustered simhashOf maxDistance seen clusters) (id : String) :
    id ∈ (clusters.map Cluster.survivor).flatMap Passage.signalIds ↔
      id ∈ seen.map Passage.signalId ∨
        id ∈ (clusters.map Cluster.leader).flatMap Passage.collapsedSignalIds := by
  have hseen : id ∈ seen.map Passage.signalId ↔
      ∃ c ∈ clusters, id ∈ c.members.map Passage.signalId := by
    rw [← (h.members.map _).mem_iff, map_flatMap, mem_flatMap]
  rw [hseen, flatMap_map, flatMap_map, mem_flatMap, mem_flatMap, ← exists_or]
  refine exists_congr fun c => ?_
  rw [mem_signalIds_survivor, and_or_left]

def passageOf (signalId : String) (fingerprint : ℤ) (collapsedSignalIds : List String) : Passage :=
  ⟨signalId, signalId, "text", fingerprint, 16, 0, none, {.keyword}, 0, collapsedSignalIds⟩

end

end OmniSense.Retrieval
