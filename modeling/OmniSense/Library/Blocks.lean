import Mathlib.Algebra.Order.Group.Nat
import Mathlib.Data.List.Flatten
import Mathlib.Data.List.GetD
import Mathlib.Data.List.Lex
import Mathlib.Data.List.Nodup
import Mathlib.Data.List.Pairwise
import Mathlib.Data.List.Perm.Basic
import Mathlib.Data.List.Sort
import Mathlib.Tactic.Common

/-! Lists of blocks, and agglomeration: joining two blocks at a time until no pair is left to
join. Sorting and joining keep the elements and what is together. -/

namespace OmniSense.Library

open List

variable {α : Type*}

def Together (cs : List (List α)) (x y : α) : Prop := ∃ c ∈ cs, x ∈ c ∧ y ∈ c

variable {cs : List (List α)} {x y : α}

theorem together_self {x : α} : Together cs x x ↔ x ∈ cs.flatten := by
  simp [Together, mem_flatten]

theorem Together.symm (h : Together cs x y) : Together cs y x :=
  let ⟨c, hc, hx, hy⟩ := h
  ⟨c, hc, hy, hx⟩

theorem block_unique (h : cs.flatten.Nodup) {c c' : List α} (hc : c ∈ cs)
    (hc' : c' ∈ cs) {x : α} (hx : x ∈ c) (hx' : x ∈ c') : c = c' := by
  have hsymm : Std.Symm (List.Disjoint (α := α)) := ⟨fun _ _ h x hx hx' => h hx' hx⟩
  by_contra hne
  exact (nodup_flatten.mp h).2.forall hc hc' hne hx hx'

theorem mem_block_iff (h : cs.flatten.Nodup) {c : List α} (hc : c ∈ cs)
    (hx : x ∈ c) : y ∈ c ↔ Together cs x y := by
  constructor
  · exact fun hy => ⟨c, hc, hx, hy⟩
  · rintro ⟨c', hc', hx', hy⟩
    rwa [block_unique h hc hc' hx hx']

theorem Together.trans (hnodup : cs.flatten.Nodup) {x y z : α}
    (h : Together cs x y) (h' : Together cs y z) : Together cs x z := by
  obtain ⟨c, hc, hx, hy⟩ := h
  obtain ⟨c', hc', hy', hz⟩ := h'
  obtain rfl := block_unique hnodup hc hc' hy hy'
  exact ⟨c, hc, hx, hz⟩

theorem flatten_map_perm {f : List α → List α} (hf : ∀ c, (f c).Perm c) (cs : List (List α)) :
    (cs.map f).flatten.Perm cs.flatten := by
  induction cs with
  | nil => rfl
  | cons c cs ih => exact (hf c).append ih

theorem together_map_perm {f : List α → List α} (hf : ∀ c, (f c).Perm c)
    : Together (cs.map f) x y ↔ Together cs x y := by
  constructor
  · rintro ⟨c, hc, hx, hy⟩
    obtain ⟨c', hc', rfl⟩ := mem_map.mp hc
    exact ⟨c', hc', (hf c').mem_iff.mp hx, (hf c').mem_iff.mp hy⟩
  · rintro ⟨c, hc, hx, hy⟩
    exact ⟨f c, mem_map_of_mem hc, (hf c).mem_iff.mpr hx, (hf c).mem_iff.mpr hy⟩

theorem Together.perm {cs cs' : List (List α)} (h : cs.Perm cs') :
    Together cs x y ↔ Together cs' x y := by
  simp only [Together, h.mem_iff]

/-! ## Pairs -/

def pairsOf : List α → List (α × α)
  | [] => []
  | x :: xs => xs.map (fun y => (x, y)) ++ pairsOf xs

theorem mem_pairsOf {l : List α} : (x, y) ∈ pairsOf l ↔ [x, y].Sublist l := by
  induction l with
  | nil => simp [pairsOf]
  | cons z l ih =>
    have hmap : (x, y) ∈ l.map (fun y => (z, y)) ↔ z = x ∧ y ∈ l := by
      simp [and_comm]
    unfold pairsOf
    rw [mem_append, ih, hmap, sublist_cons_iff]
    constructor
    · rintro (⟨rfl, hy⟩ | h)
      · exact .inr ⟨[y], rfl, singleton_sublist.mpr hy⟩
      · exact .inl h
    · rintro (h | ⟨t, ht, hsub⟩)
      · exact .inr h
      · obtain ⟨rfl, rfl⟩ := List.cons.inj ht
        exact .inl ⟨rfl, singleton_sublist.mp hsub⟩

theorem mem_pairsOf_range {n i j : ℕ} : (i, j) ∈ pairsOf (List.range n) ↔ i < j ∧ j < n := by
  rw [mem_pairsOf]
  constructor
  · intro h
    have hlt : i < j := by simpa using pairwise_lt_range.sublist h
    exact ⟨hlt, mem_range.mp (h.subset (by simp))⟩
  · rintro ⟨hij, hj⟩
    have hsplit : List.range n = List.range j ++ (List.range (n - j)).map (j + ·) := by
      rw [← range_add, Nat.add_sub_cancel' hj.le]
    have hright : j ∈ (List.range (n - j)).map (j + ·) :=
      mem_map.mpr ⟨0, mem_range.mpr (by omega), rfl⟩
    rw [hsplit]
    exact (singleton_sublist.mpr (mem_range.mpr hij)).append
      (singleton_sublist.mpr hright)

/-! ## Sorting -/

section

variable [LinearOrder α]

def sorted (c : List α) : List α := c.insertionSort (· ≤ ·)

theorem sorted_perm (c : List α) : (sorted c).Perm c := perm_insertionSort _ _

theorem mem_sorted {c : List α} {x : α} : x ∈ sorted c ↔ x ∈ c := (sorted_perm c).mem_iff

/-- `sorted(l, key=...)`: stable. -/
def sortedBy {β : Type*} (key : β → α) (l : List β) : List β :=
  l.insertionSort fun a b => key a ≤ key b

variable {β : Type*} {n : ℕ}

variable {key : β → α}

theorem insertionSort_eq_sortedBy {r : β → β → Prop} [DecidableRel r]
    (h : ∀ a b, r a b ↔ key a ≤ key b) (l : List β) : l.insertionSort r = sortedBy key l := by
  obtain rfl : r = fun a b => key a ≤ key b := funext₂ fun a b => propext (h a b)
  unfold sortedBy
  congr!

theorem sortedBy_perm (key : β → α) (l : List β) : (sortedBy key l).Perm l :=
  perm_insertionSort _ _

theorem sortedBy_sorted (key : β → α) (l : List β) :
    (sortedBy key l).Pairwise fun a b => key a ≤ key b := by
  exact pairwise_insertionSort _ l

theorem mem_take_sortedBy {l : List β} {x y : β} (hx : x ∈ l)
    (hy : y ∈ (sortedBy key l).take n) (hlt : key x < key y) : x ∈ (sortedBy key l).take n := by
  have hsorted := sortedBy_sorted key l
  rw [← take_append_drop n (sortedBy key l)] at hsorted
  rw [← (sortedBy_perm key l).mem_iff, ← take_append_drop n (sortedBy key l)] at hx
  rcases mem_append.mp hx with hx | hx
  · exact hx
  · exact absurd hlt (not_lt.mpr ((pairwise_append.mp hsorted).2.2 y hy x hx))

theorem sortedBy_strict {β : Type*} {key : β → α} {l : List β} (hnodup : (l.map key).Nodup) :
    (sortedBy key l).Pairwise fun a b => key a < key b := by
  have hkeys : ((sortedBy key l).map key).Nodup :=
    ((sortedBy_perm key l).map key).nodup_iff.mpr hnodup
  have hne := pairwise_map.mp hkeys
  exact ((sortedBy_sorted key l).and hne).imp fun h => lt_of_le_of_ne h.1 h.2

theorem eq_of_strict {β : Type*} {key : β → α} {l l' : List β}
    (h : l.Pairwise fun a b => key a < key b) (h' : l'.Pairwise fun a b => key a < key b)
    (hmem : ∀ x, x ∈ l ↔ x ∈ l') : l = l' := by
  have hnodup : ∀ {m : List β}, (m.Pairwise fun a b => key a < key b) → m.Nodup :=
    fun hm => hm.imp fun {a b} hlt (heq : a = b) => lt_irrefl (key b) (heq ▸ hlt)
  have hperm := (perm_ext_iff_of_nodup (hnodup h) (hnodup h')).mpr hmem
  exact hperm.eq_of_pairwise (fun _ _ _ _ hab hba => absurd hab hba.asymm) h h'

theorem sorted_congr {l l' : List α} (h : l.Perm l') : sorted l = sorted l' := by
  refine (((sorted_perm l).trans h).trans (sorted_perm l').symm).eq_of_pairwise ?_
    (sortedBy_sorted id l) (sortedBy_sorted id l')
  exact fun _ _ _ _ hab hba => le_antisymm hab hba

theorem sortedBy_congr {l l' : List β} (hnodup : (l.map key).Nodup)
    (h : l.Perm l') : sortedBy key l = sortedBy key l' := by
  have hnodup' := (h.map key).nodup_iff.mp hnodup
  refine eq_of_strict (sortedBy_strict hnodup) (sortedBy_strict hnodup') fun x => ?_
  rw [(sortedBy_perm key l).mem_iff, (sortedBy_perm key l').mem_iff, h.mem_iff]

/-- `tuple(sorted(tuple(sorted(members)) for members in ...))`. -/
def sortBlocks (cs : List (List α)) : List (List α) := sorted (cs.map sorted)

theorem sortBlocks_perm (cs : List (List α)) : (sortBlocks cs).flatten.Perm cs.flatten :=
  (sorted_perm (cs.map sorted)).flatten.trans (flatten_map_perm sorted_perm cs)

theorem mem_sortBlocks {cs : List (List α)} {c : List α} :
    c ∈ sortBlocks cs ↔ ∃ c' ∈ cs, sorted c' = c := by
  unfold sortBlocks
  rw [mem_sorted, mem_map]

theorem together_sortBlocks {cs : List (List α)} {x y : α} :
    Together (sortBlocks cs) x y ↔ Together cs x y :=
  (Together.perm (sorted_perm (cs.map sorted))).trans (together_map_perm sorted_perm)

/-! ## Joining -/

/-- Replace the blocks at `i < j` by their union, and sort the blocks. -/
def joinAt (cs : List (List α)) (i j : ℕ) : List (List α) :=
  sorted ((cs.eraseIdx j).eraseIdx i ++ [sorted (cs.getD i [] ++ cs.getD j [])])

variable {cs : List (List α)} {i j : ℕ}

omit [LinearOrder α] in
theorem perm_eraseTwo (hij : i < j) (hj : j < cs.length) :
    (cs.getD i [] :: cs.getD j [] :: (cs.eraseIdx j).eraseIdx i).Perm cs := by
  have hi : i < (cs.eraseIdx j).length := by
    rw [length_eraseIdx_of_lt hj]
    omega
  have hget : (cs.eraseIdx j)[i] = cs[i] := getElem_eraseIdx_of_lt hi hij
  rw [getD_eq_getElem _ _ (hij.trans hj), getD_eq_getElem _ _ hj, ← hget]
  refine (List.Perm.swap _ _ _).trans ?_
  exact ((getElem_cons_eraseIdx_perm hi).cons _).trans (getElem_cons_eraseIdx_perm hj)

theorem joinAt_perm (hij : i < j) (hj : j < cs.length) :
    (joinAt cs i j).flatten.Perm cs.flatten := by
  refine (sorted_perm _).flatten.trans ?_
  rw [flatten_append, flatten_singleton]
  refine (perm_append_comm.trans ?_).trans (perm_eraseTwo hij hj).flatten
  rw [flatten_cons, flatten_cons, ← append_assoc]
  exact (sorted_perm _).append_right _

theorem length_joinAt (hij : i < j) (hj : j < cs.length) :
    (joinAt cs i j).length + 1 = cs.length := by
  have hperm := (perm_eraseTwo hij hj).length_eq
  have hsorted := (sorted_perm
    ((cs.eraseIdx j).eraseIdx i ++ [sorted (cs.getD i [] ++ cs.getD j [])])).length_eq
  unfold joinAt
  simp only [length_cons, length_append, length_nil] at hperm hsorted ⊢
  omega

theorem joinAt_nonempty (hij : i < j) (hj : j < cs.length) (h : [] ∉ cs) : [] ∉ joinAt cs i j := by
  intro hmem
  have hperm := perm_eraseTwo hij hj
  rcases mem_append.mp (mem_sorted.mp hmem) with hold | hnew
  · exact h (hperm.mem_iff.mp (.tail _ (.tail _ hold)))
  · have hleft : cs.getD i [] ∈ cs := hperm.mem_iff.mp (mem_cons_self ..)
    have hsorted := (sorted_perm (cs.getD i [] ++ cs.getD j [])).length_eq
    rw [← mem_singleton.mp hnew, length_nil] at hsorted
    have hempty := append_eq_nil_iff.mp (length_eq_zero_iff.mp hsorted.symm)
    exact h (hempty.1 ▸ hleft)

/-! ## Agglomeration -/

/-- Join the pair that `best` picks until there is none, at most so many times. -/
def agglomerate (best : List (List α) → Option (ℕ × ℕ)) : ℕ → List (List α) → List (List α)
  | 0, cs => cs
  | n + 1, cs =>
    match best cs with
    | none => cs
    | some (i, j) => agglomerate best n (joinAt cs i j)

variable {best : List (List α) → Option (ℕ × ℕ)}

theorem agglomerate_keeps {P : List (List α) → Prop}
    (hstep : ∀ cs i j, best cs = some (i, j) → P cs → P (joinAt cs i j)) (n : ℕ) (h : P cs) :
    P (agglomerate best n cs) := by
  induction n generalizing cs with
  | zero => exact h
  | succ n ih =>
    unfold agglomerate
    cases hsome : best cs with
    | none => exact h
    | some p => exact ih (hstep cs p.1 p.2 hsome h)

theorem agglomerate_done
    (hbest : ∀ cs i j, best cs = some (i, j) → i < j ∧ j < cs.length) (hn : cs.length ≤ n) :
    best (agglomerate best n cs) = none := by
  -- With as many rounds as blocks, agglomeration ends where nothing is left to join.
  induction n generalizing cs with
  | zero =>
    rw [Option.eq_none_iff_forall_ne_some]
    rintro ⟨i, j⟩ hsome
    have hij := hbest cs i j hsome
    omega
  | succ n ih =>
    unfold agglomerate
    cases hsome : best cs with
    | none => exact hsome
    | some p =>
      obtain ⟨hij, hj⟩ := hbest cs p.1 p.2 hsome
      have hlen := length_joinAt hij hj
      exact ih (by omega)

theorem agglomerate_of_none (h : best cs = none) (n : ℕ) : agglomerate best n cs = cs := by
  cases n with
  | zero => rfl
  | succ n =>
    unfold agglomerate
    rw [h]

theorem agglomerate_more
    (hbest : ∀ cs i j, best cs = some (i, j) → i < j ∧ j < cs.length) (hn : cs.length ≤ n) :
    agglomerate best n cs = agglomerate best cs.length cs := by
  have hround : ∀ n cs, cs.length ≤ n → agglomerate best (n + 1) cs = agglomerate best n cs := by
    intro n
    induction n with
    | zero =>
      intro cs hcs
      have hnone : best cs = none := by
        rw [Option.eq_none_iff_forall_ne_some]
        rintro ⟨i, j⟩ hsome
        have hij := hbest cs i j hsome
        omega
      rw [agglomerate_of_none hnone, agglomerate_of_none hnone]
    | succ n ih =>
      intro cs hcs
      unfold agglomerate
      cases hsome : best cs with
      | none => rfl
      | some p =>
        obtain ⟨hij, hj⟩ := hbest cs p.1 p.2 hsome
        have hlen := length_joinAt hij hj
        exact ih _ (by omega)
  induction n, hn using Nat.le_induction with
  | base => rfl
  | succ n hn ih => exact (hround n cs hn).trans ih

end

end OmniSense.Library
