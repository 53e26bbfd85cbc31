import Mathlib.Logic.Relation
import Mathlib.Order.Basic
import OmniSense.Library.Blocks
import OmniSense.Library.Dict

/-! Disjoint sets with union by size and path compression. Sizes grow along parents, so a climb
ends within as many steps as there are elements. -/

namespace OmniSense.Library

open List Function

variable {α : Type*} [LinearOrder α]

structure UnionFind (α : Type*) where
  ids : List α
  parent : α → α
  size : α → ℕ

namespace UnionFind

def start (ids : List α) : UnionFind α := ⟨ids, id, fun _ => 1⟩

def climb (parent : α → α) : ℕ → α → α
  | 0, x => x
  | n + 1, x => if parent x = x then x else climb parent n (parent x)

variable (u : UnionFind α)

def root (x : α) : α := climb u.parent u.ids.length x

/-- Point everything on the way from `x` at the root `r`. -/
def compress (r : α) : ℕ → α → (α → α) → (α → α)
  | 0, _, parent => parent
  | n + 1, x, parent =>
    if parent x = r then parent
    else compress r n (parent x) (Function.update parent x r)

def find (x : α) : α × UnionFind α :=
  (u.root x, { u with parent := compress (u.root x) u.ids.length x u.parent })

/-- Hang the root `l` under the root `w`. -/
def attach (w l : α) : UnionFind α :=
  { u with
    parent := Function.update u.parent l w
    size := Function.update u.size w (u.size w + u.size l) }

def union (left right : α) : UnionFind α :=
  let (leftRoot, u) := u.find left
  let (rightRoot, u) := u.find right
  if leftRoot = rightRoot then u
  else if u.size leftRoot < u.size rightRoot ∨
      u.size leftRoot = u.size rightRoot ∧ rightRoot < leftRoot then
    u.attach rightRoot leftRoot
  else u.attach leftRoot rightRoot

def unionAll (pairs : List (α × α)) : UnionFind α :=
  pairs.foldl (fun u p => u.union p.1 p.2) u

def group {β : Type*} (u : UnionFind α) (f : α → List β) : Dict α (List β) :=
  (u.ids.foldl (fun (acc : UnionFind α × Dict α (List β)) x =>
    let (r, u) := acc.1.find x
    (u, acc.2.alter r fun old => old.getD [] ++ f x)) (u, .empty)).2

/-! ## Roots -/

structure Valid (u : UnionFind α) : Prop where
  parent_mem : ∀ x ∈ u.ids, u.parent x ∈ u.ids
  size_lt : ∀ x ∈ u.ids, u.parent x ≠ x → u.size x < u.size (u.parent x)
  size_pos : ∀ x ∈ u.ids, 0 < u.size x

variable {u : UnionFind α}

/-- How many elements are still above `x`. -/
def above (u : UnionFind α) (x : α) : ℕ := u.ids.countP fun y => u.size x < u.size y

variable {x : α} {pairs : List (α × α)}

omit [LinearOrder α] in
theorem Valid.above_parent (h : u.Valid) (hx : x ∈ u.ids) (hne : u.parent x ≠ x) :
    u.above (u.parent x) < u.above x := by
  have hlt := h.size_lt x hx hne
  have hsub : (u.ids.filter fun y => u.size (u.parent x) < u.size y).Sublist
      (u.ids.filter fun y => u.size x < u.size y) :=
    monotone_filter_right u.ids fun y hy => by
      rw [decide_eq_true_eq] at hy ⊢
      exact hlt.trans hy
  unfold above
  rw [countP_eq_length_filter, countP_eq_length_filter]
  refine lt_of_le_of_ne hsub.length_le fun hlen => ?_
  have hmem : u.parent x ∈ u.ids.filter fun y => u.size x < u.size y :=
    mem_filter.mpr ⟨h.parent_mem x hx, decide_eq_true hlt⟩
  rw [← hsub.eq_of_length hlen] at hmem
  exact lt_irrefl _ (of_decide_eq_true (mem_filter.mp hmem).2)

theorem Valid.climbing (h : u.Valid) {P : α → Prop} (hroot : ∀ x ∈ u.ids, u.parent x = x → P x)
    (hstep : ∀ x ∈ u.ids, u.parent x ≠ x → P (u.parent x) → P x) : ∀ x ∈ u.ids, P x := by
  have hmain : ∀ n, ∀ x ∈ u.ids, u.above x ≤ n → P x := by
    intro n
    induction n with
    | zero =>
      intro x hx hn
      by_cases hp : u.parent x = x
      · exact hroot x hx hp
      · exact absurd (h.above_parent hx hp) (by omega)
    | succ n ih =>
      intro x hx hn
      by_cases hp : u.parent x = x
      · exact hroot x hx hp
      · have hlt := h.above_parent hx hp
        exact hstep x hx hp (ih _ (h.parent_mem x hx) (by omega))
  exact fun x hx => hmain _ x hx le_rfl

theorem climb_of_root {parent : α → α} (hx : parent x = x) (n : ℕ) : climb parent n x = x := by
  cases n with
  | zero => rfl
  | succ n => exact if_pos hx

theorem climb_succ {parent : α → α} {n : ℕ} (h : parent (climb parent n x) = climb parent n x) :
    climb parent (n + 1) x = climb parent n x := by
  induction n generalizing x with
  | zero => exact climb_of_root h 1
  | succ n ih =>
    by_cases hx : parent x = x
    · rw [climb_of_root hx, climb_of_root hx]
    · have hn : climb parent (n + 1) x = climb parent n (parent x) := if_neg hx
      rw [hn] at h ⊢
      rw [← ih h]
      exact if_neg hx

theorem Valid.climb_fixed (h : u.Valid) {n : ℕ} (hx : x ∈ u.ids) (hn : u.above x ≤ n) :
    u.parent (climb u.parent n x) = climb u.parent n x ∧ climb u.parent n x ∈ u.ids := by
  induction n generalizing x with
  | zero =>
    by_cases hp : u.parent x = x
    · exact ⟨hp, hx⟩
    · exact absurd (h.above_parent hx hp) (by omega)
  | succ n ih =>
    by_cases hp : u.parent x = x
    · rw [climb_of_root hp]
      exact ⟨hp, hx⟩
    · have hn' : climb u.parent (n + 1) x = climb u.parent n (u.parent x) := if_neg hp
      have hlt := h.above_parent hx hp
      rw [hn']
      exact ih (h.parent_mem x hx) (by omega)

omit [LinearOrder α] in
theorem above_le (x : α) : u.above x ≤ u.ids.length := countP_le_length

theorem Valid.root_parent (h : u.Valid) (hx : x ∈ u.ids) :
    u.parent (u.root x) = u.root x := (h.climb_fixed hx (above_le x)).1

theorem Valid.root_mem (h : u.Valid) (hx : x ∈ u.ids) : u.root x ∈ u.ids :=
  (h.climb_fixed hx (above_le x)).2

theorem root_of_fixed (hx : u.parent x = x) : u.root x = x := climb_of_root hx _

theorem Valid.root_step (h : u.Valid) (hx : x ∈ u.ids) : u.root (u.parent x) = u.root x := by
  by_cases hp : u.parent x = x
  · rw [hp]
  have hlt := h.above_parent hx hp
  have hle := above_le (u := u) x
  unfold root
  obtain ⟨n, hn⟩ : ∃ n, u.ids.length = n + 1 := Nat.exists_eq_succ_of_ne_zero (by omega)
  have hfix := (h.climb_fixed (h.parent_mem x hx) (n := n) (by omega)).1
  rw [hn, climb_succ hfix]
  exact (if_neg hp).symm

theorem Valid.size_le_root (h : u.Valid) : ∀ x ∈ u.ids, u.root x ≠ x → u.size x < u.size (u.root x) := by
  refine h.climbing (fun x _ hp hne => absurd (root_of_fixed hp) hne) fun x hx hp ih _ => ?_
  have hlt := h.size_lt x hx hp
  rw [← h.root_step hx]
  by_cases hroot : u.root (u.parent x) = u.parent x
  · rwa [hroot]
  · exact hlt.trans (ih hroot)

/-! ## `find` -/

/-- The parents of `u`, some of them pointed at roots. -/
def Compressed (u : UnionFind α) (parent : α → α) : Prop :=
  ({ u with parent := parent } : UnionFind α).Valid ∧
    ∀ x ∈ u.ids, ({ u with parent := parent } : UnionFind α).root x = u.root x

theorem Valid.relink (h : u.Valid) (hx : x ∈ u.ids) (hne : u.root x ≠ x) :
    u.Compressed (Function.update u.parent x (u.root x)) := by
  set v : UnionFind α := { u with parent := Function.update u.parent x (u.root x) } with hv
  have hself : v.parent x = u.root x := update_self ..
  have hother : ∀ {y}, y ≠ x → v.parent y = u.parent y := fun hy => update_of_ne hy ..
  have hvalid : v.Valid := by
    refine ⟨fun y hy => ?_, fun y hy hp => ?_, h.size_pos⟩
    · rcases eq_or_ne y x with rfl | hyx
      · exact hself ▸ h.root_mem hx
      · exact hother hyx ▸ h.parent_mem y hy
    · rcases eq_or_ne y x with rfl | hyx
      · exact hself ▸ h.size_le_root y hx hne
      · rw [hother hyx] at hp ⊢
        exact h.size_lt y hy hp
  refine ⟨hvalid, h.climbing (fun y hy hp => ?_) fun y hy hp ih => ?_⟩
  · have hyx : y ≠ x := fun heq => hne (root_of_fixed (heq ▸ hp))
    rw [root_of_fixed hp]
    exact root_of_fixed (by rw [hother hyx, hp])
  · rw [← hvalid.root_step hy, ← h.root_step hy]
    rcases eq_or_ne y x with rfl | hyx
    · rw [h.root_step hy, hself]
      exact root_of_fixed (by rw [hother hne, h.root_parent hy])
    · rw [hother hyx]
      exact ih

theorem Valid.compress (h : u.Valid) (hx : x ∈ u.ids) (n : ℕ) :
    u.Compressed (compress (u.root x) n x u.parent) := by
  induction n generalizing u x with
  | zero => exact ⟨h, fun _ _ => rfl⟩
  | succ n ih =>
    unfold UnionFind.compress
    split_ifs with hp
    · exact ⟨h, fun _ _ => rfl⟩
    · have hne : u.root x ≠ x := fun heq => by
        have hfix := h.root_parent hx
        rw [heq] at hfix
        exact hp (hfix.trans heq.symm)
      obtain ⟨hvalid, hroot⟩ := h.relink hx hne
      have hnext := h.parent_mem x hx
      obtain ⟨hvalid', hroot'⟩ := ih hvalid hnext
      rw [hroot _ hnext, h.root_step hx] at hvalid' hroot'
      exact ⟨hvalid', fun y hy => (hroot' y hy).trans (hroot y hy)⟩

structure Same (u v : UnionFind α) : Prop where
  valid : v.Valid
  ids : v.ids = u.ids
  size : v.size = u.size
  root : ∀ x ∈ u.ids, v.root x = u.root x

theorem Valid.find_same (h : u.Valid) (hx : x ∈ u.ids) : u.Same (u.find x).2 :=
  have hcompress := h.compress hx u.ids.length
  ⟨hcompress.1, rfl, rfl, hcompress.2⟩

/-! ## `union` -/

/-- Hang the root `l` under the root `w`; sizes stay. -/
def hang (u : UnionFind α) (w l : α) : UnionFind α :=
  { u with parent := Function.update u.parent l w }

theorem Valid.hang (h : u.Valid) {w l : α} (hw : w ∈ u.ids) (hwroot : u.parent w = w)
    (hlroot : u.parent l = l) (hsize : u.size l < u.size w) :
    (u.hang w l).Valid ∧
      ∀ x ∈ u.ids, (u.hang w l).root x = if u.root x = l then w else u.root x := by
  have hne : w ≠ l := fun heq => lt_irrefl _ (heq ▸ hsize)
  have hself : (u.hang w l).parent l = w := update_self ..
  have hother : ∀ {y}, y ≠ l → (u.hang w l).parent y = u.parent y :=
    fun hy => update_of_ne hy ..
  have hvalid : (u.hang w l).Valid := by
    refine ⟨fun y hy => ?_, fun y hy hp => ?_, h.size_pos⟩
    · rcases eq_or_ne y l with rfl | hyl
      · rw [hself]
        exact hw
      · exact hother hyl ▸ h.parent_mem y hy
    · rcases eq_or_ne y l with rfl | hyl
      · rw [hself]
        exact hsize
      · rw [hother hyl] at hp ⊢
        exact h.size_lt y hy hp
  refine ⟨hvalid, h.climbing (fun y hy hp => ?_) fun y hy hp ih => ?_⟩
  · rw [root_of_fixed hp]
    split_ifs with hyl
    · rw [← hvalid.root_step hy, hyl, hself]
      exact root_of_fixed (by rw [hother hne, hwroot])
    · exact root_of_fixed (by rw [hother hyl, hp])
  · have hyl : y ≠ l := fun heq => hp (heq ▸ hlroot)
    rw [← hvalid.root_step hy, hother hyl, ih, h.root_step hy]

theorem Valid.grow (h : u.Valid) {w : α} (hwroot : u.parent w = w) (n : ℕ) :
    ({ u with size := Function.update u.size w (u.size w + n) } : UnionFind α).Valid := by
  have hgrow : ∀ y, u.size y ≤ Function.update u.size w (u.size w + n) y := by
    intro y
    rcases eq_or_ne y w with rfl | hyw
    · rw [update_self]
      exact Nat.le_add_right _ _
    · rw [update_of_ne hyw]
  refine ⟨h.parent_mem, fun y hy hp => ?_, fun y hy => (h.size_pos y hy).trans_le (hgrow y)⟩
  have hyw : y ≠ w := fun heq => hp (heq ▸ hwroot)
  have hsize : Function.update u.size w (u.size w + n) y = u.size y := update_of_ne hyw ..
  change Function.update u.size w (u.size w + n) y < Function.update u.size w (u.size w + n) _
  rw [hsize]
  exact (h.size_lt y hy hp).trans_le (hgrow _)

theorem Valid.attach (h : u.Valid) {w l : α} (hw : w ∈ u.ids) (hwroot : u.parent w = w)
    (hlroot : u.parent l = l) (hne : w ≠ l) :
    (u.attach w l).Valid ∧
      ∀ x ∈ u.ids, (u.attach w l).root x = if u.root x = l then w else u.root x := by
  have hpos := h.size_pos w hw
  have hl : Function.update u.size w (u.size w + u.size l) l = u.size l :=
    update_of_ne hne.symm ..
  refine (h.grow hwroot (u.size l)).hang hw hwroot hlroot ?_
  change Function.update u.size w (u.size w + u.size l) l <
    Function.update u.size w (u.size w + u.size l) w
  rw [hl, update_self]
  omega

def Joined (u : UnionFind α) (x y : α) : Prop := u.root x = u.root y

/-- In `v` the sets of `left` and `right` are joined, and nothing else is but what was. -/
structure Merges (u v : UnionFind α) (left right : α) : Prop where
  valid : v.Valid
  ids : v.ids = u.ids
  joined : ∀ x ∈ u.ids, ∀ y ∈ u.ids, v.Joined x y ↔
    u.Joined x y ∨ u.Joined x left ∧ u.Joined right y ∨ u.Joined x right ∧ u.Joined left y

theorem merges_of_root {u v : UnionFind α} {left right w l : α} (hvalid : v.Valid)
    (hids : v.ids = u.ids)
    (hwl : w = u.root left ∧ l = u.root right ∨ w = u.root right ∧ l = u.root left)
    (hroot : ∀ x ∈ u.ids, v.root x = if u.root x = l then w else u.root x) :
    u.Merges v left right := by
  -- Hanging one of the two roots under the other merges the sets.
  refine ⟨hvalid, hids, fun x hx y hy => ?_⟩
  unfold Joined
  rw [hroot x hx, hroot y hy]
  grind

theorem Valid.find_both (h : u.Valid) {left right : α} (hl : left ∈ u.ids) (hr : right ∈ u.ids) :
    u.Same ((u.find left).2.find right).2 ∧ (u.find left).1 = u.root left ∧
      ((u.find left).2.find right).1 = u.root right := by
  have hfind := h.find_same hl
  have hfind' := hfind.valid.find_same (hfind.ids ▸ hr)
  refine ⟨⟨hfind'.valid, hfind'.ids.trans hfind.ids, hfind'.size.trans hfind.size,
    fun x hx => ?_⟩, rfl, hfind.root right hr⟩
  exact (hfind'.root x (hfind.ids ▸ hx)).trans (hfind.root x hx)

theorem Same.root_parent {v : UnionFind α} (h : u.Same v) (hu : u.Valid) (hx : x ∈ u.ids) :
    u.root x ∈ v.ids ∧ v.parent (u.root x) = u.root x := by
  have hroot := h.valid.root_parent (h.ids ▸ hx)
  rw [h.root x hx] at hroot
  exact ⟨h.ids ▸ hu.root_mem hx, hroot⟩

theorem Valid.union (h : u.Valid) {left right : α} (hl : left ∈ u.ids) (hr : right ∈ u.ids) :
    u.Merges (u.union left right) left right := by
  obtain ⟨hsame, hleft, hright⟩ := h.find_both hl hr
  obtain ⟨hvl, hpl⟩ := hsame.root_parent h hl
  obtain ⟨hvr, hpr⟩ := hsame.root_parent h hr
  unfold UnionFind.union
  simp only [hleft, hright]
  split_ifs with heq hsize
  · refine merges_of_root hsame.valid hsame.ids (.inl ⟨rfl, rfl⟩) fun x hx => ?_
    rw [hsame.root x hx]
    split_ifs with hx'
    · rw [hx', heq]
    · rfl
  · obtain ⟨hvalid, hattach⟩ := hsame.valid.attach hvr hpr hpl (Ne.symm heq)
    refine merges_of_root hvalid hsame.ids (.inr ⟨rfl, rfl⟩) fun x hx => ?_
    rw [hattach x (hsame.ids ▸ hx), hsame.root x hx]
  · obtain ⟨hvalid, hattach⟩ := hsame.valid.attach hvl hpl hpr heq
    refine merges_of_root hvalid hsame.ids (.inl ⟨rfl, rfl⟩) fun x hx => ?_
    rw [hattach x (hsame.ids ▸ hx), hsame.root x hx]

omit [LinearOrder α] in
theorem start_valid (ids : List α) : (start ids).Valid :=
  ⟨fun _ hx => hx, fun _ _ hne => absurd rfl hne, fun _ _ => Nat.one_pos⟩

def Linked (pairs : List (α × α)) : α → α → Prop := Relation.EqvGen fun x y => (x, y) ∈ pairs

omit [LinearOrder α] in
theorem Linked.mono {ps qs : List (α × α)} (h : ps ⊆ qs) {x y : α} (hl : Linked ps x y) :
    Linked qs x y := Relation.EqvGen.mono (fun _ _ hp => h hp) _ _ hl

omit [LinearOrder α] in
theorem Linked.rec_on {β : Type*} {f : α → β}
    (h : ∀ p ∈ pairs, f p.1 = f p.2) {x y : α} (hl : Linked pairs x y) : f x = f y := by
  induction hl with
  | rel x y hp => exact h (x, y) hp
  | refl x => rfl
  | symm x y _ ih => exact ih.symm
  | trans x y z _ _ ih ih' => exact ih.trans ih'

omit [LinearOrder α] in
theorem Linked.together {cs : List (List α)} (hnodup : cs.flatten.Nodup)
    (h : ∀ p ∈ pairs, Together cs p.1 p.2) {x y : α} (hx : x ∈ cs.flatten)
    (hl : Linked pairs x y) : Together cs x y := by
  have hmain : x ∈ cs.flatten ∨ y ∈ cs.flatten → Together cs x y := by
    clear hx
    induction hl with
    | rel x y hp => exact fun _ => h (x, y) hp
    | refl x => exact fun hx => together_self.mpr (hx.elim id id)
    | symm x y _ ih => exact fun hx => (ih hx.symm).symm
    | trans x y z _ _ ihxy ihyz =>
      rintro (hx | hz)
      · have hxy := ihxy (.inl hx)
        exact hxy.trans hnodup (ihyz (.inl (together_self.mp (hxy.symm.trans hnodup hxy))))
      · have hyz := ihyz (.inr hz)
        exact (ihxy (.inr (together_self.mp (hyz.trans hnodup hyz.symm)))).trans hnodup hyz
  exact hmain (.inl hx)

structure Components (u : UnionFind α) (ids : List α) (pairs : List (α × α)) : Prop where
  valid : u.Valid
  ids_eq : u.ids = ids
  joined : ∀ x ∈ ids, ∀ y ∈ ids, u.Joined x y ↔ Linked pairs x y

theorem components_start {ids : List α} (h : u.Valid) (hids : u.ids = ids)
    (hparent : ∀ x, u.parent x = x) : u.Components ids [] := by
  refine ⟨h, hids, fun x _ y _ => ⟨fun h => ?_, Linked.rec_on fun _ hp => ?_⟩⟩
  · have hroot : ∀ x, u.root x = x := fun x => root_of_fixed (hparent x)
    obtain rfl : x = y := (hroot x).symm.trans (h.trans (hroot y))
    exact .refl x
  · cases hp

theorem Components.snoc {v : UnionFind α} {ids : List α} {ps : List (α × α)} {p : α × α}
    (h : u.Components ids ps) (hps : ∀ q ∈ ps, q.1 ∈ ids ∧ q.2 ∈ ids) (hp : p.1 ∈ ids ∧ p.2 ∈ ids)
    (hv : u.Merges v p.1 p.2) : v.Components ids (ps ++ [p]) := by
  obtain ⟨hvalid, rfl, hjoined⟩ := h
  obtain ⟨hvalid', hids', hjoined'⟩ := hv
  refine ⟨hvalid', hids', fun x hx y hy => ⟨fun h => ?_, Linked.rec_on fun q hq => ?_⟩⟩
  · have hold : ∀ {a b}, a ∈ u.ids → b ∈ u.ids → u.Joined a b → Linked (ps ++ [p]) a b :=
      fun ha hb hab => ((hjoined _ ha _ hb).mp hab).mono (subset_append_left _ _)
    have hnew : Linked (ps ++ [p]) p.1 p.2 :=
      .rel _ _ (mem_append_right _ (mem_singleton_self p))
    rcases (hjoined' x hx y hy).mp h with h | ⟨h, h'⟩ | ⟨h, h'⟩
    · exact hold hx hy h
    · exact .trans _ _ _ (hold hx hp.1 h) (.trans _ _ _ hnew (hold hp.2 hy h'))
    · exact .trans _ _ _ (hold hx hp.2 h) (.trans _ _ _ (.symm _ _ hnew) (hold hp.1 hy h'))
  · rcases mem_append.mp hq with hq | hq
    · obtain ⟨h₁, h₂⟩ := hps q hq
      exact (hjoined' q.1 h₁ q.2 h₂).mpr (.inl ((hjoined q.1 h₁ q.2 h₂).mpr (.rel _ _ hq)))
    · obtain rfl := mem_singleton.mp hq
      exact (hjoined' q.1 hp.1 q.2 hp.2).mpr (.inr (.inl ⟨rfl, rfl⟩))

/-- **The sets after unions are the connected components.** -/
theorem unionAll_start (ids : List α) (hpairs : ∀ p ∈ pairs, p.1 ∈ ids ∧ p.2 ∈ ids) :
    ((start ids).unionAll pairs).Components ids pairs := by
  induction pairs using List.reverseRecOn with
  | nil => exact components_start (start_valid ids) rfl fun _ => rfl
  | append_singleton ps p ih =>
    have hps : ∀ q ∈ ps, q.1 ∈ ids ∧ q.2 ∈ ids := fun q hq =>
      hpairs q (mem_append_left _ hq)
    have hp := hpairs p (mem_append_right _ (mem_singleton_self p))
    have hsets := ih hps
    rw [unionAll, foldl_append]
    refine hsets.snoc hps hp (hsets.valid.union ?_ ?_)
    · exact hsets.ids_eq.symm ▸ hp.1
    · exact hsets.ids_eq.symm ▸ hp.2

/-! ## `components` -/

theorem Same.trans {v w : UnionFind α} (h : u.Same v) (h' : v.Same w) : u.Same w :=
  ⟨h'.valid, h'.ids.trans h.ids, h'.size.trans h.size, fun x hx =>
    (h'.root x (h.ids.symm ▸ hx)).trans (h.root x hx)⟩

section

variable {β : Type*} (f : α → List β)

theorem Valid.group_foldl (h : u.Valid) {xs : List α} (hxs : xs ⊆ u.ids) :
    ∃ v, u.Same v ∧ xs.foldl (fun (acc : UnionFind α × Dict α (List β)) x =>
        let (r, u) := acc.1.find x
        (u, acc.2.alter r fun old => old.getD [] ++ f x)) (u, .empty) =
      (v, groupInto u.root f (· ++ ·) xs) := by
  -- What the loop of `group` has gathered from a prefix of the ids.
  induction xs using List.reverseRecOn with
  | nil => exact ⟨u, ⟨h, rfl, rfl, fun _ _ => rfl⟩, rfl⟩
  | append_singleton xs x ih =>
    obtain ⟨v, hsame, hfold⟩ := ih (append_subset.mp hxs).1
    have hx : x ∈ u.ids := hxs (mem_append_right _ (mem_singleton_self x))
    refine ⟨(v.find x).2, hsame.trans (hsame.valid.find_same (hsame.ids.symm ▸ hx)), ?_⟩
    rw [foldl_append, hfold, groupInto_snoc]
    have hroot : (v.find x).1 = u.root x := hsame.root x hx
    change ((v.find x).2, Dict.alter _ (v.find x).1 _) = _
    rw [hroot]
    congr
    funext old
    cases old <;> rfl

theorem Valid.group_eq (h : u.Valid) : u.group f = groupInto u.root f (· ++ ·) u.ids := by
  obtain ⟨v, -, hfold⟩ := h.group_foldl f (List.Subset.refl _)
  exact congrArg Prod.snd hfold

theorem Valid.group_perm (h : u.Valid) : (u.group f).values.flatten.Perm (u.ids.flatMap f) :=
  h.group_eq f ▸ groupInto_perm f u.ids

theorem Valid.mem_group (h : u.Valid) {c : List β} :
    c ∈ (u.group f).values ↔
      ∃ x ∈ u.ids, c = (u.ids.filter fun y => u.root y = u.root x).flatMap f := by
  have hvalues : c ∈ (u.group f).values ↔ ∃ k, (u.group f).get? k = some c := by
    unfold Dict.values
    rw [mem_map]
    constructor
    · rintro ⟨⟨k, c⟩, hmem, rfl⟩
      exact ⟨k, Dict.mem_items_iff.mp hmem⟩
    · rintro ⟨k, hk⟩
      exact ⟨(k, c), Dict.mem_items_iff.mpr hk, rfl⟩
  rw [hvalues]
  constructor
  · rintro ⟨k, hk⟩
    rw [h.group_eq, groupInto_append] at hk
    split_ifs at hk with hsome
    obtain ⟨x, hx, rfl⟩ := hsome
    exact ⟨x, hx, (Option.some.inj hk).symm⟩
  · rintro ⟨x, hx, rfl⟩
    refine ⟨u.root x, ?_⟩
    rw [h.group_eq, groupInto_append, if_pos ⟨x, hx, rfl⟩]

variable {ids : List α} {pairs : List (α × α)}

theorem Components.together_group (h : u.Components ids pairs) {x y : β} :
    Together (u.group f).values x y ↔
      ∃ i ∈ ids, ∃ j ∈ ids, Linked pairs i j ∧ x ∈ f i ∧ y ∈ f j := by
  obtain ⟨hvalid, hids, hjoined⟩ := h
  have hmem : ∀ {z : α} {w : β},
      w ∈ (u.ids.filter fun i => u.root i = u.root z).flatMap f ↔
      ∃ i ∈ ids, u.Joined i z ∧ w ∈ f i := by
    intro z w
    rw [hids, mem_flatMap]
    simp only [mem_filter, decide_eq_true_eq, and_assoc, Joined]
  constructor
  · rintro ⟨c, hc, hx, hy⟩
    obtain ⟨z, hz, rfl⟩ := (hvalid.mem_group f).mp hc
    obtain ⟨i, hi, hiz, hxi⟩ := hmem.mp hx
    obtain ⟨j, hj, hjz, hyj⟩ := hmem.mp hy
    exact ⟨i, hi, j, hj, (hjoined i hi j hj).mp (hiz.trans hjz.symm), hxi, hyj⟩
  · rintro ⟨i, hi, j, hj, hlinked, hxi, hyj⟩
    have hij := (hjoined i hi j hj).mpr hlinked
    exact ⟨_, (hvalid.mem_group f).mpr ⟨j, hids.symm ▸ hj, rfl⟩, hmem.mpr ⟨i, hi, hij, hxi⟩,
      hmem.mpr ⟨j, hj, rfl, hyj⟩⟩

theorem Components.group_perm (h : u.Components ids pairs) :
    (u.group f).values.flatten.Perm (ids.flatMap f) := by
  simpa only [h.ids_eq] using h.valid.group_perm f

theorem Components.group_nonempty (h : u.Components ids pairs) (hf : ∀ x ∈ ids, f x ≠ []) :
    [] ∉ (u.group f).values := by
  intro hmem
  obtain ⟨x, hx, hempty⟩ := (h.valid.mem_group f).mp hmem
  have hself := flatMap_eq_nil_iff.mp hempty.symm x
    (mem_filter.mpr ⟨hx, decide_eq_true rfl⟩)
  exact hf x (h.ids_eq ▸ hx) hself

end

end UnionFind

/-! ## Union by the smaller root -/

structure Forest (α : Type*) where
  ids : List α
  parent : α → α

namespace Forest
open UnionFind (climb compress)

def start (ids : List α) : Forest α := ⟨ids, id⟩

def find (t : Forest α) (x : α) : α × Forest α :=
  let root := climb t.parent t.ids.length x
  (root, { t with parent := compress root t.ids.length x t.parent })

def union (t : Forest α) (left right : α) : Forest α :=
  let (leftRoot, t) := t.find left
  let (rightRoot, t) := t.find right
  if leftRoot = rightRoot then t
  else if rightRoot < leftRoot then { t with parent := Function.update t.parent leftRoot rightRoot }
  else { t with parent := Function.update t.parent rightRoot leftRoot }

def group {β : Type*} (t : Forest α) (f : α → List β) : Dict α (List β) :=
  (t.ids.foldl (fun (acc : Forest α × Dict α (List β)) x =>
    let (r, t) := acc.1.find x
    (t, acc.2.alter r fun old => old.getD [] ++ f x)) (t, .empty)).2

def ranked (t : Forest α) : UnionFind α :=
  ⟨t.ids, t.parent, fun x => (t.ids.countP fun y => x < y) + 1⟩

variable {t : Forest α} {ids : List α} {pairs : List (α × α)}

theorem rank_lt {x y : α} (hx : x ∈ ids) (hlt : y < x) :
    (ids.countP fun z => x < z) < ids.countP fun z => y < z := by
  have hsub : (ids.filter fun z => x < z).Sublist (ids.filter fun z => y < z) :=
    monotone_filter_right ids fun z hz => by
      rw [decide_eq_true_eq] at hz ⊢
      exact hlt.trans hz
  rw [countP_eq_length_filter, countP_eq_length_filter]
  refine lt_of_le_of_ne hsub.length_le fun hlen => ?_
  have hmem : x ∈ ids.filter fun z => y < z := mem_filter.mpr ⟨hx, decide_eq_true hlt⟩
  rw [← hsub.eq_of_length hlen] at hmem
  exact lt_irrefl _ (of_decide_eq_true (mem_filter.mp hmem).2)

theorem components_start (ids : List α) : (start ids).ranked.Components ids [] :=
  UnionFind.components_start ⟨fun _ hx => hx, fun _ _ hne => absurd rfl hne,
    fun _ _ => Nat.succ_pos _⟩ rfl fun _ => rfl

theorem union_merges (h : t.ranked.Valid) {left right : α} (hl : left ∈ t.ids)
    (hr : right ∈ t.ids) : t.ranked.Merges (t.union left right).ranked left right := by
  obtain ⟨hsame, hleft, hright⟩ := h.find_both hl hr
  obtain ⟨hvl, hpl⟩ := hsame.root_parent h hl
  obtain ⟨hvr, hpr⟩ := hsame.root_parent h hr
  have hleft' : (t.find left).1 = t.ranked.root left := hleft
  have hright' : ((t.find left).2.find right).1 = t.ranked.root right := hright
  have hids := hsame.ids
  unfold union
  simp only [hleft', hright']
  split_ifs with heq hlt
  · refine UnionFind.merges_of_root hsame.valid hids (.inl ⟨rfl, rfl⟩) fun x hx => ?_
    change ((t.ranked.find left).2.find right).2.root x = _
    rw [hsame.root x hx]
    split_ifs with hx'
    · rw [hx', heq]
    · rfl
  · have hrank := rank_lt (hids ▸ hvl) hlt
    obtain ⟨hvalid, hhang⟩ := hsame.valid.hang hvr hpr hpl (by
      rw [hsame.size]
      exact Nat.succ_lt_succ hrank)
    refine UnionFind.merges_of_root hvalid hids (.inr ⟨rfl, rfl⟩) fun x hx => ?_
    rw [← hsame.root x hx]
    exact hhang x (hids ▸ hx)
  · have hrank := rank_lt (hids ▸ hvr) (lt_of_le_of_ne (not_lt.mp hlt) heq)
    obtain ⟨hvalid, hhang⟩ := hsame.valid.hang hvl hpl hpr (by
      rw [hsame.size]
      exact Nat.succ_lt_succ hrank)
    refine UnionFind.merges_of_root hvalid hids (.inl ⟨rfl, rfl⟩) fun x hx => ?_
    rw [← hsame.root x hx]
    exact hhang x (hids ▸ hx)

theorem group_ranked {β : Type*} (t : Forest α) (f : α → List β) :
    t.group f = t.ranked.group f := by
  have hloop : ∀ (xs : List α) (t : Forest α) (d : Dict α (List β)),
      (xs.foldl (fun (acc : Forest α × Dict α (List β)) x =>
        let (r, t) := acc.1.find x
        (t, acc.2.alter r fun old => old.getD [] ++ f x)) (t, d)).2 =
      (xs.foldl (fun (acc : UnionFind α × Dict α (List β)) x =>
        let (r, u) := acc.1.find x
        (u, acc.2.alter r fun old => old.getD [] ++ f x)) (t.ranked, d)).2 := by
    intro xs
    induction xs with
    | nil => exact fun _ _ => rfl
    | cons x xs ih => exact fun t d => ih (t.find x).2 _
  exact hloop t.ids t .empty

end Forest

end OmniSense.Library
