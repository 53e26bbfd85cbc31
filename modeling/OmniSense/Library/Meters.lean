import Mathlib.Algebra.BigOperators.Group.List.Basic
import Mathlib.Algebra.Order.Group.MinMax
import Mathlib.Algebra.Order.Group.Unbundled.Int
import Mathlib.Algebra.Order.Ring.Int
import Mathlib.Algebra.Order.Sub.Basic
import Mathlib.Data.List.Chain
import Mathlib.Data.List.Nodup
import Mathlib.Data.List.TakeWhile
import Mathlib.Tactic.Linarith

/-! What time gives back and what is taken: clocks, meters that refill, and purchases below a cap. -/

namespace OmniSense.Library

open List Option Function

/-! Forward movement of an integer clock. A sequence of readings may go up and down; its
`ascent` counts the upward steps only, and its `spread` is the distance between the extremes. -/

/-- The sum of the upward steps of `t₀ :: ts`. -/
def ascent : ℤ → List ℤ → ℤ
  | _, [] => 0
  | t₀, t :: ts => max 0 (t - t₀) + ascent t ts

/-- Largest minus smallest reading of `t₀ :: ts`. -/
def spread (t₀ : ℤ) (ts : List ℤ) : ℤ := ts.foldr max t₀ - ts.foldr min t₀

variable (t₀ : ℤ) (ts : List ℤ)

theorem ascent_nonneg : 0 ≤ ascent t₀ ts := by
  induction ts generalizing t₀ with
  | nil => exact le_rfl
  | cons t ts ih => exact add_nonneg (le_max_left _ _) (ih t)

theorem ascent_cons_of_le {t₀ t : ℤ} (h : t ≤ t₀) (ts : List ℤ) :
    ascent t₀ (t :: ts) = ascent t ts := by
  simp only [ascent, max_eq_left (sub_nonpos.mpr h), zero_add]

theorem ascent_of_chain {t₀ : ℤ} {ts : List ℤ} (h : List.IsChain (· ≤ ·) (t₀ :: ts)) :
    ascent t₀ ts = ts.getLastD t₀ - t₀ := by
  induction ts generalizing t₀ with
  | nil => simp [ascent]
  | cons t ts ih =>
    obtain ⟨hle, htail⟩ := isChain_cons_cons.mp h
    simp only [ascent, ih htail, max_eq_right (sub_nonneg.mpr hle), getLastD_cons]
    omega

theorem le_foldr_max : t₀ ≤ ts.foldr max t₀ := by
  induction ts with
  | nil => exact le_rfl
  | cons t ts ih => exact ih.trans (le_max_right _ _)

theorem foldr_min_le : ts.foldr min t₀ ≤ t₀ := by
  induction ts with
  | nil => exact le_rfl
  | cons t ts ih => exact (min_le_right _ _).trans ih

theorem spread_nonneg : 0 ≤ spread t₀ ts :=
  sub_nonneg.mpr ((foldr_min_le t₀ ts).trans (le_foldr_max t₀ ts))

/-! Meters that refill up to a capacity, and a loop that takes from all of several keys or, giving
back what it took, from none. -/

section

variable {κ τ ρ R : Type*}

/-! ## Refills -/

section

variable [AddCommGroup R] [LinearOrder R] [IsOrderedAddMonoid R] {cap a b level : R}

def refill (cap amount level : R) : R := min cap (level + amount)

omit [IsOrderedAddMonoid R] in
theorem refill_le : refill cap a level ≤ cap := min_le_left _ _

theorem refill_refill (hb : 0 ≤ b) : refill cap b (refill cap a level) = refill cap (a + b) level := by
  unfold refill
  rw [← min_add_add_right, ← min_assoc, min_eq_left (le_add_of_nonneg_right hb), add_assoc]

theorem refill_full (h : cap ≤ a) (hlevel : 0 ≤ level) : refill cap a level = cap :=
  min_eq_left (h.trans (le_add_of_nonneg_left hlevel))

theorem refill_nonneg (hcap : 0 ≤ cap) (hlevel : 0 ≤ level) (ha : 0 ≤ a) :
    0 ≤ refill cap a level := le_min hcap (add_nonneg hlevel ha)

end

/-! ## Updates of several keys -/

variable [DecidableEq κ]

theorem foldl_update {keys : List κ} (hnodup : keys.Nodup) (f : κ → τ → τ) (s : κ → τ) (key : κ) :
    keys.foldl (fun s key => Function.update s key (f key (s key))) s key =
      if key ∈ keys then f key (s key) else s key := by
  induction keys generalizing s with
  | nil => rfl
  | cons head keys ih =>
    obtain ⟨hhead, hkeys⟩ := nodup_cons.mp hnodup
    rw [foldl_cons, ih hkeys]
    by_cases hkey : key = head
    · subst hkey
      rw [if_neg hhead, if_pos mem_cons_self, update_self]
    · rw [update_of_ne hkey]
      simp only [mem_cons, hkey, false_or]

/-! ## All or none -/

def payAll [LT R] [DecidableLT R] [Sub R] (cost : R) (keys : List κ) (level : κ → R) :
    Option κ × (κ → R) :=
  match keys.find? fun key => level key < cost with
  | some key => (some key, level)
  | none => (none, fun key => if key ∈ keys then level key - cost else level key)

def takeEach (take : κ → τ → Option ρ × τ) :
    List κ → (κ → τ) → Option (κ × ρ) × List κ × (κ → τ)
  | [], s => (none, [], s)
  | key :: keys, s =>
    let answer := take key (s key)
    let s' := Function.update s key answer.2
    match answer.1 with
    | some refusal => (some (key, refusal), [], s')
    | none =>
      let rest := takeEach take keys s'
      (rest.1, key :: rest.2.1, rest.2.2)

def takeAll (take : κ → τ → Option ρ × τ) (give : κ → τ → τ) (keys : List κ) (s : κ → τ) :
    Option (κ × ρ) × (κ → τ) :=
  match takeEach take keys s with
  | (none, _, s') => (none, s')
  | (some blocked, taken, s') =>
    (some blocked, taken.foldl (fun s key => Function.update s key (give key (s key))) s')

section

variable [Sub R] [LinearOrder R] {cost : R} {level : κ → R}
  {take : κ → τ → Option ρ × τ} {give : κ → τ → τ}

/-- The entries of the keys in `S` show levels, and taking and giving do to the levels what they
say. `fresh` is the entry that was just written. -/
structure Pays (S : κ → Prop) (cost : R) (level : κ → R) (take : κ → τ → Option ρ × τ)
    (give : κ → τ → τ) (fresh : κ → R → τ) (Shows : κ → τ → R → Prop) : Prop where
  granted : ∀ key x, S key → Shows key x (level key) → cost ≤ level key →
    take key x = (none, fresh key (level key - cost))
  refused : ∀ key x, S key → Shows key x (level key) → level key < cost →
    (take key x).1.isSome = true ∧ Shows key (take key x).2 (level key)
  paid : ∀ key, S key → cost ≤ level key →
    Shows key (fresh key (level key - cost)) (level key - cost)
  given : ∀ key, S key → cost ≤ level key →
    Shows key (give key (fresh key (level key - cost))) (level key)

variable {S : κ → Prop} {fresh : κ → R → τ} {Shows : κ → τ → R → Prop}

theorem takeEach_spec (h : Pays S cost level take give fresh Shows) {keys : List κ}
    (hS : ∀ key ∈ keys, S key) (hnodup : keys.Nodup) {s s' : κ → τ}
    {blocked : Option (κ × ρ)} {taken : List κ}
    (hs : ∀ key ∈ keys, Shows key (s key) (level key))
    (heach : takeEach take keys s = (blocked, taken, s')) :
    blocked.map Prod.fst = keys.find? (fun key => level key < cost) ∧
      taken = keys.takeWhile (fun key => cost ≤ level key) ∧
      (∀ key ∈ taken, s' key = fresh key (level key - cost)) ∧
      (∀ key ∈ keys, key ∉ taken → Shows key (s' key) (level key)) ∧
      ∀ key ∉ keys, s' key = s key := by
  induction keys generalizing s blocked taken s' with
  | nil =>
    cases heach
    simp
  | cons head keys ih =>
    obtain ⟨hhead, hkeys⟩ := nodup_cons.mp hnodup
    obtain ⟨hshown, hrest⟩ := forall_mem_cons.mp hs
    obtain ⟨hhere, hS⟩ := forall_mem_cons.mp hS
    have hother : ∀ key ∈ keys, key ≠ head := fun key hkey heq => hhead (heq ▸ hkey)
    rcases lt_or_ge (level head) cost with hlow | hhigh
    · obtain ⟨hsome, hshows⟩ := h.refused head (s head) hhere hshown hlow
      obtain ⟨refusal, hr⟩ := isSome_iff_exists.mp hsome
      simp only [takeEach, hr] at heach
      cases heach
      refine ⟨?_, ?_, nofun, fun key hkey _ => ?_, fun key hkey => ?_⟩
      · rw [List.find?_cons_of_pos (by simpa using hlow)]
        rfl
      · rw [takeWhile_cons_of_neg]
        simpa using hlow
      · rcases mem_cons.mp hkey with rfl | hkey
        · rw [update_self]
          exact hshows
        · rw [update_of_ne (hother key hkey)]
          exact hrest key hkey
      · have hne : key ≠ head := fun heq => hkey (heq ▸ mem_cons_self)
        exact update_of_ne hne _ _
    · simp only [takeEach, h.granted head (s head) hhere hshown hhigh] at heach
      cases heach
      have hs' : ∀ key ∈ keys, Shows key
          (Function.update s head (fresh head (level head - cost)) key) (level key) := by
        intro key hkey
        rw [update_of_ne (hother key hkey)]
        exact hrest key hkey
      obtain ⟨hfind, htaken, hfresh, hshows, hsame⟩ := ih hS hkeys hs' rfl
      refine ⟨?_, ?_, fun key hkey => ?_, fun key hkey hnot => ?_, fun key hkey => ?_⟩
      · rw [List.find?_cons_of_neg (by simpa using hhigh)]
        exact hfind
      · rw [takeWhile_cons_of_pos (by simpa using hhigh)]
        exact congrArg _ htaken
      · rcases mem_cons.mp hkey with rfl | hkey
        · exact (hsame key hhead).trans (update_self ..)
        · exact hfresh key hkey
      · rcases mem_cons.mp hkey with rfl | hkey
        · exact absurd mem_cons_self hnot
        · exact hshows key hkey fun hmem => hnot (mem_cons_of_mem _ hmem)
      · obtain ⟨hne, hout⟩ := not_or.mp (fun hmem => hkey (mem_cons.mpr hmem))
        exact (hsame key hout).trans (update_of_ne hne ..)

theorem takeAll_spec (h : Pays S cost level take give fresh Shows) {keys : List κ}
    (hS : ∀ key ∈ keys, S key) (hnodup : keys.Nodup) {s : κ → τ}
    (hs : ∀ key, Shows key (s key) (level key)) :
    (takeAll take give keys s).1.map Prod.fst = (payAll cost keys level).1 ∧
      ∀ key, Shows key ((takeAll take give keys s).2 key) ((payAll cost keys level).2 key) := by
  rcases heach : takeEach take keys s with ⟨blocked, taken, s'⟩
  obtain ⟨hfind, htaken, hfresh, hshows, hsame⟩ :=
    takeEach_spec h hS hnodup (fun key _ => hs key) heach
  unfold takeAll payAll
  rw [heach, ← hfind]
  cases blocked with
  | none =>
    have hhigh : ∀ key ∈ keys, cost ≤ level key := by
      intro key hkey
      simpa using List.find?_eq_none.mp hfind.symm key hkey
    have hall : taken = keys := by
      rw [htaken, takeWhile_eq_self_iff]
      exact fun key hkey => decide_eq_true (hhigh key hkey)
    refine ⟨rfl, fun key => ?_⟩
    dsimp only [map_none]
    split_ifs with hkey
    · rw [hfresh key (hall ▸ hkey)]
      exact h.paid key (hS key hkey) (hhigh key hkey)
    · rw [hsame key hkey]
      exact hs key
  | some blocked =>
    refine ⟨rfl, fun key => ?_⟩
    have hdistinct : taken.Nodup := by
      rw [htaken]
      exact hnodup.sublist (takeWhile_sublist _)
    dsimp only [map_some]
    rw [foldl_update hdistinct]
    split_ifs with hkey
    · have hpaid : cost ≤ level key := by
        rw [htaken] at hkey
        simpa using mem_takeWhile_imp hkey
      have hmem : key ∈ keys := by
        rw [htaken] at hkey
        exact (takeWhile_sublist _).mem hkey
      rw [hfresh key hkey]
      exact h.given key (hS key hmem) hpaid
    · by_cases hmem : key ∈ keys
      · exact hshows key hmem hkey
      · rw [hsame key hmem]
        exact hs key

end

end

/-! A log of purchases, each allowed only while what was spent before it is below a cap of its
own. -/

section

variable {α : Type*} {cost cap : α → ℤ} {log : List α} {x : α} {bound : ℤ}

def spentOn (cost : α → ℤ) (log : List α) : ℤ := (log.map cost).sum

theorem spentOn_concat (log : List α) (x : α) :
    spentOn cost (log ++ [x]) = spentOn cost log + cost x := by
  unfold spentOn
  rw [map_append, sum_append, map_singleton, sum_singleton]

theorem spentOn_add {cost' : α → ℤ} (log : List α) :
    spentOn (fun x => cost x + cost' x) log = spentOn cost log + spentOn cost' log :=
  sum_map_add

def Paced (cost cap : α → ℤ) (log : List α) : Prop :=
  ∀ i x, log[i]? = some x → spentOn cost (log.take i) < cap x

theorem paced_nil : Paced cost cap ([] : List α) := fun _ _ h => nomatch h

theorem Paced.concat (h : Paced cost cap log) (hx : spentOn cost log < cap x) :
    Paced cost cap (log ++ [x]) := by
  intro i y hy
  rcases Nat.lt_trichotomy i log.length with hi | hi | hi
  · rw [List.getElem?_append_left hi] at hy
    rw [take_append_of_le_length hi.le]
    exact h i y hy
  · rw [hi, List.getElem?_concat_length] at hy
    cases hy
    rw [take_append_of_le_length hi.le, hi, take_length]
    exact hx
  · rw [List.getElem?_eq_none (by rw [length_append]; exact hi)] at hy
    cases hy

theorem Paced.take_succ (h : Paced cost cap log) {i : ℕ} (hx : log[i]? = some x)
    (hcap : cap x ≤ bound) : spentOn cost (log.take (i + 1)) ≤ bound + cost x := by
  have hbefore := h i x hx
  rw [take_add_one, hx, toList_some, spentOn_concat]
  exact Int.add_le_add_right (hbefore.le.trans hcap) _

end

end OmniSense.Library
