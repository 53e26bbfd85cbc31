import Mathlib.Algebra.GroupWithZero.Nat
import OmniSense.Library.Blocks

/-! Keyset pagination: each page resumes strictly past the key of the last row of the page before,
whatever happened to the table in between. -/

namespace OmniSense.Library.Keyset

open List

variable {α κ : Type*} [LinearOrder κ] (key : α → κ)

def past (pos : Option κ) (row : α) : Bool := decide (∀ k ∈ pos, k < key row)

def rest (rows : List α) (pos : Option κ) : List α := sortedBy key (rows.filter (past key pos))

def page (rows : List α) (limit : ℕ) (pos : Option κ) : List α × Option κ :=
  let fetched := (rest key rows pos).take (limit + 1)
  (fetched.take limit,
    if limit < fetched.length then (fetched.take limit).getLast?.map key else none)

def scan : List (List α × ℕ) → Option κ → List α × Bool
  | [], _ => ([], false)
  | request :: requests, pos =>
    let answer := page key request.1 request.2 pos
    match answer.2 with
    | none => (answer.1, true)
    | some next =>
      let later := scan requests (some next)
      (answer.1 ++ later.1, later.2)

variable {key} {rows : List α} {pos : Option κ} {limit : ℕ} {row : α}

@[simp] theorem past_none (row : α) : past key none row = true := rfl

theorem past_iff : past key pos row = true ↔ ∀ k ∈ pos, k < key row := decide_eq_true_iff

theorem mem_rest : row ∈ rest key rows pos ↔ row ∈ rows ∧ ∀ k ∈ pos, k < key row := by
  unfold rest
  rw [(sortedBy_perm key _).mem_iff, mem_filter, past_iff]

theorem rest_strict (pos : Option κ) (hnodup : (rows.map key).Nodup) :
    (rest key rows pos).Pairwise fun a b => key a < key b :=
  sortedBy_strict (hnodup.sublist (filter_sublist.map key))

theorem rest_split (hnodup : (rows.map key).Nodup) {before after : List α} {last : α}
    (hsplit : rest key rows pos = before ++ last :: after) :
    rest key rows (some (key last)) = after := by
  have hstrict := rest_strict pos hnodup
  rw [hsplit] at hstrict
  obtain ⟨_, htail, hcross⟩ := pairwise_append.mp hstrict
  obtain ⟨hlast, hafter⟩ := pairwise_cons.mp htail
  refine eq_of_strict (rest_strict _ hnodup) hafter fun row => ?_
  rw [mem_rest]
  have hmem : row ∈ rest key rows pos ↔ row ∈ before ∨ row = last ∨ row ∈ after := by
    rw [hsplit, mem_append, mem_cons]
  rw [mem_rest] at hmem
  have hpast : ∀ k ∈ pos, k < key last := by
    have hin : last ∈ rest key rows pos := by
      rw [hsplit]
      exact mem_append_right _ mem_cons_self
    exact (mem_rest.mp hin).2
  constructor
  · rintro ⟨hrow, hlt⟩
    have hlt := hlt _ rfl
    rcases hmem.mp ⟨hrow, fun k hk => (hpast k hk).trans hlt⟩ with hb | rfl | ha
    · exact absurd (hcross row hb last mem_cons_self) hlt.asymm
    · exact absurd hlt (lt_irrefl _)
    · exact ha
  · intro ha
    refine ⟨(hmem.mpr (.inr (.inr ha))).1, ?_⟩
    rintro k ⟨⟩
    exact hlast row ha

theorem page_cases (pos : Option κ) (hnodup : (rows.map key).Nodup) (hlimit : 1 ≤ limit) :
    (page key rows limit pos = (rest key rows pos, none) ∧
        (rest key rows pos).length ≤ limit) ∨
      ∃ last ∈ (rest key rows pos).take limit,
        page key rows limit pos = ((rest key rows pos).take limit, some (key last)) ∧
          limit < (rest key rows pos).length ∧
          rest key rows (some (key last)) = (rest key rows pos).drop limit := by
  have htake : ((rest key rows pos).take (limit + 1)).take limit =
      (rest key rows pos).take limit := by
    rw [take_take, min_eq_left (Nat.le_succ limit)]
  unfold page
  dsimp only
  rw [htake, length_take]
  rcases lt_or_ge limit (rest key rows pos).length with hlt | hge
  · right
    have hne : (rest key rows pos).take limit ≠ [] := by
      intro hnil
      have hlength := congrArg List.length hnil
      rw [length_take, length_nil] at hlength
      omega
    refine ⟨_, getLast_mem hne, ?_, hlt, ?_⟩
    · rw [if_pos (by omega), List.getLast?_eq_some_getLast hne]
      rfl
    · have hlast := dropLast_append_getLast hne
      have hsplit : rest key rows pos = ((rest key rows pos).take limit).dropLast ++
          ((rest key rows pos).take limit).getLast hne :: (rest key rows pos).drop limit := by
        rw [append_cons, hlast, take_append_drop]
      exact rest_split hnodup hsplit
  · left
    rw [if_neg (by omega), take_of_length_le hge]
    exact ⟨rfl, hge⟩

/-! ## Scans -/

theorem scan_static (hnodup : (rows.map key).Nodup) {limits : List ℕ}
    (hlimits : ∀ limit ∈ limits, 1 ≤ limit) :
    scan key (limits.map fun limit => (rows, limit)) pos =
      ((rest key rows pos).take limits.sum,
        decide (limits ≠ [] ∧ (rest key rows pos).length ≤ limits.sum)) := by
  induction limits generalizing pos with
  | nil => rfl
  | cons limit limits ih =>
    rw [map_cons, sum_cons]
    unfold scan
    rcases page_cases pos hnodup (hlimits limit mem_cons_self) with
      ⟨hpage, hle⟩ | ⟨last, _, hpage, hlt, hdrop⟩
    · have hsum := hle.trans (Nat.le_add_right limit limits.sum)
      rw [hpage, take_of_length_le hsum]
      simp [hsum]
    · have hpos : ∀ limit ∈ limits, 1 ≤ limit := fun l hl => hlimits l (.tail _ hl)
      rw [hpage]
      dsimp only
      rw [ih hpos, hdrop, ← take_add, length_drop]
      have hnil : limits = [] → limits.sum = 0 := by
        rintro rfl
        rfl
      have hiff : (limits ≠ [] ∧ (rest key rows pos).length - limit ≤ limits.sum) ↔
          (limit :: limits ≠ [] ∧ (rest key rows pos).length ≤ limit + limits.sum) := by
        constructor
        · rintro ⟨_, h⟩
          exact ⟨cons_ne_nil _ _, by omega⟩
        · rintro ⟨_, h⟩
          refine ⟨fun hn => ?_, by omega⟩
          have hzero := hnil hn
          omega
      rw [decide_eq_decide.mpr hiff]

variable {requests : List (List α × ℕ)}

theorem mem_scan (hnodup : ∀ request ∈ requests, (request.1.map key).Nodup)
    (hlimits : ∀ request ∈ requests, 1 ≤ request.2) (hrow : row ∈ (scan key requests pos).1) :
    (∃ request ∈ requests, row ∈ request.1) ∧ ∀ k ∈ pos, k < key row := by
  induction requests generalizing pos with
  | nil => exact absurd hrow not_mem_nil
  | cons request requests ih =>
    unfold scan at hrow
    rcases page_cases pos (hnodup request mem_cons_self)
      (hlimits request mem_cons_self) with ⟨hpage, _⟩ | ⟨last, hlast, hpage, _, _⟩
    · rw [hpage] at hrow
      obtain ⟨hin, hpast⟩ := mem_rest.mp hrow
      exact ⟨⟨request, mem_cons_self, hin⟩, hpast⟩
    · rw [hpage] at hrow
      rcases mem_append.mp hrow with hpage | hlater
      · obtain ⟨hin, hpast⟩ := mem_rest.mp (mem_of_mem_take hpage)
        exact ⟨⟨request, mem_cons_self, hin⟩, hpast⟩
      · obtain ⟨⟨request', hmem, hin⟩, hpast⟩ := ih (fun r hr => hnodup r (.tail _ hr))
          (fun r hr => hlimits r (.tail _ hr)) hlater
        refine ⟨⟨request', .tail _ hmem, hin⟩, fun k hk => ?_⟩
        exact ((mem_rest.mp (mem_of_mem_take hlast)).2 k hk).trans (hpast _ rfl)

theorem scan_strict (hnodup : ∀ request ∈ requests, (request.1.map key).Nodup)
    (hlimits : ∀ request ∈ requests, 1 ≤ request.2) :
    (scan key requests pos).1.Pairwise fun a b => key a < key b := by
  induction requests generalizing pos with
  | nil => exact List.Pairwise.nil
  | cons request requests ih =>
    have hstrict := rest_strict pos (hnodup request mem_cons_self)
    have hnodup' := fun r hr => hnodup r (.tail _ hr)
    have hlimits' := fun r hr => hlimits r (.tail _ hr)
    unfold scan
    rcases page_cases pos (hnodup request mem_cons_self)
      (hlimits request mem_cons_self) with ⟨hpage, _⟩ | ⟨last, hlast, hpage, hlt, hdrop⟩
    · rw [hpage]
      exact hstrict
    · rw [hpage]
      refine pairwise_append.mpr ⟨hstrict.sublist (take_sublist _ _), ih hnodup' hlimits',
        fun a ha b hb => ?_⟩
      have hbeyond := (mem_scan hnodup' hlimits' hb).2 _ rfl
      refine lt_of_le_of_lt (le_of_not_gt fun hgt => ?_) hbeyond
      -- A row of the page past its last one would be among those dropped as well.
      have hdropped : a ∈ (rest key request.1 pos).drop request.2 := by
        rw [← hdrop, mem_rest]
        refine ⟨(mem_rest.mp (mem_of_mem_take ha)).1, ?_⟩
        rintro k ⟨⟩
        exact hgt
      rw [← take_append_drop request.2 (rest key request.1 pos)] at hstrict
      exact lt_irrefl _ ((pairwise_append.mp hstrict).2.2 a ha a hdropped)

theorem scan_complete (hnodup : ∀ request ∈ requests, (request.1.map key).Nodup)
    (hlimits : ∀ request ∈ requests, 1 ≤ request.2) (hended : (scan key requests pos).2 = true)
    (hrow : ∀ request ∈ requests, row ∈ request.1) (hpast : ∀ k ∈ pos, k < key row) :
    row ∈ (scan key requests pos).1 := by
  induction requests generalizing pos with
  | nil => exact absurd hended Bool.false_ne_true
  | cons request requests ih =>
    have hin : row ∈ rest key request.1 pos := mem_rest.mpr ⟨hrow request mem_cons_self, hpast⟩
    unfold scan at hended ⊢
    rcases page_cases pos (hnodup request mem_cons_self)
      (hlimits request mem_cons_self) with ⟨hpage, _⟩ | ⟨last, _, hpage, _, hdrop⟩
    · rw [hpage]
      exact hin
    · rw [hpage] at hended ⊢
      rw [← take_append_drop request.2 (rest key request.1 pos)] at hin
      refine mem_append.mpr ((mem_append.mp hin).imp_right fun hdropped => ?_)
      rw [← hdrop] at hdropped
      exact ih (fun r hr => hnodup r (.tail _ hr)) (fun r hr => hlimits r (.tail _ hr)) hended
        (fun r hr => hrow r (.tail _ hr)) (mem_rest.mp hdropped).2

end OmniSense.Library.Keyset
