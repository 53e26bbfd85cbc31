import Mathlib.Data.List.Infix
import Mathlib.Order.Lattice
import OmniSense.Library.Dict

/-! Unions that keep the order of first mention, and their cap: a capped union absorbs one list
after another exactly as it absorbs all of them at once. -/

namespace OmniSense.Library

open List

variable {α : Type*} [DecidableEq α]

theorem appendNew_append (seen xs ys : List α) :
    appendNew seen (xs ++ ys) = appendNew (appendNew seen xs) ys := foldl_append ..

variable (seen xs : List α)

theorem appendNew_snoc (x : α) : appendNew seen (xs ++ [x]) =
      if x ∈ appendNew seen xs then appendNew seen xs else appendNew seen xs ++ [x] := by
  rw [appendNew_append, appendNew_singleton]

theorem nodup_appendNew {seen : List α} (h : seen.Nodup) (xs : List α) :
    (appendNew seen xs).Nodup := by
  induction xs using List.reverseRecOn with
  | nil => exact h
  | append_singleton xs x ih =>
    rw [appendNew_snoc]
    split_ifs with hx
    · exact ih
    · exact nodup_append.mpr ⟨ih, nodup_singleton x, by
        rintro a ha b hb rfl
        exact hx (mem_singleton.mp hb ▸ ha)⟩

/-! ## What a union adds -/

/-- The elements of `xs` that `seen` lacks, in the order they are first met. -/
def fresh (seen xs : List α) : List α := appendNew [] (xs.filter fun x => x ∉ seen)

theorem nodup_fresh : (fresh seen xs).Nodup := nodup_appendNew nodup_nil _

theorem mem_fresh {seen xs : List α} {x : α} : x ∈ fresh seen xs ↔ x ∈ xs ∧ x ∉ seen := by
  unfold fresh
  rw [mem_appendNew, mem_filter]
  simp

theorem fresh_snoc (x : α) : fresh seen (xs ++ [x]) =
      if x ∈ seen ∨ x ∈ xs then fresh seen xs else fresh seen xs ++ [x] := by
  have hmem : x ∈ fresh seen xs ↔ x ∈ xs ∧ x ∉ seen := mem_fresh
  unfold fresh at hmem ⊢
  rw [filter_append]
  by_cases hx : x ∈ seen
  · have hnil : ([x].filter fun x => x ∉ seen) = [] := by simp [hx]
    rw [hnil, append_nil, if_pos (Or.inl hx)]
  · have hone : ([x].filter fun x => x ∉ seen) = [x] := by simp [hx]
    rw [hone, appendNew_snoc]
    exact if_congr (by tauto) rfl rfl

theorem appendNew_eq : appendNew seen xs = seen ++ fresh seen xs := by
  induction xs using List.reverseRecOn with
  | nil => exact (append_nil seen).symm
  | append_singleton xs x ih =>
    have hmem : x ∈ appendNew seen xs ↔ x ∈ seen ∨ x ∈ xs := mem_appendNew
    rw [appendNew_snoc, fresh_snoc, if_congr hmem rfl rfl, ih]
    split_ifs
    · rfl
    · rw [append_assoc]

theorem appendNew_nil_of_nodup {xs : List α} (h : xs.Nodup) : appendNew [] xs = xs := by
  induction xs using List.reverseRecOn with
  | nil => rfl
  | append_singleton xs x ih =>
    obtain ⟨hxs, -, hx⟩ := nodup_append.mp h
    rw [appendNew_snoc, ih hxs, if_neg fun hmem => hx x hmem x (by simp) rfl]

theorem fresh_append (seen more xs : List α) :
    fresh (seen ++ more) xs = (fresh seen xs).filter fun x => x ∉ more := by
  induction xs using List.reverseRecOn with
  | nil => rfl
  | append_singleton xs x ih =>
    have hmem : x ∈ seen ++ more ↔ x ∈ seen ∨ x ∈ more := mem_append
    rw [fresh_snoc, fresh_snoc, ih]
    by_cases hseen : x ∈ seen ∨ x ∈ xs
    · rw [if_pos hseen, if_pos (by tauto)]
    · rw [if_neg hseen, filter_append]
      by_cases hmore : x ∈ more
      · rw [if_pos (by tauto)]
        simp [hmore]
      · rw [if_neg (by tauto)]
        simp [hmore]

theorem appendNew_nil_append (seen xs ys : List α) :
    appendNew [] (seen ++ appendNew xs ys) = appendNew [] (seen ++ (xs ++ ys)) := by
  induction ys using List.reverseRecOn with
  | nil => rw [append_nil]; rfl
  | append_singleton ys y ih =>
    have hall : seen ++ (xs ++ (ys ++ [y])) = seen ++ (xs ++ ys) ++ [y] := by
      simp only [append_assoc]
    rw [hall, appendNew_snoc xs, appendNew_snoc [], ← ih]
    by_cases hy : y ∈ appendNew xs ys
    · have hin : y ∈ appendNew [] (seen ++ appendNew xs ys) :=
        mem_appendNew.mpr (.inr (mem_append_right _ hy))
      rw [if_pos hy, if_pos hin]
    · rw [if_neg hy, ← append_assoc, appendNew_snoc]

/-! ## Caps -/

theorem take_appendNew_take {seen : List α} (cap : ℕ) (xs : List α) :
    (appendNew (seen.take cap) xs).take cap = (appendNew seen xs).take cap := by
  rcases Nat.le_total seen.length cap with h | h
  · rw [take_of_length_le h]
  · have hlen : (seen.take cap).length = cap := length_take_of_le h
    rw [appendNew_eq, appendNew_eq, take_append_of_le_length (Nat.le_of_eq hlen.symm),
      take_append_of_le_length h, take_take, min_self]

theorem take_union_union (seen xs ys : List α) (cap : ℕ) :
    (appendNew [] ((appendNew [] (seen ++ xs)).take cap ++ ys)).take cap =
      (appendNew [] (seen ++ (xs ++ ys))).take cap := by
  have hnodup : ((appendNew [] (seen ++ xs)).take cap).Nodup :=
    (nodup_appendNew nodup_nil _).sublist (take_sublist ..)
  rw [appendNew_append, appendNew_nil_of_nodup hnodup, take_appendNew_take, ← appendNew_append,
    append_assoc]

theorem take_union_eq_iff (seen gone kept : List α) (cap : ℕ) :
    (appendNew [] (seen ++ (gone ++ kept))).take cap = (appendNew [] (seen ++ kept)).take cap ↔
      (fresh seen gone).take (cap - (appendNew [] seen).length) <+: fresh seen kept := by
  set known := appendNew [] seen with hknown
  have hmem : ∀ x, x ∈ known ↔ x ∈ seen := fun x => by simp [hknown, mem_appendNew]
  have hfresh : ∀ xs, fresh seen xs = fresh known xs := fun xs => by simp only [fresh, hmem]
  have hkept : appendNew [] (seen ++ kept) = known ++ fresh known kept := by
    rw [appendNew_append, ← hknown, appendNew_eq]
  have hall : appendNew [] (seen ++ (gone ++ kept)) = known ++ (fresh known gone ++
      (fresh known kept).filter fun x => x ∉ fresh known gone) := by
    rw [← append_assoc, appendNew_append, appendNew_append, ← hknown, appendNew_eq,
      appendNew_eq, fresh_append, append_assoc]
  set room := cap - known.length
  set g := fresh known gone
  set k := fresh known kept with hk
  have hroom : (known ++ (g ++ k.filter fun x => x ∉ g)).take cap = (known ++ k).take cap ↔
      (g ++ k.filter fun x => x ∉ g).take room = k.take room := by
    rw [take_append, @take_append _ known, append_right_inj]
  rw [hall, hkept, hroom, hfresh, hfresh]
  constructor
  · intro h
    have hg : g.take room <+: (g ++ k.filter fun x => x ∉ g).take room :=
      List.IsPrefix.take (prefix_append g _) room
    exact (h ▸ hg).trans ( take_prefix room k)
  · intro h
    rcases Nat.le_total room g.length with hle | hle
    · rw [take_append_of_le_length hle]
      have hlen : (g.take room).length = room := length_take_of_le hle
      rw [prefix_iff_eq_take.mp h, hlen]
    · rw [take_of_length_le hle] at h
      obtain ⟨rest, hrest⟩ := h
      have hnodup : (g ++ rest).Nodup := hrest ▸ nodup_fresh known kept
      have hfilter : (k.filter fun x => x ∉ g) = rest := by
        rw [hk, ← hrest, filter_append]
        have hout : (g.filter fun x => x ∉ g) = [] := by simp
        have hin : (rest.filter fun x => x ∉ g) = rest := by
          rw [filter_eq_self]
          intro x hx
          simpa using fun hxg => (nodup_append.mp hnodup).2.2 x hxg x hx rfl
        rw [hout, hin, nil_append]
      rw [hfilter, hk, hrest]

end OmniSense.Library
