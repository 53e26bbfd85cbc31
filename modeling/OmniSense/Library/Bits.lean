import Mathlib.Algebra.Order.Group.Nat
import Mathlib.Data.List.Nodup
import Mathlib.Data.List.Perm.Subperm
import Mathlib.Tactic.Common

/-! Bits of natural numbers: how many differ between two, and the disjoint bands of which one must
agree when fewer bits differ than there are bands. -/

namespace OmniSense.Library

open List

def bitCount (n : ℕ) : ℕ := (List.range (n.log2 + 1)).countP n.testBit

/-- In how many of the lowest `m` bits two numbers differ. -/
def bitDistance (m a b : ℕ) : ℕ := (List.range m).countP fun i => a.testBit i != b.testBit i

/-- The bits of the band `index` of bands of `width` bits. -/
def bandOf (a width index : ℕ) : ℕ := (a >>> (index * width)) &&& (2 ^ width - 1)

theorem countP_testBit_of_le {n k m : ℕ} (hn : n < 2 ^ k) (hk : k ≤ m) :
    (List.range m).countP n.testBit = (List.range k).countP n.testBit := by
  obtain ⟨d, rfl⟩ := Nat.exists_eq_add_of_le hk
  rw [range_add, countP_append, countP_map]
  have hzero : (List.range d).countP (n.testBit ∘ (k + ·)) = 0 := by
    rw [countP_eq_zero]
    intro i _
    have hlt : n < 2 ^ (k + i) :=
      lt_of_lt_of_le hn (Nat.pow_le_pow_right (by omega) (Nat.le_add_right k i))
    simp [Nat.testBit_lt_two_pow hlt]
  rw [hzero, Nat.add_zero]

theorem bitCount_eq {n m : ℕ} (hn : n < 2 ^ m) : bitCount n = (List.range m).countP n.testBit := by
  have hlog : n < 2 ^ (n.log2 + 1) := Nat.lt_log2_self
  unfold bitCount
  rw [← countP_testBit_of_le hlog (Nat.le_max_left _ m),
    ← countP_testBit_of_le hn (Nat.le_max_right (n.log2 + 1) _)]

theorem bitCount_xor {m a b : ℕ} (ha : a < 2 ^ m) (hb : b < 2 ^ m) :
    bitCount (a ^^^ b) = bitDistance m a b := by
  rw [bitCount_eq (Nat.xor_lt_two_pow ha hb)]
  congr
  funext i
  rw [Nat.testBit_xor]

theorem bitDistance_comm (m a b : ℕ) : bitDistance m a b = bitDistance m b a := by
  unfold bitDistance
  congr
  funext i
  cases a.testBit i <;> cases b.testBit i <;> rfl

theorem testBit_bandOf (a width index j : ℕ) :
    (bandOf a width index).testBit j = (a.testBit (index * width + j) && decide (j < width)) := by
  unfold bandOf
  rw [Nat.testBit_and, Nat.testBit_shiftRight, Nat.testBit_two_pow_sub_one]

theorem exists_bit_of_bandOf_ne {a b width index : ℕ} (h : bandOf a width index ≠ bandOf b width index) :
    ∃ j < width, a.testBit (index * width + j) ≠ b.testBit (index * width + j) := by
  by_contra hall
  push Not at hall
  apply h
  refine Nat.eq_of_testBit_eq fun j => ?_
  rw [testBit_bandOf, testBit_bandOf]
  by_cases hj : j < width
  · rw [hall j hj]
  · simp [hj]

theorem exists_band_eq {a b width bands : ℕ} (h : bitDistance (bands * width) a b < bands) :
    ∃ index < bands, bandOf a width index = bandOf b width index := by
  by_contra hall
  push Not at hall
  choose! offset hoffset using fun index (hindex : index < bands) =>
    exists_bit_of_bandOf_ne (hall index hindex)
  have hsubset : (List.range bands).map (fun index => index * width + offset index) ⊆
      (List.range (bands * width)).filter fun i => a.testBit i != b.testBit i := by
    intro i hi
    obtain ⟨index, hindex, rfl⟩ := mem_map.mp hi
    obtain ⟨hlt, hne⟩ := hoffset index (mem_range.mp hindex)
    have hindex' := mem_range.mp hindex
    have hbound : index * width + offset index < bands * width :=
      calc index * width + offset index < index * width + width := by omega
        _ = (index + 1) * width := (Nat.succ_mul index width).symm
        _ ≤ bands * width := Nat.mul_le_mul_right _ hindex'
    exact mem_filter.mpr ⟨mem_range.mpr hbound, by simpa using hne⟩
  have hnodup : ((List.range bands).map fun index => index * width + offset index).Nodup := by
    refine List.Nodup.map_on ?_ nodup_range
    intro x hx y hy hxy
    obtain ⟨hx', -⟩ := hoffset x (mem_range.mp hx)
    obtain ⟨hy', -⟩ := hoffset y (mem_range.mp hy)
    rcases lt_trichotomy x y with hlt | heq | hgt
    · have := Nat.mul_le_mul_right width (Nat.succ_le_of_lt hlt)
      rw [Nat.succ_mul] at this
      omega
    · exact heq
    · have := Nat.mul_le_mul_right width (Nat.succ_le_of_lt hgt)
      rw [Nat.succ_mul] at this
      omega
  have hlen := (subperm_of_subset hnodup hsubset).length_le
  rw [length_map, length_range] at hlen
  unfold bitDistance at h
  rw [countP_eq_length_filter] at h
  omega

end OmniSense.Library
