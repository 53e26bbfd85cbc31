import Mathlib.Algebra.Order.Group.Nat
import Mathlib.Data.List.Sort
import OmniSense.Library.Dict

/-! Newest-first listings that are read page by page, by offset, while they change: what has been
read, what is still to come, and what a store keeps of it when the last of a key wins. -/

namespace OmniSense.Library.Listing

open List Function

variable {α κ τ : Type*} {items page l : List α} {x : α} {offset : ℕ}

/-! ## The last of a key wins -/

section

variable (key : α → κ)

def Sole (items : List α) (x : α) : Prop := ∀ y ∈ items, key y = key x → y = x

variable {key}

theorem sole_nil (x : α) : Sole key [] x := fun _ hy => absurd hy not_mem_nil

theorem Sole.append (h : Sole key items x) (hpage : Sole key page x) :
    Sole key (items ++ page) x := by
  intro y hy
  rcases mem_append.mp hy with hy | hy
  · exact h y hy
  · exact hpage y hy

theorem sole_of_nodup (hnodup : (l.map key).Nodup) (hx : x ∈ l) (hpage : ∀ y ∈ page, y ∈ l) :
    Sole key page x :=
  fun y hy heq => inj_on_of_nodup_map hnodup (hpage y hy) hx heq

end

variable [DecidableEq κ] (key : α → κ)

def save (items : List α) (s : κ → Option α) : κ → Option α := upsertAll key (fun x _ => x) items s

def Last (items : List α) (x : α) : Prop := ∀ s, save key items s (key x) = some x

variable {key} {s : κ → Option α}

theorem save_cons (y : α) (items : List α) (s : κ → Option α) :
    save key (y :: items) s = save key items (Function.update s (key y) (some y)) := rfl

theorem save_append (items page : List α) (s : κ → Option α) :
    save key (items ++ page) s = save key page (save key items s) := foldl_append

theorem save_sole (h : s (key x) = some x) (hsole : Sole key items x) :
    save key items s (key x) = some x := by
  induction items generalizing s with
  | nil => exact h
  | cons y items ih =>
    rw [save_cons]
    refine ih ?_ fun z hz => hsole z (.tail _ hz)
    by_cases hy : key y = key x
    · rw [hsole y mem_cons_self hy, update_self]
    · rw [update_of_ne (Ne.symm hy)]
      exact h

theorem save_mem (items : List α) {k : κ} (h : s k = some x) :
    ∃ y, save key items s k = some y ∧ (y = x ∨ y ∈ items ∧ key y = k) := by
  induction items generalizing s x with
  | nil => exact ⟨x, h, .inl rfl⟩
  | cons z items ih =>
    rw [save_cons]
    by_cases hz : k = key z
    · obtain ⟨y, hy, hmem⟩ := ih (s := Function.update s (key z) (some z)) (x := z)
        (by rw [hz, update_self])
      refine ⟨y, hy, .inr ?_⟩
      rcases hmem with rfl | ⟨hmem, hkey⟩
      · exact ⟨mem_cons_self, hz.symm⟩
      · exact ⟨.tail _ hmem, hkey⟩
    · obtain ⟨y, hy, hmem⟩ := ih (s := Function.update s (key z) (some z))
        (by rwa [update_of_ne hz])
      exact ⟨y, hy, hmem.imp_right fun hmem => ⟨.tail _ hmem.1, hmem.2⟩⟩

theorem Last.append (h : Last key items x) (hpage : Sole key page x) :
    Last key (items ++ page) x := by
  intro s
  rw [save_append]
  exact save_sole (h s) hpage

theorem last_of_mem (items : List α) (hx : x ∈ page) (hpage : Sole key page x) :
    Last key (items ++ page) x := by
  intro s
  rw [save_append]
  obtain ⟨before, after, rfl⟩ := append_of_mem hx
  have hafter : Sole key after x := fun y hy =>
    hpage y (mem_append_right _ (mem_cons_of_mem _ hy))
  rw [save_append, save_cons]
  exact save_sole (update_self ..) hafter

theorem save_of_ne {k : κ} (h : ∀ y ∈ items, key y ≠ k) : save key items s k = s k := by
  induction items generalizing s with
  | nil => rfl
  | cons y items ih =>
    rw [save_cons, ih fun z hz => h z (.tail _ hz),
      update_of_ne (h y mem_cons_self).symm]

theorem save_iff (hnodup : (l.map key).Nodup) (hpage : ∀ y ∈ page, y ∈ l) (hx : x ∈ l) :
    save key page s (key x) = some x ↔ x ∈ page ∨ s (key x) = some x := by
  by_cases hin : x ∈ page
  · exact ⟨fun _ => .inl hin, fun _ =>
      last_of_mem [] hin (sole_of_nodup hnodup hx hpage) s⟩
  · rw [save_of_ne fun y hy heq => hin (inj_on_of_nodup_map hnodup (hpage y hy) hx heq ▸ hy)]
    exact (or_iff_right hin).symm

theorem Last.mem (h : Last key items x) : x ∈ items := by
  by_contra hx
  have hnone : ∀ items : List α, x ∉ items → ∀ s : κ → Option α, s (key x) ≠ some x →
      save key items s (key x) ≠ some x := by
    intro items
    induction items with
    | nil => exact fun _ _ hs => hs
    | cons y items ih =>
      intro hx s hs
      rw [save_cons]
      refine ih (fun hmem => hx (.tail _ hmem)) _ ?_
      by_cases hy : key x = key y
      · rw [hy, update_self]
        exact fun heq => hx (Option.some.inj heq ▸ mem_cons_self)
      · rwa [update_of_ne hy]
  exact hnone items hx (fun _ => none) (fun heq => absurd heq (by simp)) (h _)

/-! ## Pages -/

variable [LinearOrder τ] {stamp clock : α → τ}

variable (key stamp clock) in
/-- Whatever in the listing is older than an item read was read as it is now, or stands where it is
still to be read. -/
def Covers (l items : List α) (offset : ℕ) : Prop :=
  ∀ x ∈ l, ∀ y ∈ items, stamp x < clock y → Last key items x ∨ x ∈ l.drop offset

theorem covers_nil : Covers key stamp clock l [] offset :=
  fun _ _ _ hy => absurd hy not_mem_nil

theorem mem_drop_of_lt (hsorted : l.Pairwise fun a b => stamp b ≤ stamp a) {y : α}
    (hx : x ∈ l) (hy : y ∈ l.drop offset) (hlt : stamp x < stamp y) : x ∈ l.drop offset := by
  rw [← take_append_drop offset l] at hx hsorted
  rcases mem_append.mp hx with hx | hx
  · exact absurd hlt (not_lt.mpr ((pairwise_append.mp hsorted).2.2 x hx y hy))
  · exact hx

theorem Covers.read (hsorted : l.Pairwise fun a b => stamp b ≤ stamp a)
    (hnodup : (l.map key).Nodup) (h : Covers key stamp clock l items offset) (size : ℕ)
    (hclock : ∀ y ∈ (l.drop offset).take size,
      offset = 0 ∨ clock y ≤ stamp y ∨ ∃ z ∈ items, clock y ≤ clock z) :
    Covers key stamp clock l (items ++ (l.drop offset).take size) (offset + size) := by
  intro x hx y hy hlt
  have hpage : ∀ z ∈ (l.drop offset).take size, z ∈ l := fun z hz =>
    mem_of_mem_drop (mem_of_mem_take hz)
  have hsole := sole_of_nodup hnodup hx hpage
  -- Still to come before the page: on the page, or still to come after it.
  have hcome : x ∈ l.drop offset →
      Last key (items ++ (l.drop offset).take size) x ∨ x ∈ l.drop (offset + size) := by
    intro hdrop
    rw [← take_append_drop size (l.drop offset), drop_drop] at hdrop
    exact (mem_append.mp hdrop).imp_left fun hin => last_of_mem items hin hsole
  have hread : ∀ z ∈ items, stamp x < clock z →
      Last key (items ++ (l.drop offset).take size) x ∨ x ∈ l.drop (offset + size) := by
    intro z hz hlt
    rcases h x hx z hz hlt with hlast | hdrop
    · exact .inl (hlast.append hsole)
    · exact hcome hdrop
  rcases mem_append.mp hy with hy | hy
  · exact hread y hy hlt
  · rcases hclock y hy with rfl | hle | ⟨z, hz, hle⟩
    · exact hcome hx
    · exact hcome (mem_drop_of_lt hsorted hx (mem_of_mem_take hy) (hlt.trans_le hle))
    · exact hread z hz (hlt.trans_le hle)

theorem Covers.change {l' : List α} (h : Covers key stamp clock l items offset)
    (hchange : ∀ x' ∈ l', (∀ y ∈ items, clock y ≤ stamp x') ∨
      ∃ x ∈ l, stamp x = stamp x' ∧ (Last key items x → Last key items x') ∧
        (x ∈ l.drop offset → x' ∈ l'.drop offset)) : Covers key stamp clock l' items offset := by
  intro x' hx' y hy hlt
  rcases hchange x' hx' with hnew | ⟨x, hx, hstamp, hlast, hdrop⟩
  · exact absurd hlt (not_lt.mpr (hnew y hy))
  · exact (h x hx y hy (hstamp ▸ hlt)).imp hlast hdrop

theorem Covers.done (h : Covers key stamp clock l items offset) (hend : l.length ≤ offset) :
    ∀ x ∈ l, ∀ y ∈ items, stamp x < clock y → Last key items x := by
  intro x hx y hy hlt
  rcases h x hx y hy hlt with hlast | hdrop
  · exact hlast
  · rw [drop_eq_nil_of_le hend] at hdrop
    exact absurd hdrop not_mem_nil

/-! ## Changes at the front -/

theorem mem_drop_insert {a b : List α} {c : α} (hx : x ∈ (a ++ b).drop offset) :
    x ∈ (a ++ c :: b).drop offset := by
  rw [drop_append] at hx ⊢
  refine mem_append.mpr ((mem_append.mp hx).imp_right fun hb => ?_)
  generalize offset - a.length = n at hb ⊢
  cases n with
  | zero => exact mem_cons_of_mem _ hb
  | succ n =>
    rw [drop_succ_cons]
    rw [← drop_drop] at hb
    exact mem_of_mem_drop hb

theorem mem_drop_moved {k : κ} (hnodup : (l.map key).Nodup)
    (hx : x ∈ l.drop offset) (hne : key x ≠ k) (c : α) :
    x ∈ (c :: l.filter fun y => key y ≠ k).drop offset := by
  induction l generalizing offset c with
  | nil =>
    rw [drop_nil] at hx
    exact absurd hx not_mem_nil
  | cons a l ih =>
    obtain ⟨ha, hl⟩ := nodup_cons.mp (map_cons .. ▸ hnodup)
    cases offset with
    | zero => exact .tail _ (mem_filter.mpr ⟨hx, decide_eq_true hne⟩)
    | succ n =>
      rw [drop_succ_cons] at hx ⊢
      by_cases hk : key a = k
      · have hothers : l.filter (fun y => key y ≠ k) = l := by
          rw [filter_eq_self]
          intro y hy
          refine decide_eq_true fun heq => ha ?_
          rw [hk, ← heq]
          exact mem_map_of_mem hy
        rw [filter_cons_of_neg (by simp [hk]), hothers]
        exact hx
      · rw [filter_cons_of_pos (by simp [hk])]
        exact ih hl hx a

end OmniSense.Library.Listing
