import Mathlib.Data.List.Forall2
import Mathlib.Data.Nat.Basic
import Mathlib.Data.Nat.Notation
import Mathlib.Data.Option.Basic
import Mathlib.Order.Basic
import Mathlib.Tactic.Linarith
import Mathlib.Tactic.Ring
import Mathlib.Tactic.SplitIfs

/-! Runs of a step function, the invariants they keep and the length that they can have. -/

namespace OmniSense.Library

open List Option

/-! Runs of a step function that is not enabled everywhere, conditions on their steps, and the
invariants they keep; and what a step changes in a list of parties. -/

section

variable {σ ε : Type*} (step : σ → ε → Option σ)

def runs : σ → List ε → Option σ
  | s, [] => some s
  | s, e :: es => (step s e).bind fun s' => runs s' es

def Along (C : σ → ε → Prop) : σ → List ε → Prop
  | _, [] => True
  | s, e :: es => C s e ∧ ∀ s' ∈ step s e, Along C s' es

variable {step} {C : σ → ε → Prop} {I : σ → Prop} {s t : σ} {es : List ε}

instance decidableAlong [∀ s e, Decidable (C s e)] :
    ∀ (s : σ) (es : List ε), Decidable (Along step C s es)
  | _, [] => .isTrue trivial
  | s, e :: es =>
    have : ∀ s', Decidable (Along step C s' es) := fun s' => decidableAlong s' es
    inferInstanceAs (Decidable (C s e ∧ ∀ s' ∈ step s e, Along step C s' es))

theorem runs_keeps (hstep : ∀ s e s', I s → C s e → step s e = some s' → I s') (hs : I s)
    (hall : Along step C s es) (hrun : runs step s es = some t) : I t := by
  induction es generalizing s with
  | nil =>
    cases hrun
    exact hs
  | cons e es ih =>
    obtain ⟨s', hs', hrest⟩ := bind_eq_some_iff.mp hrun
    exact ih (hstep s e s' hs hall.1 hs') (hall.2 s' hs') hrest

theorem along_true (s : σ) (es : List ε) : Along step (fun _ _ => True) s es := by
  induction es generalizing s with
  | nil => trivial
  | cons e es ih => exact ⟨trivial, fun s' _ => ih s'⟩

theorem runs_invariant (hstep : ∀ s e s', I s → step s e = some s' → I s') (hs : I s)
    (hrun : runs step s es = some t) : I t :=
  runs_keeps (fun s e s' hI _ => hstep s e s' hI) hs (along_true s es) hrun

theorem runs_keeps_with {J : σ → Prop} (hJ : ∀ s e s', J s → step s e = some s' → J s')
    (hstep : ∀ s e s', J s → I s → C s e → step s e = some s' → I s') (hs : I s) (hs' : J s)
    (hall : Along step C s es) (hrun : runs step s es = some t) : I t := by
  have key : J t ∧ I t := by
    refine runs_keeps (I := fun s => J s ∧ I s) (fun s e s' h hC he => ?_) ⟨hs', hs⟩ hall hrun
    exact ⟨hJ s e s' h.1 he, hstep s e s' h.1 h.2 hC he⟩
  exact key.2

theorem runs_iff {P : σ → Prop}
    (hstep : ∀ s e s', I s → step s e = some s' → I s' ∧ (P s' ↔ P s ∧ C s e)) (hs : I s)
    (hrun : runs step s es = some t) : I t ∧ (P t ↔ P s ∧ Along step C s es) := by
  induction es generalizing s with
  | nil =>
    cases hrun
    exact ⟨hs, (and_iff_left trivial).symm⟩
  | cons e es ih =>
    obtain ⟨s', hs', hrest⟩ := bind_eq_some_iff.mp hrun
    obtain ⟨hI, hP⟩ := hstep s e s' hs hs'
    obtain ⟨hI', hP'⟩ := ih hI hrest
    refine ⟨hI', hP'.trans ?_⟩
    rw [hP, and_assoc]
    refine and_congr_right fun _ => and_congr_right fun _ => ⟨fun h u hu => ?_, fun h => h s' hs'⟩
    obtain rfl := Option.some.inj (hs'.symm.trans hu)
    exact h

theorem reaches_iff {P : σ → Prop}
    (hstep : ∀ s e s', I s → P s → step s e = some s' → I s' ∧ (P s' ↔ C s e))
    (hnone : ∀ s e, step s e = none → C s e) (hs : I s) (hP : P s) :
    (∀ before t, before <+: es → runs step s before = some t → P t) ↔ Along step C s es := by
  induction es generalizing s with
  | nil =>
    refine ⟨fun _ => trivial, fun _ before t hbefore hrun => ?_⟩
    obtain rfl := prefix_nil.mp hbefore
    cases hrun
    exact hP
  | cons e es ih =>
    constructor
    · intro h
      have hreached : ∀ s', step s e = some s' → P s' := fun s' hs' =>
        h [e] s' (prefix_append _ _) (bind_eq_some_iff.mpr ⟨s', hs', rfl⟩)
      refine ⟨?_, fun s' hs' => ?_⟩
      · cases hs' : step s e with
        | none => exact hnone s e hs'
        | some s' => exact (hstep s e s' hs hP hs').2.mp (hreached s' hs')
      · refine (ih (hstep s e s' hs hP hs').1 (hreached s' hs')).mp fun before t hbefore hrun => ?_
        exact h (e :: before) t (cons_prefix_cons.mpr ⟨rfl, hbefore⟩)
          (bind_eq_some_iff.mpr ⟨s', hs', hrun⟩)
    · rintro ⟨hC, hall⟩ before t hbefore hrun
      cases before with
      | nil =>
        cases hrun
        exact hP
      | cons b before =>
        obtain ⟨rfl, hrest⟩ := cons_prefix_cons.mp hbefore
        obtain ⟨s', hs', hrun⟩ := bind_eq_some_iff.mp hrun
        obtain ⟨hI, hiff⟩ := hstep s b s' hs hP hs'
        exact (ih hI (hiff.mpr hC)).mpr (hall s' hs') before t hrest hrun

theorem along_congr {D : σ → ε → Prop} (hI : ∀ s e s', I s → step s e = some s' → I s')
    (hiff : ∀ s e, I s → (C s e ↔ D s e)) (hs : I s) : Along step C s es ↔ Along step D s es := by
  induction es generalizing s with
  | nil => exact Iff.rfl
  | cons e es ih =>
    exact and_congr (hiff s e hs) (forall₂_congr fun s' hs' => ih (hI s e s' hs hs'))

theorem along_iff : Along step C s es ↔ ∀ before e later t, es = before ++ e :: later →
    runs step s before = some t → C t e := by
  induction es generalizing s with
  | nil => exact ⟨fun _ before _ _ _ heq => absurd heq (by simp), fun _ => trivial⟩
  | cons e es ih =>
    constructor
    · rintro ⟨hC, hall⟩ before e' later t heq hrun
      cases before with
      | nil =>
        cases hrun
        obtain ⟨rfl, _⟩ := List.cons.inj heq
        exact hC
      | cons b before =>
        rw [cons_append] at heq
        obtain ⟨rfl, hes⟩ := List.cons.inj heq
        obtain ⟨s', hs', hrest⟩ := bind_eq_some_iff.mp hrun
        exact ih.mp (hall s' hs') before e' later t hes hrest
    · intro h
      refine ⟨h [] e es s rfl rfl, fun s' hs' => ih.mpr fun before e' later t hes hrun => ?_⟩
      exact h (e :: before) e' later t (by rw [hes, cons_append])
        (bind_eq_some_iff.mpr ⟨s', hs', hrun⟩)

variable {es' : List ε}

theorem along_left (h : Along step C s (es ++ es')) : Along step C s es := by
  rw [along_iff] at h ⊢
  intro before e later t heq hrun
  exact h before e (later ++ es') t (by rw [heq, append_assoc, cons_append]) hrun

theorem along_total {next : σ → ε → σ} : Along (fun s e => some (next s e)) C s (es ++ es') ↔
      Along (fun s e => some (next s e)) C s es ∧
        Along (fun s e => some (next s e)) C (es.foldl next s) es' := by
  induction es generalizing s with
  | nil => exact (and_iff_right trivial).symm
  | cons e es ih =>
    have hone : ∀ es : List ε, Along (fun s e => some (next s e)) C s (e :: es) ↔
        C s e ∧ Along (fun s e => some (next s e)) C (next s e) es := fun _ =>
      and_congr_right fun _ => ⟨fun h => h _ rfl, fun h s' hs' => Option.some.inj hs' ▸ h⟩
    rw [cons_append, hone, hone, ih, and_assoc]
    rfl

theorem runs_alike {R : ε → ε → Prop}
    (hstep : ∀ s e e', I s → C s e → R e e' → step s e' = step s e)
    (hkeeps : ∀ s e s', I s → C s e → step s e = some s' → I s') (hs : I s)
    (hall : Along step C s es) (hR : List.Forall₂ R es es') :
    runs step s es' = runs step s es := by
  induction hR generalizing s with
  | nil => rfl
  | cons he _ ih =>
    obtain ⟨hC, hrest⟩ := hall
    rw [runs, runs, hstep s _ _ hs hC he]
    refine bind_congr fun s' hs' => ih (hkeeps s _ s' hs hC hs') (hrest s' hs')

/-! ## One party of many -/

section

variable {α : Type*} {l : List α} {i j : ℕ} {a b : α}

theorem set_cases (h : (l.set i a)[j]? = some b) : j = i ∧ b = a ∨ j ≠ i ∧ l[j]? = some b := by
  rw [List.getElem?_set] at h
  split_ifs at h with hij
  · exact .inl ⟨hij.symm, (Option.some.inj h).symm⟩
  · exact .inr ⟨Ne.symm hij, h⟩

theorem mem_set_cases (h : b ∈ l.set i a) : b = a ∨ ∃ j, j ≠ i ∧ l[j]? = some b := by
  obtain ⟨j, hj⟩ := mem_iff_getElem?.mp h
  exact (set_cases hj).imp And.right fun h => ⟨j, h⟩

variable {p : α → Prop}

def AtMostOne (p : α → Prop) (l : List α) : Prop :=
  ∀ (i j : ℕ), ∀ a ∈ l[i]?, ∀ b ∈ l[j]?, p a → p b → i = j

theorem AtMostOne.others (h : AtMostOne p l) (ha : l[i]? = some a) (hp : p a) (j : ℕ)
    (hj : j ≠ i) : ∀ b ∈ l[j]?, ¬p b :=
  fun b hb hother => hj (h j i b hb a ha hother hp)

theorem AtMostOne.set (h : AtMostOne p l)
    (hfree : p a → ∀ (j : ℕ), j ≠ i → ∀ b ∈ l[j]?, ¬p b) : AtMostOne p (l.set i a) := by
  intro j k b hb c hc hpb hpc
  rcases set_cases hb with ⟨hji, rfl⟩ | ⟨hji, hold⟩ <;>
    rcases set_cases hc with ⟨hki, rfl⟩ | ⟨hki, hold'⟩
  · exact hji.trans hki.symm
  · exact absurd hpc (hfree hpb k hki c hold')
  · exact absurd hpb (hfree hpc j hji b hold)
  · exact h j k b hold c hold' hpb hpc

theorem AtMostOne.concat (h : AtMostOne p l) (ha : ¬p a) : AtMostOne p (l ++ [a]) := by
  have hold : ∀ (j : ℕ), ∀ b ∈ (l ++ [a])[j]?, p b → b ∈ l[j]? := by
    intro j b hb hp
    rcases Nat.lt_or_ge j l.length with hj | hj
    · rwa [List.getElem?_append_left hj] at hb
    · rw [List.getElem?_append_right hj] at hb
      obtain rfl := mem_singleton.mp (mem_of_getElem? hb)
      exact absurd hp ha
  exact fun j k b hb c hc hpb hpc => h j k b (hold j b hb hpb) c (hold k c hc hpc) hpb hpc

end

end

/-! Runs that walk down a rank and are sent back up only by marked steps, the laps. Bounding the
laps bounds the length of the run. -/

section

variable {σ : Type*} {rank : σ → ℕ} {Lap : σ → σ → Prop} [DecidableRel Lap] {trace : ℕ → σ}
  {lap bound : ℕ}

/-- The marked steps among the first `n`. -/
def laps (Lap : σ → σ → Prop) [DecidableRel Lap] (trace : ℕ → σ) : ℕ → ℕ
  | 0 => 0
  | n + 1 => laps Lap trace n + if Lap (trace n) (trace (n + 1)) then 1 else 0

theorem laps_succ_of_lap {n : ℕ} (h : Lap (trace n) (trace (n + 1))) :
    laps Lap trace (n + 1) = laps Lap trace n + 1 := by
  simp only [laps, if_pos h]

theorem laps_succ_of_not {n : ℕ} (h : ¬ Lap (trace n) (trace (n + 1))) :
    laps Lap trace (n + 1) = laps Lap trace n := by
  simp only [laps, if_neg h, Nat.add_zero]

theorem add_rank_le_laps
    (hdown : ∀ i, 0 < rank (trace i) → ¬ Lap (trace i) (trace (i + 1)) →
      rank (trace (i + 1)) < rank (trace i))
    (hlap : ∀ i, Lap (trace i) (trace (i + 1)) →
      rank (trace (i + 1)) < rank (trace i) + lap)
    (n : ℕ) (hlive : ∀ i < n, 0 < rank (trace i)) :
    n + rank (trace n) ≤ rank (trace 0) + lap * laps Lap trace n := by
  induction n with
  | zero => simp only [laps, Nat.mul_zero, Nat.zero_add, Nat.add_zero, le_refl]
  | succ n ih =>
    have hn := ih fun i hi => hlive i (Nat.lt_succ_of_lt hi)
    by_cases h : Lap (trace n) (trace (n + 1))
    · have hstep := hlap n h
      rw [laps_succ_of_lap h, Nat.mul_add]
      omega
    · have hstep := hdown n (hlive n n.lt_succ_self) h
      rw [laps_succ_of_not h]
      omega

theorem exists_rank_eq_zero
    (hdown : ∀ i, 0 < rank (trace i) → ¬ Lap (trace i) (trace (i + 1)) →
      rank (trace (i + 1)) < rank (trace i))
    (hlap : ∀ i, Lap (trace i) (trace (i + 1)) →
      rank (trace (i + 1)) < rank (trace i) + lap)
    (hbound : ∀ n, laps Lap trace n ≤ bound) :
    ∃ n ≤ rank (trace 0) + lap * bound, rank (trace n) = 0 := by
  by_contra hnone
  push Not at hnone
  have hlive : ∀ i < rank (trace 0) + lap * bound + 1, 0 < rank (trace i) :=
    fun i hi => Nat.pos_of_ne_zero (hnone i (Nat.le_of_lt_succ hi))
  have hrun := add_rank_le_laps hdown hlap _ hlive
  have hpaid := Nat.mul_le_mul_left lap (hbound (rank (trace 0) + lap * bound + 1))
  omega

end

end OmniSense.Library
