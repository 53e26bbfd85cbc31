import Mathlib.Data.List.DropRight
import Mathlib.Data.List.Infix
import Mathlib.Data.List.TakeWhile
import Mathlib.Tactic.Common

/-! Texts up to their blanks. -/

namespace OmniSense.Library

open List

/-! Both ends of a list stripped of the elements of a class. -/

section

variable {α : Type*} {p q : α → Bool}

def stripEnds (p : α → Bool) (l : List α) : List α := (l.dropWhile p).rdropWhile p

theorem stripEnds_prefix (p : α → Bool) (l : List α) : stripEnds p l <+: l.dropWhile p :=
  rdropWhile_prefix p _

variable {l : List α} {a : α}

theorem head_stripEnds (h : (stripEnds p l).head? = some a) : p a = false := by
  obtain ⟨rest, hrest⟩ := stripEnds_prefix p l
  have hhead : (l.dropWhile p).head? = some a := by
    rw [← hrest, List.head?_append, h, Option.some_or]
  have hnot := List.head?_dropWhile_not p l
  rw [hhead] at hnot
  simpa using hnot

theorem last_stripEnds (h : (stripEnds p l).getLast? = some a) : p a = false := by
  have hne : stripEnds p l ≠ [] := by
    intro hnil
    rw [hnil] at h
    cases h
  rw [List.getLast?_eq_getLast_of_ne_nil hne] at h
  rw [← Option.some.inj h]
  exact Bool.eq_false_iff.mpr (rdropWhile_last_not p _ hne)

theorem stripEnds_stripEnds (hle : ∀ a, p a = true → q a = true) (l : List α) :
    stripEnds p (stripEnds q l) = stripEnds q l := by
  have hfront : (stripEnds q l).dropWhile p = stripEnds q l := by
    cases hl : stripEnds q l with
    | nil => rfl
    | cons a rest =>
      have ha : q a = false := head_stripEnds (by rw [hl]; rfl)
      exact dropWhile_cons_of_neg fun hp => by simp [hle a hp] at ha
  have hback : (stripEnds q l).rdropWhile p = stripEnds q l := by
    rw [rdropWhile_eq_self_iff]
    intro hne hp
    exact rdropWhile_last_not q _ hne (hle _ hp)
  rw [stripEnds, hfront, hback]

theorem stripEnds_of_ends (hhead : ∀ a ∈ l.head?, p a = false)
    (hlast : ∀ a ∈ l.getLast?, p a = false) : stripEnds p l = l := by
  have hfront : l.dropWhile p = l := by
    cases l with
    | nil => rfl
    | cons a rest => exact dropWhile_cons_of_neg (by simp [hhead a rfl])
  rw [stripEnds, hfront, rdropWhile_eq_self_iff]
  intro hne hp
  rw [hlast _ (List.getLast?_eq_getLast_of_ne_nil hne)] at hp
  cases hp

theorem stripEnds_eq_self (h : ∀ a ∈ l, p a = false) : stripEnds p l = l :=
  stripEnds_of_ends (fun a ha => h a (mem_of_mem_head? ha))
    fun a ha => h a (mem_of_mem_getLast? ha)

theorem stripEnds_concat (ha : p a = true) : stripEnds p (l ++ [a]) = stripEnds p l := by
  unfold stripEnds
  rw [dropWhile_append]
  split_ifs with hempty
  · rw [isEmpty_iff.mp hempty, dropWhile_cons_of_pos ha, dropWhile_nil]
  · rw [rdropWhile_concat_pos p _ _ ha]

theorem stripEnds_within (p : α → Bool) (l : List α) : stripEnds p l <:+: l := by
  have hstart := stripEnds_prefix p l
  exact hstart.isInfix.trans (dropWhile_suffix p).isInfix

theorem stripEnds_eq_nil : stripEnds p l = [] ↔ ∀ a ∈ l, p a = true := by
  unfold stripEnds
  rw [rdropWhile_eq_nil_iff]
  refine ⟨fun h => dropWhile_eq_nil_iff.mp ?_,
    fun h a ha => h a ((dropWhile_suffix p).subset ha)⟩
  cases hl : l.dropWhile p with
  | nil => rfl
  | cons a rest =>
    have hnot := List.head?_dropWhile_not p l
    rw [hl] at h hnot
    simp [h a mem_cons_self] at hnot

section

variable {β : Type*} {f : β → List α} {b : β → Bool}

theorem dropWhile_flatMap {l : List β} (hblank : ∀ t ∈ l, b t = true → ∀ a ∈ f t, p a = true)
    (hsolid : ∀ t ∈ l, b t = false → ∃ a ∈ (f t).head?, p a = false) :
    (l.flatMap f).dropWhile p = (l.dropWhile b).flatMap f := by
  induction l with
  | nil => rfl
  | cons t l ih =>
    obtain ⟨hblank, hblanks⟩ := forall_mem_cons.mp hblank
    obtain ⟨hsolid, hsolids⟩ := forall_mem_cons.mp hsolid
    rw [flatMap_cons]
    cases ht : b t with
    | true =>
      rw [dropWhile_append_of_pos (hblank ht), dropWhile_cons_of_pos ht]
      exact ih hblanks hsolids
    | false =>
      obtain ⟨a, hhead, ha⟩ := hsolid ht
      obtain ⟨rest, hrest⟩ := List.head?_eq_some_iff.mp hhead
      rw [dropWhile_cons_of_neg (by simp [ht]), flatMap_cons, hrest, cons_append,
        dropWhile_cons_of_neg (by simp [ha])]

theorem stripEnds_flatMap {l : List β} (hblank : ∀ t ∈ l, b t = true → ∀ a ∈ f t, p a = true)
    (hhead : ∀ t ∈ l, b t = false → ∃ a ∈ (f t).head?, p a = false)
    (hlast : ∀ t ∈ l, b t = false → ∃ a ∈ (f t).getLast?, p a = false) :
    stripEnds p (l.flatMap f) = (stripEnds b l).flatMap f := by
  have hsub : ∀ t ∈ (l.dropWhile b).reverse, t ∈ l := fun t ht =>
    (dropWhile_suffix b).subset (mem_reverse.mp ht)
  have hback := @dropWhile_flatMap _ p β (List.reverse ∘ f) b (l.dropWhile b).reverse
    (fun t ht hb a ha => hblank t (hsub t ht) hb a (mem_reverse.mp ha))
    (fun t ht hb => by
      rw [Function.comp_apply, List.head?_reverse]
      exact hlast t (hsub t ht) hb)
  unfold stripEnds List.rdropWhile
  rw [dropWhile_flatMap hblank hhead, reverse_flatMap, hback, reverse_flatMap]
  congr
  funext t
  exact reverse_reverse _

end

end

/-! Texts up to their blanks: the blanks at the ends go, each run of blanks between other symbols
becomes one separator, and everything that stays knows which part of the text it stands for. -/

section

variable {α : Type*}

/-- What comes before the rest of a text: nothing that stays, a symbol that does, or a run of blanks
behind one, since a position. -/
inductive Seen
  | nothing
  | symbol
  | blanks (since : ℕ)

/-- A symbol that stays, or the separator for a run of blanks, and its extent in the text. -/
structure Kept (α : Type*) where
  symbol : α
  start : ℕ
  stop : ℕ

def Seen.skip (k : ℕ) : Seen → Seen
  | .symbol => .blanks k
  | st => st

def Seen.gap (sep : α) (k : ℕ) : Seen → List (Kept α)
  | .blanks since => [⟨sep, since, k⟩]
  | _ => []

@[simp] theorem Seen.gap_nothing (sep : α) (k : ℕ) : Seen.nothing.gap sep k = [] := rfl

@[simp] theorem Seen.gap_symbol (sep : α) (k : ℕ) : Seen.symbol.gap sep k = [] := rfl

@[simp] theorem Seen.gap_blanks (sep : α) (since k : ℕ) :
    (Seen.blanks since).gap sep k = [⟨sep, since, k⟩] := rfl

variable (p : α → Bool) (sep : α)

@[grind =] def reflow : Seen → ℕ → List α → List (Kept α)
  | _, _, [] => []
  | st, k, a :: l =>
    if p a then reflow (st.skip k) (k + 1) l
    else st.gap sep k ++ ⟨a, k, k + 1⟩ :: reflow .symbol (k + 1) l

def collapse (l : List α) : List α := (reflow p sep .nothing 0 l).map Kept.symbol

structure Firm (l : List α) : Prop where
  first : ∃ a m, l = a :: m ∧ p a = false
  last : ∃ m a, l = m ++ [a] ∧ p a = false

variable {p sep} {st : Seen} {k : ℕ} {a : α} {l r : List α}

theorem reflow_blank (ha : p a = true) :
    reflow p sep st k (a :: l) = reflow p sep (st.skip k) (k + 1) l := by
  rw [reflow, if_pos ha]

theorem reflow_symbol (ha : p a = false) : reflow p sep st k (a :: l) =
    st.gap sep k ++ ⟨a, k, k + 1⟩ :: reflow p sep .symbol (k + 1) l := by
  rw [reflow, if_neg (ne_true_of_eq_false ha)]

theorem reflow_split (p : α → Bool) (sep : α) (st : Seen) (k : ℕ) (l : List α) :
    ∃ front, ∀ a r, p a = false → reflow p sep st k (l ++ a :: r) = front ++
      ⟨a, k + l.length, k + l.length + 1⟩ :: reflow p sep .symbol (k + l.length + 1) r := by
  induction l generalizing st k with
  | nil => exact ⟨st.gap sep k, fun a r ha => reflow_symbol ha⟩
  | cons b l ih =>
    have hlength : k + (b :: l).length = k + 1 + l.length := by
      rw [length_cons]
      omega
    rw [hlength]
    cases hb : p b with
    | true =>
      obtain ⟨front, hfront⟩ := ih (st.skip k) (k + 1)
      exact ⟨front, fun a r ha => (reflow_blank hb).trans (hfront a r ha)⟩
    | false =>
      obtain ⟨front, hfront⟩ := ih .symbol (k + 1)
      refine ⟨st.gap sep k ++ ⟨b, k, k + 1⟩ :: front, fun a r ha => ?_⟩
      rw [cons_append, reflow_symbol hb, hfront a r ha, append_assoc, cons_append]

variable {e : Kept α}

theorem reflow_eq_append (hsep : p sep = true) {x y : List (Kept α)}
    (h : reflow p sep st k l = x ++ e :: y) (he : p e.symbol = false) :
    ∃ pre post, l = pre ++ e.symbol :: post ∧ e = ⟨e.symbol, k + pre.length, k + pre.length + 1⟩ ∧
      y = reflow p sep .symbol (k + pre.length + 1) post ∧
      ∀ a r, p a = false → reflow p sep st k (pre ++ a :: r) = x ++
        ⟨a, k + pre.length, k + pre.length + 1⟩ ::
          reflow p sep .symbol (k + pre.length + 1) r := by
  induction l generalizing st k x with
  | nil => exact absurd h.symm (append_ne_nil_of_right_ne_nil _ (cons_ne_nil _ _))
  | cons b l ih =>
    have hlength : ∀ pre : List α, k + (b :: pre).length = k + 1 + pre.length := by
      intro pre
      rw [length_cons]
      omega
    cases hb : p b with
    | true =>
      rw [reflow_blank hb] at h
      obtain ⟨pre, post, hl, hkept, hy, hfront⟩ := ih h
      refine ⟨b :: pre, post, by rw [hl, cons_append], ?_⟩
      rw [hlength]
      exact ⟨hkept, hy, fun a r ha => (reflow_blank hb).trans (hfront a r ha)⟩
    | false =>
      rw [reflow_symbol hb] at h
      -- The separator in front of `b` is a blank, so it is not the symbol.
      obtain ⟨x, rfl⟩ : ∃ x', x = st.gap sep k ++ x' := by
        cases st with
        | nothing | symbol => exact ⟨x, rfl⟩
        | blanks since =>
          cases x with
          | nil =>
            obtain ⟨rfl, -⟩ := List.cons.inj h
            exact absurd hsep (ne_true_of_eq_false he)
          | cons e' x =>
            obtain ⟨rfl, -⟩ := List.cons.inj h
            exact ⟨x, rfl⟩
      rw [append_assoc, append_cancel_left_eq] at h
      cases x with
      | nil =>
        obtain ⟨rfl, hy⟩ := List.cons.inj h
        refine ⟨[], l, rfl, rfl, hy.symm, fun a r ha => ?_⟩
        rw [append_nil]
        exact reflow_symbol ha
      | cons e' x =>
        obtain ⟨rfl, hrest⟩ := List.cons.inj h
        obtain ⟨pre, post, hl, hkept, hy, hfront⟩ := ih hrest
        refine ⟨b :: pre, post, by rw [hl, cons_append], ?_⟩
        rw [hlength]
        refine ⟨hkept, hy, fun a r ha => ?_⟩
        rw [cons_append, reflow_symbol hb, hfront a r ha, append_assoc, cons_append]

theorem start_lt (hsep : p sep = true) {x y z : List (Kept α)} {e e' : Kept α}
    (h : reflow p sep st k l = x ++ e :: (y ++ e' :: z)) (he : p e.symbol = false)
    (he' : p e'.symbol = false) : e.start < e'.start := by
  obtain ⟨pre, post, -, hkept, hrest, -⟩ := reflow_eq_append hsep h he
  obtain ⟨pre', -, -, hkept', -⟩ := reflow_eq_append hsep hrest.symm he'
  rw [hkept, hkept']
  dsimp only
  omega

theorem reflow_blanks (h : ∀ a ∈ l, p a = true) : reflow p sep st k l = [] := by
  induction l generalizing st k with
  | nil => rfl
  | cons a l ih =>
    rw [reflow_blank (h a mem_cons_self)]
    exact ih fun b hb => h b (mem_cons_of_mem a hb)

theorem reflow_run {run : List α} (ha : p a = true) (hrun : ∀ b ∈ run, p b = true) :
    reflow p sep st k (a :: run ++ l) = reflow p sep (st.skip k) (k + run.length + 1) l := by
  rw [cons_append, reflow_blank ha]
  have hskip : ∀ k', (st.skip k).skip k' = st.skip k := fun _ => by cases st <;> rfl
  have hall : ∀ k', reflow p sep (st.skip k) k' (run ++ l) =
      reflow p sep (st.skip k) (k' + run.length) l := by
    induction run with
    | nil => exact fun _ => rfl
    | cons b run ih =>
      intro k'
      rw [cons_append, reflow_blank (hrun b mem_cons_self), hskip,
        ih fun c hc => hrun c (mem_cons_of_mem b hc), length_cons, Nat.add_right_comm,
        Nat.add_assoc]
  rw [hall, Nat.add_right_comm]

/-! ## A part of a text -/

def Seen.later (n : ℕ) : Seen → Seen
  | .blanks since => .blanks (since + n)
  | st => st

variable (p sep) in
theorem symbols_later (n : ℕ) (st : Seen) (k : ℕ) (l : List α) :
    (reflow p sep (st.later n) (k + n) l).map Kept.symbol =
      (reflow p sep st k l).map Kept.symbol := by
  induction l generalizing st k with
  | nil => rfl
  | cons a l ih =>
    have hskip : (st.later n).skip (k + n) = (st.skip k).later n := by cases st <;> rfl
    have hgap : ((st.later n).gap sep (k + n)).map Kept.symbol = (st.gap sep k).map Kept.symbol := by
      cases st <;> rfl
    cases ha : p a with
    | true => rw [reflow_blank ha, reflow_blank ha, hskip, Nat.add_right_comm, ih]
    | false =>
      rw [reflow_symbol ha, reflow_symbol ha, map_append, map_append, hgap, map_cons,
        map_cons, Nat.add_right_comm]
      exact congrArg (fun rest => _ ++ a :: rest) (ih .symbol (k + 1))

theorem symbols_reflow (p : α → Bool) (sep : α) (k : ℕ) (l : List α) :
    (reflow p sep .nothing k l).map Kept.symbol = collapse p sep l := by
  have hlater := symbols_later p sep k .nothing 0 l
  rwa [Nat.zero_add] at hlater

theorem first_reflow {y : List (Kept α)} (h : reflow p sep .nothing k l = e :: y) :
    p e.symbol = false := by
  induction l generalizing k with
  | nil => exact absurd h.symm (cons_ne_nil _ _)
  | cons a l ih =>
    cases ha : p a with
    | true => exact ih ((reflow_blank ha).symm.trans h)
    | false =>
      rw [reflow_symbol ha] at h
      obtain ⟨rfl, -⟩ := List.cons.inj h
      exact ha

theorem last_reflow {x : List (Kept α)} (h : reflow p sep st k l = x ++ [e]) :
    p e.symbol = false := by
  induction l generalizing st k x with
  | nil => exact absurd h.symm (append_ne_nil_of_right_ne_nil _ (cons_ne_nil _ _))
  | cons a l ih =>
    cases ha : p a with
    | true => exact ih ((reflow_blank ha).symm.trans h)
    | false =>
      rw [reflow_symbol ha] at h
      rcases eq_nil_or_concat (reflow p sep .symbol (k + 1) l) with hnil | ⟨z, e', hz⟩
      · rw [hnil] at h
        obtain ⟨-, hlast⟩ := append_inj' h rfl
        obtain ⟨rfl, -⟩ := List.cons.inj hlast
        exact ha
      · rw [concat_eq_append] at hz
        rw [hz, ← cons_append, ← append_assoc] at h
        obtain ⟨-, hlast⟩ := append_inj' h rfl
        obtain ⟨rfl, -⟩ := List.cons.inj hlast
        exact ih hz

theorem firm_collapse (h : collapse p sep l ≠ []) : Firm p (collapse p sep l) := by
  have hne : reflow p sep .nothing 0 l ≠ [] := fun hnil => h (congrArg _ hnil)
  constructor
  · obtain ⟨e, y, hey⟩ := exists_cons_of_ne_nil hne
    exact ⟨e.symbol, y.map Kept.symbol, congrArg _ hey, first_reflow hey⟩
  · obtain ⟨x, e, hxe⟩ := (eq_nil_or_concat _).resolve_left hne
    rw [concat_eq_append] at hxe
    refine ⟨x.map Kept.symbol, e.symbol, ?_, last_reflow hxe⟩
    unfold collapse
    rw [hxe, map_append, map_singleton]

variable (sep) in
theorem reflow_part {pre mid post : List α} (h : Firm p mid) :
    ∃ x y, reflow p sep .nothing 0 (pre ++ mid ++ post) =
      x ++ reflow p sep .nothing pre.length mid ++ y := by
  obtain ⟨a, m, rfl, ha⟩ := h.first
  obtain ⟨x, hx⟩ := reflow_split p sep .nothing 0 pre
  rw [Nat.zero_add] at hx
  have hmid : reflow p sep .nothing pre.length (a :: m) =
      ⟨a, pre.length, pre.length + 1⟩ :: reflow p sep .symbol (pre.length + 1) m :=
    reflow_symbol ha
  have hrest : ∃ y, reflow p sep .symbol (pre.length + 1) (m ++ post) =
      reflow p sep .symbol (pre.length + 1) m ++ y := by
    obtain ⟨front, b, hlast, hb⟩ := h.last
    cases m with
    | nil => exact ⟨_, (nil_append _).symm⟩
    | cons c m =>
      obtain ⟨m', hm'⟩ : ∃ m', c :: m = m' ++ [b] := by
        cases front with
        | nil => exact absurd (List.cons.inj hlast).2 (cons_ne_nil _ _)
        | cons _ front => exact ⟨front, (List.cons.inj hlast).2⟩
      obtain ⟨z, hz⟩ := reflow_split p sep .symbol (pre.length + 1) m'
      rw [hm', hz b [] hb, append_assoc, singleton_append, hz b post hb]
      exact ⟨_, by rw [append_assoc]; rfl⟩
  obtain ⟨y, hy⟩ := hrest
  refine ⟨x, y, ?_⟩
  rw [append_assoc, cons_append, hx a _ ha, hy, hmid, append_assoc, cons_append]

theorem part_of_reflow (hsep : p sep = true) {x w y : List (Kept α)}
    (h : reflow p sep .nothing 0 l = x ++ w ++ y) (hw : Firm p (w.map Kept.symbol)) :
    ∃ pre mid post, l = pre ++ mid ++ post ∧ Firm p mid ∧
      w = reflow p sep .nothing pre.length mid := by
  obtain ⟨e, w, rfl, he⟩ : ∃ e w', w = e :: w' ∧ p e.symbol = false := by
    obtain ⟨a, m, ham, ha⟩ := hw.first
    obtain ⟨e, w', rfl, rfl, -⟩ := map_eq_cons_iff.mp ham
    exact ⟨e, w', rfl, ha⟩
  rw [append_assoc, cons_append] at h
  obtain ⟨pre, post, rfl, hkept, hrest, -⟩ := reflow_eq_append hsep h he
  rw [Nat.zero_add] at hkept hrest
  rcases eq_nil_or_concat w with rfl | ⟨z, f, rfl⟩
  · refine ⟨pre, [e.symbol], post, by simp, ⟨⟨_, _, rfl, he⟩, ⟨[], _, rfl, he⟩⟩, ?_⟩
    rw [reflow_symbol he, ← hkept]
    rfl
  · have hf : p f.symbol = false := by
      obtain ⟨m, a, hma, ha⟩ := hw.last
      rw [concat_eq_append, ← cons_append, map_append] at hma
      obtain ⟨-, hlast⟩ := append_inj' hma rfl
      rw [← (List.cons.inj hlast).1] at ha
      exact ha
    rw [concat_eq_append, append_assoc, singleton_append] at hrest
    obtain ⟨m, post', rfl, hkept', -, hfront⟩ := reflow_eq_append hsep hrest.symm hf
    refine ⟨pre, e.symbol :: (m ++ [f.symbol]), post', by simp,
      ⟨⟨_, _, rfl, he⟩, ⟨e.symbol :: m, _, rfl, hf⟩⟩, ?_⟩
    rw [reflow_symbol he, hfront f.symbol [] hf, ← hkept, ← hkept', concat_eq_append]
    rfl

variable (sep) in
theorem extent_reflow (h : Firm p l) (k : ℕ) :
    (reflow p sep .nothing k l).head?.map Kept.start = some k ∧
      (reflow p sep .nothing k l).getLast?.map Kept.stop = some (k + l.length) := by
  obtain ⟨a, m, hfirst, ha⟩ := h.first
  obtain ⟨m', b, hlast, hb⟩ := h.last
  constructor
  · rw [hfirst, reflow_symbol ha]
    rfl
  · obtain ⟨front, hfront⟩ := reflow_split p sep .nothing k m'
    rw [hlast, hfront b [] hb]
    simp [reflow, Nat.add_assoc]

theorem collapse_ne_nil (h : Firm p l) : collapse p sep l ≠ [] := by
  intro hnil
  have hhead := (extent_reflow sep h 0).1
  rw [map_eq_nil_iff.mp hnil] at hhead
  exact nomatch hhead

end

end OmniSense.Library
