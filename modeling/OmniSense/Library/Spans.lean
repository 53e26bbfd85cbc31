import Mathlib.Data.List.Basic
import Mathlib.Data.List.Infix
import Mathlib.Tactic.Common

/-! Spans of a sequence, and scanning it by position. -/

namespace OmniSense.Library

open List

/-! Spans `[start, end)` of a sequence: spans that spread over a region with gaps of one kind,
folding spans into their predecessors, and widening them backwards. -/

section

abbrev Span := ℕ × ℕ

/-- The spans run from `lo` to `hi`, and `G` holds of each gap between two of them. -/
inductive Spread (G : ℕ → ℕ → Prop) : ℕ → List Span → ℕ → Prop
  | one {lo hi : ℕ} : lo < hi → Spread G lo [(lo, hi)] hi
  | cons {lo e m hi : ℕ} {rest : List Span} :
      lo < e → e ≤ m → G e m → Spread G m rest hi → Spread G lo ((lo, e) :: rest) hi

section

variable {G : ℕ → ℕ → Prop} {lo hi : ℕ} {spans : List Span}

theorem Spread.lt (h : Spread G lo spans hi) : lo < hi := by
  induction h with
  | one h => exact h
  | cons hlt hle _ _ ih => omega

theorem Spread.ne_nil (h : Spread G lo spans hi) : spans ≠ [] := by
  cases h <;> simp

theorem Spread.head (h : Spread G lo spans hi) {s : Span} {rest : List Span}
    (heq : spans = s :: rest) : s.1 = lo ∧ s.1 < s.2 := by
  cases h with
  | one hlt | cons hlt =>
    obtain ⟨rfl, rfl⟩ := List.cons.inj heq
    exact ⟨rfl, hlt⟩

theorem Spread.mono {G' : ℕ → ℕ → Prop} (h : Spread G lo spans hi)
    (hG : ∀ a b, G a b → G' a b) : Spread G' lo spans hi := by
  induction h with
  | one hlt => exact .one hlt
  | cons hlt hle hgap _ ih => exact .cons hlt hle (hG _ _ hgap) ih

theorem Spread.append {m m' : ℕ} {spans' : List Span} (h : Spread G lo spans m) (hle : m ≤ m')
    (hgap : G m m') (h' : Spread G m' spans' hi) : Spread G lo (spans ++ spans') hi := by
  induction h with
  | one hlt => exact .cons hlt hle hgap h'
  | cons hlt hle' hgap' _ ih => exact .cons hlt hle' hgap' (ih hle hgap)

theorem Spread.flatMap (h : Spread G lo spans hi) {f : Span → List Span}
    (hf : ∀ s ∈ spans, Spread G s.1 (f s) s.2) : Spread G lo (spans.flatMap f) hi := by
  induction h with
  | one hlt => simpa using hf _ (mem_singleton_self _)
  | cons hlt hle hgap _ ih =>
    rw [flatMap_cons]
    have hhead := hf _ mem_cons_self
    exact hhead.append hle hgap (ih fun s hs => hf s (mem_cons_of_mem _ hs))

theorem Spread.within (h : Spread G lo spans hi) :
    ∀ s ∈ spans, lo ≤ s.1 ∧ s.1 < s.2 ∧ s.2 ≤ hi := by
  induction h with
  | one hlt =>
    intro s hs
    obtain rfl := mem_singleton.mp hs
    exact ⟨le_rfl, hlt, le_rfl⟩
  | cons hlt hle _ hrest ih =>
    intro s hs
    have hlt' := hrest.lt
    rcases mem_cons.mp hs with rfl | hs
    · exact ⟨le_rfl, hlt, by omega⟩
    · have := ih s hs
      omega

theorem Spread.disjoint (h : Spread G lo spans hi) : spans.Pairwise fun a b => a.2 ≤ b.1 := by
  induction h with
  | one => exact pairwise_singleton _ _
  | cons _ hle _ hrest ih =>
    refine pairwise_cons.mpr ⟨fun s hs => ?_, ih⟩
    exact hle.trans (hrest.within s hs).1

end

/-! ## Folding spans into their predecessor -/

section

variable (joins : Span → Span → Bool)

/-- Extend the current span over the next one where `joins` says so, else close it. -/
@[grind =] def coalesce : Span → List Span → List Span
  | current, [] => [current]
  | current, next :: rest =>
    if joins current next then coalesce (current.1, next.2) rest
    else current :: coalesce next rest

variable {joins}

@[simp] theorem coalesce_nil (current : Span) : coalesce joins current [] = [current] := rfl

theorem coalesce_join {current next : Span} (h : joins current next = true) (rest : List Span) :
    coalesce joins current (next :: rest) = coalesce joins (current.1, next.2) rest := by
  rw [coalesce, if_pos h]

theorem coalesce_close {current next : Span} (h : joins current next = false) (rest : List Span) :
    coalesce joins current (next :: rest) = current :: coalesce joins next rest := by
  rw [coalesce, if_neg (by simp [h])]

theorem coalesce_eq_cons (current : Span) (rest : List Span) :
    ∃ first folded, coalesce joins current rest = first :: folded ∧ first.1 = current.1 := by
  induction rest generalizing current with
  | nil => exact ⟨current, [], rfl, rfl⟩
  | cons next rest ih =>
    cases hjoin : joins current next with
    | true =>
      rw [coalesce_join hjoin]
      exact ih (current.1, next.2)
    | false => exact ⟨current, _, coalesce_close hjoin rest, rfl⟩

theorem coalesce_ne_nil (current : Span) (rest : List Span) : coalesce joins current rest ≠ [] := by
  obtain ⟨first, folded, h, -⟩ := @coalesce_eq_cons joins current rest
  simp [h]

theorem Spread.coalesce {G : ℕ → ℕ → Prop} {lo hi : ℕ} {current : Span} {rest : List Span}
    (h : Spread G lo (current :: rest) hi) : Spread G lo (coalesce joins current rest) hi := by
  induction rest generalizing lo current with
  | nil => simpa [Library.coalesce] using h
  | cons next rest ih =>
    cases h with
    | cons hlt hle hgap hrest =>
      obtain ⟨hnext, hne⟩ := hrest.head rfl
      unfold Library.coalesce
      split_ifs
      · apply ih
        cases hrest with
        | one => exact .one (by omega)
        | cons _ hle' hgap' hrest' => exact .cons (by simp only; omega) hle' hgap' hrest'
      · exact .cons hlt hle hgap (ih hrest)

theorem mem_coalesce {current : Span} {rest : List Span} {s : Span}
    (h : s ∈ coalesce joins current rest) :
    ∃ a ∈ current :: rest, ∃ b ∈ current :: rest, s = (a.1, b.2) := by
  induction rest generalizing current with
  | nil => exact ⟨current, by simp, current, by simp, by simpa [coalesce] using h⟩
  | cons next rest ih =>
    unfold coalesce at h
    split_ifs at h
    · obtain ⟨a, ha, b, hb, rfl⟩ := ih h
      have hlift : ∀ x ∈ (current.1, next.2) :: rest,
          (∃ y ∈ current :: next :: rest, y.1 = x.1) ∧
            ∃ y ∈ current :: next :: rest, y.2 = x.2 := by
        intro x hx
        rcases mem_cons.mp hx with rfl | hx
        · exact ⟨⟨current, by simp, rfl⟩, ⟨next, by simp, rfl⟩⟩
        · exact ⟨⟨x, by simp [hx], rfl⟩, ⟨x, by simp [hx], rfl⟩⟩
      obtain ⟨⟨a', ha', h₁⟩, -⟩ := hlift a ha
      obtain ⟨-, b', hb', h₂⟩ := hlift b hb
      exact ⟨a', ha', b', hb', by rw [h₁, h₂]⟩
    · rcases mem_cons.mp h with rfl | h
      · exact ⟨s, by simp, s, by simp, rfl⟩
      · obtain ⟨a, ha, b, hb, rfl⟩ := ih h
        exact ⟨a, mem_cons_of_mem _ ha, b, mem_cons_of_mem _ hb, rfl⟩

theorem coalesce_append {current next last : Span} {part rest : List Span}
    (hlast : (coalesce joins current part).getLast? = some last) (hnot : joins last next = false) :
    coalesce joins current (part ++ next :: rest) =
      coalesce joins current part ++ coalesce joins next rest := by
  -- Where the last span of a part does not take the next one, folding starts afresh.
  induction part generalizing current with
  | nil =>
    obtain rfl : current = last := by simpa using hlast
    rw [nil_append, coalesce_close hnot, coalesce_nil, singleton_append]
  | cons x part ih =>
    rw [cons_append]
    cases hjoin : joins current x with
    | true =>
      rw [coalesce_join hjoin] at hlast ⊢
      rw [coalesce_join hjoin, ih hlast]
    | false =>
      rw [coalesce_close hjoin, List.getLast?_cons_of_ne_nil (coalesce_ne_nil _ _)] at hlast
      rw [coalesce_close hjoin, coalesce_close hjoin, ih hlast, cons_append]

theorem coalesce_eq_append {current : Span} {rest left right : List Span}
    (h : coalesce joins current rest = left ++ right) (hleft : left ≠ []) (hright : right ≠ []) :
    ∃ part next rest', rest = part ++ next :: rest' ∧ coalesce joins current part = left ∧
      coalesce joins next rest' = right ∧ ∃ last ∈ left.getLast?, joins last next = false := by
  induction rest generalizing current left with
  | nil =>
    have hlen := congrArg List.length h
    have h₁ := length_pos_iff.mpr hleft
    have h₂ := length_pos_iff.mpr hright
    simp only [coalesce_nil, length_singleton, length_append] at hlen
    omega
  | cons x rest ih =>
    cases hjoin : joins current x with
    | true =>
      rw [coalesce_join hjoin] at h
      obtain ⟨part, next, rest', rfl, hpart, hrest⟩ := ih h hleft
      exact ⟨x :: part, next, rest', rfl, by rw [coalesce_join hjoin, hpart], hrest⟩
    | false =>
      obtain ⟨y, left, rfl⟩ := exists_cons_of_ne_nil hleft
      rw [coalesce_close hjoin, cons_append] at h
      obtain ⟨hy, htail⟩ := List.cons.inj h
      subst hy
      by_cases hnil : left = []
      · subst hnil
        exact ⟨[], x, rest, rfl, rfl, htail, current, rfl, hjoin⟩
      · obtain ⟨part, next, rest', rfl, hpart, hrest, last, hlast, hnot⟩ := ih htail hnil
        refine ⟨x :: part, next, rest', rfl, by rw [coalesce_close hjoin, hpart], hrest, last, ?_,
          hnot⟩
        rwa [List.getLast?_cons_of_ne_nil hnil]

end

/-! ## Widening -/

/-- The spans `ext` are those of `base`, each started up to `w` earlier but from `floor` on, and
after the start of the one before. -/
def Widens (w : ℕ) : ℕ → List Span → List Span → Prop
  | _, [], [] => True
  | floor, b :: base, e :: ext =>
    e.2 = b.2 ∧ floor ≤ e.1 ∧ e.1 ≤ b.1 ∧ b.1 ≤ e.1 + w ∧ Widens w (b.1 + 1) base ext
  | _, _, _ => False

section

variable {w : ℕ}

variable {base ext : List Span} {p : ℕ}

theorem Widens.mono {p p' : ℕ} (h : Widens w p base ext) (hp : p' ≤ p) : Widens w p' base ext := by
  cases base <;> cases ext <;> simp only [Widens] at h ⊢
  exact ⟨h.1, hp.trans h.2.1, h.2.2⟩

theorem Widens.append {p m : ℕ} {base ext base' ext' : List Span} (h : Widens w p base ext)
    (hm : ∀ b ∈ base, b.1 < m) (hp : p ≤ m) (h' : Widens w m base' ext') :
    Widens w p (base ++ base') (ext ++ ext') := by
  induction base generalizing p ext with
  | nil =>
    cases ext with
    | nil => exact h'.mono hp
    | cons => exact h.elim
  | cons b base ih =>
    cases ext with
    | nil => exact h.elim
    | cons e ext =>
      obtain ⟨h₁, h₂, h₃, h₄, hrest⟩ := h
      exact ⟨h₁, h₂, h₃, h₄, ih hrest (fun b hb => hm b (mem_cons_of_mem _ hb))
        (hm b mem_cons_self)⟩

theorem Widens.length (h : Widens w p base ext) : ext.length = base.length := by
  induction base generalizing p ext with
  | nil => cases ext <;> simp_all [Widens]
  | cons b base ih =>
    cases ext with
    | nil => exact h.elim
    | cons e ext => simp [ih h.2.2.2.2]

theorem Widens.floor_le (h : Widens w p base ext) : ∀ e ∈ ext, p ≤ e.1 := by
  induction base generalizing p ext with
  | nil => cases ext <;> simp_all [Widens]
  | cons b base ih =>
    cases ext with
    | nil => exact h.elim
    | cons e ext =>
      obtain ⟨-, hfloor, hle, -, hrest⟩ := h
      intro x hx
      rcases mem_cons.mp hx with rfl | hx
      · exact hfloor
      · have := ih hrest x hx
        omega

theorem Widens.get {p k : ℕ} {b e : Span} (h : Widens w p base ext)
    (hb : base[k]? = some b) (he : ext[k]? = some e) :
    e.2 = b.2 ∧ e.1 ≤ b.1 ∧ b.1 ≤ e.1 + w := by
  induction base generalizing p k ext with
  | nil => simp at hb
  | cons b' base ih =>
    cases ext with
    | nil => exact h.elim
    | cons e' ext =>
      obtain ⟨hend, -, hle, hw, hrest⟩ := h
      cases k with
      | zero =>
        obtain rfl : b' = b := by simpa using hb
        obtain rfl : e' = e := by simpa using he
        exact ⟨hend, hle, hw⟩
      | succ k => exact ih hrest (by simpa using hb) (by simpa using he)

theorem Widens.after {p k : ℕ} {base ext : List Span} {b e : Span} (h : Widens w p base ext)
    (hb : base[k]? = some b) (he : ext[k + 1]? = some e) : b.1 < e.1 := by
  induction base generalizing p k ext with
  | nil => simp at hb
  | cons b' base ih =>
    cases ext with
    | nil => exact h.elim
    | cons e' ext =>
      obtain ⟨-, -, -, -, hrest⟩ := h
      cases k with
      | zero =>
        obtain rfl : b' = b := by simpa using hb
        exact hrest.floor_le e (mem_of_getElem? he)
      | succ k => exact ih hrest (by simpa using hb) (by simpa using he)

theorem Widens.mem (h : Widens w p base ext) {e : Span}
    (he : e ∈ ext) : ∃ b ∈ base, e.2 = b.2 ∧ e.1 ≤ b.1 := by
  obtain ⟨k, hk⟩ := List.getElem?_of_mem he
  have hlt : k < base.length := h.length ▸ (List.getElem?_eq_some_iff.mp hk).1
  have hget := List.getElem?_eq_getElem hlt
  obtain ⟨hend, hle, -⟩ := h.get hget hk
  exact ⟨base[k], getElem_mem hlt, hend, hle⟩

theorem Widens.ascending (h : Widens w p base ext)
    (hlt : ∀ b ∈ base, b.1 < b.2) (hdisjoint : base.Pairwise fun a b => a.2 ≤ b.1) :
    ext.Pairwise fun a b => a.1 < b.1 ∧ a.2 < b.2 := by
  induction base generalizing p ext with
  | nil => cases ext <;> simp_all [Widens]
  | cons b base ih =>
    cases ext with
    | nil => exact h.elim
    | cons e ext =>
      obtain ⟨hend, -, hle, -, hrest⟩ := h
      obtain ⟨hhead, htail⟩ := pairwise_cons.mp hdisjoint
      refine pairwise_cons.mpr ⟨fun x hx => ?_, ?_⟩
      · have hstart := hrest.floor_le x hx
        obtain ⟨b', hb', hend', -⟩ := hrest.mem hx
        have hgap := hhead b' hb'
        have hpos := hlt b' (mem_cons_of_mem _ hb')
        exact ⟨by omega, by omega⟩
      · exact ih hrest (fun b hb => hlt b (mem_cons_of_mem _ hb)) htail

end

end

/-! Scanning a sequence by position: runs of elements, trimming, and the matches that do not
overlap, from left to right. -/

section

section

variable {α : Type*} (p : α → Bool) (text : List α)

def holdsAt (i : ℕ) : Bool := (text[i]?).any p

def skipRun : ℕ → ℕ → ℕ
  | 0, i => i
  | n + 1, i => if holdsAt p text i then skipRun n (i + 1) else i

/-- Where the run of `p` from `i` on ends, at most at `hi`. -/
def runEnd (i hi : ℕ) : ℕ := skipRun p text (hi - i) i

/-- Where `[lo, hi)` ends without the run of `p` at its end. -/
def trimEnd (lo : ℕ) : ℕ → ℕ
  | 0 => 0
  | hi + 1 => if lo < hi + 1 ∧ holdsAt p text hi then trimEnd lo hi else hi + 1

variable {p text}

theorem skipRun_spec (n i : ℕ) :
    i ≤ skipRun p text n i ∧ skipRun p text n i ≤ i + n ∧
      (∀ k, i ≤ k → k < skipRun p text n i → holdsAt p text k) ∧
      (skipRun p text n i < i + n → holdsAt p text (skipRun p text n i) = false) := by
  induction n generalizing i with
  | zero => exact ⟨le_rfl, le_rfl, fun k h h' => absurd h (by simpa [skipRun] using h'), by
      simp [skipRun]⟩
  | succ n ih =>
    obtain ⟨hle, hbound, hrun, hstop⟩ := ih (i + 1)
    unfold skipRun
    split_ifs with hi
    · refine ⟨by omega, by omega, fun k hk hk' => ?_, fun h => hstop (by omega)⟩
      by_cases heq : k = i
      · exact heq ▸ hi
      · exact hrun k (by omega) hk'
    · exact ⟨le_rfl, by omega, fun k h h' => absurd h (by omega), fun _ => by simpa using hi⟩

theorem le_runEnd (p : α → Bool) (text : List α) (i hi : ℕ) : i ≤ runEnd p text i hi :=
  (skipRun_spec _ _).1

theorem runEnd_le {i hi : ℕ} (h : i ≤ hi) : runEnd p text i hi ≤ hi := by
  have := (@skipRun_spec _ p text (hi - i) i).2.1
  unfold runEnd
  omega

theorem runEnd_of_le {i hi : ℕ} (h : hi ≤ i) : runEnd p text i hi = i := by
  unfold runEnd
  rw [Nat.sub_eq_zero_of_le h, skipRun]

theorem holdsAt_of_lt_runEnd {i hi k : ℕ} (h : i ≤ k) (h' : k < runEnd p text i hi) :
    holdsAt p text k := (skipRun_spec _ _).2.2.1 k h h'

theorem runEnd_stops {i hi : ℕ} (h : runEnd p text i hi < hi) :
    holdsAt p text (runEnd p text i hi) = false := by
  have hle := le_runEnd p text i hi
  apply (skipRun_spec _ _).2.2.2
  unfold runEnd at h hle
  omega

theorem drop_runEnd {a : α} {i : ℕ} (h : text[i]? = some a) (ha : p a = true) :
    ∃ run, text.drop i = a :: run ++ text.drop (runEnd p text i text.length) ∧
      (∀ b ∈ run, p b = true) ∧ runEnd p text i text.length = i + run.length + 1 := by
  obtain ⟨hlt, hget⟩ := List.getElem?_eq_some_iff.mp h
  obtain ⟨stop, hstop⟩ : ∃ stop, stop = runEnd p text i text.length := ⟨_, rfl⟩
  have hlo := le_runEnd p text i text.length
  have hhi := @runEnd_le _ p text _ _ hlt.le
  have hne : stop ≠ i := by
    intro heq
    have hends := @runEnd_stops _ p text i text.length (by omega)
    rw [← hstop, heq, holdsAt, h] at hends
    exact absurd ha (ne_true_of_eq_false hends)
  rw [← hstop] at hlo hhi ⊢
  refine ⟨(text.drop (i + 1)).take (stop - (i + 1)), ?_, fun b hb => ?_, ?_⟩
  · have hrest : text.drop stop = (text.drop (i + 1)).drop (stop - (i + 1)) := by
      rw [drop_drop]
      congr 1
      omega
    rw [cons_append, hrest, take_append_drop, ← hget]
    exact drop_eq_getElem_cons hlt
  · obtain ⟨j, hj, rfl⟩ := mem_iff_getElem.mp hb
    rw [length_take, length_drop] at hj
    have hholds := @holdsAt_of_lt_runEnd _ p text i text.length (i + 1 + j)
      (by omega) (by omega)
    rw [getElem_take, getElem_drop]
    rwa [holdsAt, List.getElem?_eq_getElem (by omega), Option.any_some] at hholds
  · rw [length_take, length_drop]
    omega

theorem trimEnd_spec (lo hi : ℕ) :
    trimEnd p text lo hi ≤ hi ∧ (lo ≤ hi → lo ≤ trimEnd p text lo hi) ∧
      (∀ k, trimEnd p text lo hi ≤ k → k < hi → holdsAt p text k) ∧
      (lo < trimEnd p text lo hi → holdsAt p text (trimEnd p text lo hi - 1) = false) := by
  induction hi with
  | zero => exact ⟨le_rfl, fun h => h, fun k _ h => absurd h (by omega), fun h => absurd h (by
      simp [trimEnd])⟩
  | succ hi ih =>
    obtain ⟨hle, hlo, hrun, hstop⟩ := ih
    unfold trimEnd
    split_ifs with h
    · refine ⟨by omega, fun h' => hlo (by omega), fun k hk hk' => ?_, hstop⟩
      by_cases heq : k = hi
      · exact heq ▸ h.2
      · exact hrun k hk (by omega)
    · refine ⟨le_rfl, fun h' => h', fun k hk hk' => absurd hk (by omega), fun h' => ?_⟩
      simpa [h'] using h

end

/-! ## Matches -/

/-- Leftmost matches that do not overlap: `m` gives the end of the match at a position. -/
@[grind =] def finditerFrom (m : ℕ → Option ℕ) : ℕ → ℕ → List Span
  | 0, _ => []
  | fuel + 1, pos =>
    match m pos with
    | some stop => (pos, stop) :: finditerFrom m fuel stop
    | none => finditerFrom m fuel (pos + 1)

def finditer (m : ℕ → Option ℕ) (lo hi : ℕ) : List Span := finditerFrom m (hi - lo) lo

/-- The spans are matches, in order, from `lo` on. -/
def Matches (m : ℕ → Option ℕ) (lo : ℕ) (spans : List Span) : Prop :=
  spans.Pairwise (fun a b => a.2 ≤ b.1) ∧ ∀ s ∈ spans, lo ≤ s.1 ∧ m s.1 = some s.2

variable {m : ℕ → Option ℕ}

theorem Matches.mono {lo lo' : ℕ} {spans : List Span} (h : Matches m lo spans)
    (hle : lo' ≤ lo) : Matches m lo' spans :=
  ⟨h.1, fun s hs => ⟨hle.trans (h.2 s hs).1, (h.2 s hs).2⟩⟩

theorem Matches.cons_iff {lo : ℕ} {s : Span} {spans : List Span} :
    Matches m lo (s :: spans) ↔ lo ≤ s.1 ∧ m s.1 = some s.2 ∧
      (∀ x ∈ spans, s.2 ≤ x.1) ∧ Matches m lo spans := by
  unfold Matches
  rw [pairwise_cons, forall_mem_cons]
  tauto

theorem Matches.tail {m : ℕ → Option ℕ} {lo : ℕ} {s : Span} {spans : List Span}
    (h : Matches m lo (s :: spans)) : Matches m s.2 spans := by
  obtain ⟨-, -, hafter, hrest⟩ := Matches.cons_iff.mp h
  exact ⟨hrest.1, fun x hx => ⟨hafter x hx, (hrest.2 x hx).2⟩⟩

theorem matches_finditer (hm : ∀ p e, m p = some e → p < e) (lo hi : ℕ) :
    Matches m lo (finditer m lo hi) := by
  unfold finditer
  generalize hi - lo = fuel
  induction fuel generalizing lo with
  | zero => exact ⟨.nil, by simp [finditerFrom]⟩
  | succ fuel ih =>
    unfold finditerFrom
    split
    next stop hstop =>
      have hlt := hm lo stop hstop
      refine Matches.cons_iff.mpr ⟨le_rfl, hstop, fun x hx => ?_, (ih stop).mono hlt.le⟩
      exact ((ih stop).2 x hx).1
    next => exact (ih (lo + 1)).mono (by omega)

theorem mem_finditer (hm : ∀ p e, m p = some e → p < e) {lo hi p e : ℕ}
    (hlo : lo ≤ p) (hhi : p < hi) (hp : m p = some e)
    (hclear : ∀ q e', q < p → m q = some e' → e' ≤ p) : (p, e) ∈ finditer m lo hi := by
  unfold finditer
  have hreach : p < lo + (hi - lo) := by omega
  revert hreach
  generalize hi - lo = fuel
  induction fuel generalizing lo with
  | zero => exact fun hreach => absurd hreach (by omega)
  | succ fuel ih =>
    intro hreach
    unfold finditerFrom
    split
    next stop hstop =>
      have hlt := hm lo stop hstop
      by_cases heq : lo = p
      · subst heq
        obtain rfl := Option.some.inj (hstop.symm.trans hp)
        exact mem_cons_self
      · exact mem_cons_of_mem _ (ih (hclear lo stop (by omega) hstop) (by omega))
    next hnone =>
      have hne : lo ≠ p := by
        rintro rfl
        rw [hnone] at hp
        cases hp
      exact ih (by omega) (by omega)

end

end OmniSense.Library
