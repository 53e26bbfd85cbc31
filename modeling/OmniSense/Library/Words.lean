import Mathlib.Data.List.Basic
import Mathlib.Data.List.Infix
import Mathlib.Tactic.Common

/-! Texts made of words, of what separates them, and of lexemes. -/

namespace OmniSense.Library

open List

/-! Words in a text: texts that hold none of them, up to a folding of the symbols; the text that is
left when they are replaced; and reading a text in which they are marks. -/

section

variable {α : Type*} {words : List (List α)} {fold : α → α} {a b : α} {l l' r w rest : List α}

/-! ## Occurrences beside a symbol that they do not have -/

theorem prefix_append_cons (h : w <+: l ++ b :: l') (hb : b ∉ w) : w <+: l := by
  obtain ⟨s, hs⟩ := h
  rcases append_eq_append_iff.mp hs with ⟨x, hx, _⟩ | ⟨x, hx, hrest⟩
  · exact ⟨x, hx.symm⟩
  · cases x with
    | nil => exact ⟨[], by rw [hx, append_nil, append_nil]⟩
    | cons c x =>
      rw [cons_append, List.cons.injEq] at hrest
      obtain ⟨rfl, _⟩ := hrest
      exact absurd (hx ▸ mem_append_right _ mem_cons_self) hb

theorem infix_append_cons (h : w <:+: l ++ b :: l') (hb : b ∉ w) : w <:+: l ∨ w <:+: l' := by
  induction l with
  | nil =>
    rw [nil_append, infix_cons_iff] at h
    refine h.imp_left fun hpre => ?_
    have hnil : w <+: [] := prefix_append_cons (l := []) hpre hb
    exact hnil.isInfix
  | cons c l ih =>
    rw [cons_append, infix_cons_iff] at h
    rcases h with hpre | hin
    · have hw : w <+: c :: l := prefix_append_cons (l := c :: l) hpre hb
      exact .inl hw.isInfix
    · exact (ih hin).imp_left fun hw => hw.trans (suffix_cons c l).isInfix

/-! ## Free texts -/

def IsFree (words : List (List α)) (fold : α → α) (l : List α) : Prop :=
  ∀ w ∈ words, ¬w <:+: l.map fold

def IsApart (words : List (List α)) (fold : α → α) (b : α) : Prop := ∀ w ∈ words, fold b ∉ w

theorem IsFree.inside (h : IsFree words fold l) (hl : l' <:+: l) : IsFree words fold l' :=
  fun w hw hin => h w hw (hin.trans (hl.map fold))

theorem IsFree.append_cons (h : IsFree words fold l) (h' : IsFree words fold l')
    (hb : IsApart words fold b) : IsFree words fold (l ++ b :: l') := by
  intro w hw hin
  rw [map_append, map_cons] at hin
  exact (infix_append_cons hin (hb w hw)).elim (h w hw) (h' w hw)

theorem IsFree.nil (hwords : [] ∉ words) : IsFree words fold [] := by
  intro w hw hin
  rw [map_nil, infix_nil] at hin
  exact hwords (hin ▸ hw)

theorem IsFree.of_missing (hb : ∀ w ∈ words, b ∈ w) (h : b ∉ l.map fold) : IsFree words fold l :=
  fun w hw hin => h (hin.subset (hb w hw))

theorem IsFree.append (h : IsFree words fold l) (h' : IsFree words fold l')
    (hhead : ∀ b ∈ l'.head?, IsApart words fold b) : IsFree words fold (l ++ l') := by
  cases l' with
  | nil =>
    rw [append_nil]
    exact h
  | cons b l' => exact h.append_cons (h'.inside (suffix_cons b l').isInfix) (hhead b rfl)

structure IsSeparator (words : List (List α)) (fold : α → α) (r : List α) : Prop where
  free : IsFree words fold r
  ne_nil : r ≠ []
  head : ∀ b ∈ r.head?, IsApart words fold b
  last : ∀ b ∈ r.getLast?, IsApart words fold b

theorem IsSeparator.single (hwords : [] ∉ words) (hb : IsApart words fold b) :
    IsSeparator words fold [b] where
  free := .append_cons (l := []) (.nil hwords) (.nil hwords) hb
  ne_nil := cons_ne_nil b []
  head := fun _ h => Option.some.inj h ▸ hb
  last := fun _ h => Option.some.inj h ▸ hb

theorem IsSeparator.append (hr : IsSeparator words fold r) (h : IsFree words fold l) :
    IsFree words fold (r ++ l) := by
  have hsplit : r.dropLast ++ [r.getLast hr.ne_nil] = r := dropLast_append_getLast hr.ne_nil
  have hfront : r.dropLast <+: r := dropLast_prefix r
  have hbefore : IsFree words fold r.dropLast := hr.free.inside hfront.isInfix
  have hedge := hr.last (r.getLast hr.ne_nil) (List.getLast?_eq_getLast_of_ne_nil hr.ne_nil)
  have hjoined := hbefore.append_cons h hedge
  rw [append_cons, hsplit] at hjoined
  exact hjoined

theorem IsFree.intercalate (hwords : [] ∉ words) (hr : IsSeparator words fold r)
    {pieces : List (List α)} (h : ∀ piece ∈ pieces, IsFree words fold piece) :
    IsFree words fold (r.intercalate pieces) := by
  induction pieces with
  | nil => exact .nil hwords
  | cons piece pieces ih =>
    have hpiece : IsFree words fold piece := h piece mem_cons_self
    have hrest := ih fun p hp => h p (mem_cons_of_mem _ hp)
    cases pieces with
    | nil =>
      rw [intercalate_singleton]
      exact hpiece
    | cons p ps =>
      rw [intercalate_cons_cons, append_assoc]
      refine hpiece.append (hr.append hrest) fun b hb => hr.head b ?_
      rw [List.head?_append_of_ne_nil _ hr.ne_nil] at hb
      exact hb

theorem IsFree.map {g : α → α} (hg : ∀ c, g c = c ∨ IsApart words fold (g c))
    (h : IsFree words fold l) : IsFree words fold (l.map g) := by
  rintro w hw ⟨s, t, heq⟩
  refine h w hw ?_
  -- Where a word stands, nothing was exchanged.
  rw [map_map] at heq
  obtain ⟨l₁, l₂, rfl, h₁, h₂⟩ := map_eq_append_iff.mp heq.symm
  obtain ⟨l₃, l₄, rfl, h₃, h₄⟩ := map_eq_append_iff.mp h₁
  have hsame : l₄.map (fold ∘ g) = l₄.map fold := by
    refine map_congr_left fun c hc => ?_
    rcases hg c with hc' | hapart
    · exact congrArg fold hc'
    · refine absurd ?_ (hapart w hw)
      rw [← h₄]
      exact mem_map_of_mem (f := fold ∘ g) hc
  rw [map_append, map_append, ← hsame, h₄]
  exact ⟨_, _, rfl⟩

/-! ## Replacing words -/

variable [DecidableEq α]

def matchAt (words : List (List α)) (fold : α → α) (l : List α) : Option ℕ :=
  (words.find? fun w => w <+: l.map fold).map List.length

/-- Each occurrence is replaced, from the left; `k` symbols are still to be left out. -/
@[grind =] def replaceWords (words : List (List α)) (fold : α → α) (r : List α) : ℕ → List α → List α
  | _, [] => []
  | k + 1, _ :: l => replaceWords words fold r k l
  | 0, c :: l =>
    match matchAt words fold (c :: l) with
    | some n => r ++ replaceWords words fold r (n - 1) l
    | none => c :: replaceWords words fold r 0 l

theorem mem_replaceWords {k : ℕ} (h : a ∈ replaceWords words fold r k l) : a ∈ r ∨ a ∈ l := by
  fun_induction replaceWords words fold r k l with
  | case1 => exact .inr h
  | case2 k c l ih => exact (ih h).imp_right (mem_cons_of_mem c)
  | case3 c l n hmatch ih =>
    rcases mem_append.mp h with h | h
    · exact .inl h
    · exact (ih h).imp_right (mem_cons_of_mem c)
  | case4 c l hmatch ih =>
    rcases mem_cons.mp h with rfl | h
    · exact .inr mem_cons_self
    · exact (ih h).imp_right (mem_cons_of_mem c)

theorem matchAt_none (h : matchAt words fold l = none) (hw : w ∈ words) : ¬w <+: l.map fold := by
  have hfind : words.find? (fun w => w <+: l.map fold) = none := Option.map_eq_none_iff.mp h
  exact fun hpre => List.find?_eq_none.mp hfind w hw (decide_eq_true hpre)

theorem prefix_of_replaceWords (hhead : ∀ b ∈ r.head?, fold b ∉ w) (hr : r ≠ [])
    (h : w <+: (replaceWords words fold r 0 l).map fold) : w <+: l.map fold := by
  induction l generalizing w with
  | nil => exact h
  | cons c l ih =>
    rw [replaceWords] at h
    cases w with
    | nil => exact nil_prefix
    | cons x w =>
      split at h
      · cases r with
        | nil => exact absurd rfl hr
        | cons b r =>
          rw [cons_append, map_cons, cons_prefix_cons] at h
          exact absurd (h.1 ▸ mem_cons_self) (hhead b rfl)
      · rw [map_cons, cons_prefix_cons] at h
        rw [map_cons, cons_prefix_cons]
        exact ⟨h.1, ih (fun b hb hmem => hhead b hb (mem_cons_of_mem x hmem)) h.2⟩

/-- **Nothing is left** when the words are replaced by a separator. -/
theorem isFree_replaceWords (hwords : [] ∉ words) (hr : IsSeparator words fold r) (k : ℕ)
    (l : List α) : IsFree words fold (replaceWords words fold r k l) := by
  induction l generalizing k with
  | nil =>
    rw [replaceWords]
    exact .nil hwords
  | cons c l ih =>
    cases k with
    | succ k => exact ih k
    | zero =>
      rw [replaceWords]
      split
      next n _ => exact hr.append (ih (n - 1))
      next hnone =>
        intro w hw hin
        rw [map_cons, infix_cons_iff] at hin
        refine hin.elim (fun hpre => ?_) (ih 0 w hw)
        refine matchAt_none hnone hw ?_
        cases w with
        | nil => exact absurd hw hwords
        | cons x w =>
          rw [cons_prefix_cons] at hpre
          rw [map_cons, cons_prefix_cons]
          refine ⟨hpre.1, prefix_of_replaceWords (fun b hb hmem => ?_) hr.ne_nil hpre.2⟩
          exact hr.head b hb _ hw (mem_cons_of_mem x hmem)

theorem IsFree.replaceWords_eq (h : IsFree words fold l) : replaceWords words fold r 0 l = l := by
  induction l with
  | nil => rw [replaceWords]
  | cons c l ih =>
    have hnone : matchAt words fold (c :: l) = none :=
      Option.map_eq_none_iff.mpr (List.find?_eq_none.mpr fun w hw hpre =>
        h w hw (of_decide_eq_true hpre).isInfix)
    rw [replaceWords, hnone]
    exact congrArg (c :: ·) (ih (h.inside (suffix_cons c l).isInfix))

/-! ## Reading marks -/

/-- The symbols of a text and the marks in it; `k` symbols belong to the last mark. -/
@[grind =] def lexMarks (marks : List (List α)) : ℕ → List α → List (α ⊕ List α)
  | _, [] => []
  | k + 1, _ :: l => lexMarks marks k l
  | 0, c :: l =>
    match marks.find? fun m => m <+: c :: l with
    | some m => .inr m :: lexMarks marks (m.length - 1) l
    | none => .inl c :: lexMarks marks 0 l

variable {marks : List (List α)}

theorem lexMarks_drop (k : ℕ) (l : List α) : lexMarks marks k l = lexMarks marks 0 (l.drop k) := by
  induction l generalizing k with
  | nil =>
    rw [drop_nil]
    cases k <;> rfl
  | cons c l ih =>
    cases k with
    | zero => rfl
    | succ k => exact ih k

theorem lexMarks_mark (hne : w ≠ []) (h : marks.find? (fun m => m <+: w ++ rest) = some w) :
    lexMarks marks 0 (w ++ rest) = .inr w :: lexMarks marks 0 rest := by
  cases w with
  | nil => exact absurd rfl hne
  | cons c w =>
    rw [cons_append] at h ⊢
    rw [lexMarks, h]
    dsimp only
    rw [lexMarks_drop, length_cons, Nat.add_sub_cancel, drop_left]

theorem lexMarks_plain (h : ∀ q, q <:+ l → q ≠ [] → ∀ m ∈ marks, ¬m <+: q ++ rest) :
    lexMarks marks 0 (l ++ rest) = l.map .inl ++ lexMarks marks 0 rest := by
  induction l with
  | nil => rfl
  | cons c l ih =>
    have hnone : marks.find? (fun m => m <+: c :: (l ++ rest)) = none :=
      List.find?_eq_none.mpr fun m hm hpre =>
        h (c :: l) suffix_rfl (cons_ne_nil c l) m hm (of_decide_eq_true hpre)
    rw [cons_append, lexMarks, hnone]
    rw [ih fun q hq => h q (hq.trans (suffix_cons c l))]
    rfl

theorem lexMarks_text (hfree : ∀ m ∈ marks, ¬m <:+: l)
    (hlast : rest = [] ∨ ∃ b ∈ l.getLast?, ∀ m ∈ marks, b ∉ m) :
    lexMarks marks 0 (l ++ rest) = l.map .inl ++ lexMarks marks 0 rest := by
  refine lexMarks_plain fun q hq hne m hm hpre => hfree m hm ?_
  have hinside : m <+: q := by
    rcases hlast with rfl | ⟨b, hb, hapart⟩
    · rw [append_nil] at hpre
      exact hpre
    · -- The last symbol is in no mark, so a mark that starts here ends before it.
      have hbq : b ∈ q.getLast? := by
        obtain ⟨p, rfl⟩ := hq
        rw [List.getLast?_append_of_ne_nil p hne] at hb
        exact hb
      rw [← dropLast_append_getLast? b hbq, append_assoc] at hpre
      have hfront : q.dropLast <+: q := dropLast_prefix q
      exact List.IsPrefix.trans (prefix_append_cons hpre (hapart m hm)) hfront
  exact hinside.isInfix.trans hq.isInfix

theorem lexMarks_flatten (hmarks : [] ∉ marks) (k : ℕ) (l : List α) :
    (lexMarks marks k l).flatMap (Sum.elim (fun c => [c]) id) = l.drop k := by
  induction l generalizing k with
  | nil => rw [lexMarks, drop_nil, flatMap_nil]
  | cons c l ih =>
    cases k with
    | succ k => exact ih k
    | zero =>
      rw [lexMarks]
      split
      next m hfind =>
        have hstart := List.find?_some hfind
        have hpre : m <+: c :: l := of_decide_eq_true hstart
        rw [flatMap_cons, ih]
        cases m with
        | nil => exact absurd (mem_of_find?_eq_some hfind) hmarks
        | cons d m =>
          rw [cons_prefix_cons] at hpre
          obtain ⟨rfl, hrest⟩ := hpre
          exact congrArg (d :: ·) (prefix_iff_eq_append.mp hrest)
      next => exact congrArg (c :: ·) (ih 0)

end

/-! A separator that is written as a doubled symbol: what comes back when it is read again, and
where a text can be split at it. -/

section

variable {α : Type*} {a b c d : α} {l l' s s' t t' : List α}

/-! ## Splitting at a separator -/

theorem split_double (hs : s.getLast? ≠ some d) (hs' : s'.getLast? ≠ some d)
    (h : s ++ d :: d :: t = s' ++ d :: d :: t') :
    (s = s' ∧ t = t') ∨ (∃ u, s' = s ++ d :: d :: u ∧ t = u ++ d :: d :: t') ∨
      ∃ u, s = s' ++ d :: d :: u ∧ t' = u ++ d :: d :: t := by
  have key : ∀ {s s' t t' x : List α}, s'.getLast? ≠ some d → s' = s ++ x →
      d :: d :: t = x ++ d :: d :: t' →
      (s = s' ∧ t = t') ∨ ∃ u, s' = s ++ d :: d :: u ∧ t = u ++ d :: d :: t' := by
    intro s s' t t' x hlast hx heq
    cases x with
    | nil =>
      rw [nil_append, List.cons.injEq, List.cons.injEq] at heq
      exact .inl ⟨(hx.trans (append_nil s)).symm, heq.2.2⟩
    | cons y x =>
      rw [cons_append, List.cons.injEq] at heq
      obtain ⟨rfl, heq⟩ := heq
      cases x with
      | nil =>
        subst hx
        exact absurd List.getLast?_concat hlast
      | cons z u =>
        rw [cons_append, List.cons.injEq] at heq
        obtain ⟨rfl, heq⟩ := heq
        exact .inr ⟨u, hx, heq⟩
  rcases append_eq_append_iff.mp h with ⟨x, hx, heq⟩ | ⟨x, hx, heq⟩
  · rcases key hs' hx heq with hsame | hsplit
    · exact .inl hsame
    · exact .inr (.inl hsplit)
  · rcases key hs hx heq with hsame | hsplit
    · exact .inl ⟨hsame.1.symm, hsame.2.symm⟩
    · exact .inr (.inr hsplit)

/-! ## Reading a separator back -/

theorem prefix_pair_iff : [a, b] <+: c :: l ↔ a = c ∧ l.head? = some b := by
  cases l with
  | nil => simp
  | cons e l => simp [cons_prefix_cons, eq_comm]

theorem pair_infix_append_iff :
    [a, b] <:+: l ++ l' ↔ [a, b] <:+: l ∨ [a, b] <:+: l' ∨ l.getLast? = some a ∧ l'.head? = some b := by
  induction l with
  | nil => simp
  | cons c l ih =>
    rw [cons_append, infix_cons_iff, infix_cons_iff, ih, prefix_pair_iff,
      prefix_pair_iff]
    cases l with
    | nil =>
      rw [nil_append, List.head?_nil, List.getLast?_singleton, Option.some.injEq, eq_comm]
      tauto
    | cons e l =>
      rw [List.getLast?_cons_cons, cons_append]
      tauto

variable [DecidableEq α]

/-- Each `c` is replaced by two `d`. -/
def expand (c d : α) (l : List α) : List α := l.flatMap fun a => if a = c then [d, d] else [a]

/-- Two `d` are replaced by a `c`, from the left. -/
def contract (c d : α) : List α → List α
  | a :: b :: l => if a = d ∧ b = d then c :: contract c d l else a :: contract c d (b :: l)
  | [a] => [a]
  | [] => []

theorem expand_cons : expand c d (a :: l) = (if a = c then [d, d] else [a]) ++ expand c d l :=
  flatMap_cons

theorem expand_append : expand c d (l ++ l') = expand c d l ++ expand c d l' := flatMap_append

theorem expand_of_notMem (h : c ∉ l) : expand c d l = l := by
  induction l with
  | nil => rfl
  | cons a l ih =>
    rw [mem_cons, not_or] at h
    rw [expand_cons, if_neg (Ne.symm h.1), ih h.2]
    rfl

theorem notMem_expand (hcd : c ≠ d) : c ∉ expand c d l := by
  intro h
  obtain ⟨a, _, hc⟩ := mem_flatMap.mp h
  split_ifs at hc with ha
  · simp [hcd] at hc
  · exact ha (mem_singleton.mp hc).symm

theorem contract_double (c d : α) (l : List α) : contract c d (d :: d :: l) = c :: contract c d l :=
  if_pos ⟨rfl, rfl⟩

theorem contract_cons (h : a = d → l.head? ≠ some d) :
    contract c d (a :: l) = a :: contract c d l := by
  cases l with
  | nil => rfl
  | cons b l => exact if_neg fun hab => h hab.1 (congrArg some hab.2)

theorem head?_contract (h : l.head? ≠ some d) : (contract c d l).head? = l.head? := by
  cases l with
  | nil => rfl
  | cons a l =>
    rw [contract_cons fun ha => absurd (congrArg some ha) h]
    rfl

theorem head?_expand (h : l.head? ≠ some c) : (expand c d l).head? = l.head? := by
  cases l with
  | nil => rfl
  | cons a l =>
    rw [expand_cons, if_neg fun ha => h (congrArg some ha)]
    rfl

theorem contract_expand (hdouble : ¬[d, d] <:+: l) (hedge : ¬[d, c] <:+: l) :
    contract c d (expand c d l) = l := by
  induction l with
  | nil => rfl
  | cons a l ih =>
    rw [infix_cons_iff, not_or, prefix_pair_iff] at hdouble hedge
    have hrest : contract c d (expand c d l) = l := ih hdouble.2 hedge.2
    rw [expand_cons]
    by_cases ha : a = c
    · rw [if_pos ha, cons_append, singleton_append, contract_double, hrest, ha]
    · rw [if_neg ha, singleton_append, contract_cons, hrest]
      rintro rfl hhead
      have hc : l.head? ≠ some c := fun hc => hedge.1 ⟨rfl, hc⟩
      rw [head?_expand hc] at hhead
      exact hdouble.1 ⟨rfl, hhead⟩

theorem not_double_contract (hcd : c ≠ d) : ¬[d, d] <:+: contract c d l := by
  induction l using contract.induct d with
  | case1 a b l hab ih =>
    obtain ⟨rfl, rfl⟩ := hab
    rw [contract_double, infix_cons_iff, prefix_pair_iff, not_or]
    exact ⟨fun h => hcd h.1.symm, ih⟩
  | case2 a b l hab ih =>
    have hnext : a = d → (b :: l).head? ≠ some d := fun ha hb => hab ⟨ha, Option.some.inj hb⟩
    rw [contract_cons hnext, infix_cons_iff, prefix_pair_iff, not_or]
    refine ⟨fun h => hab ⟨h.1.symm, ?_⟩, ih⟩
    by_contra hb
    have hhead : (b :: l).head? ≠ some d := fun hd => hb (Option.some.inj hd)
    rw [head?_contract hhead] at h
    exact hhead h.2
  | case3 a =>
    rw [contract, infix_cons_iff, prefix_pair_iff]
    simp
  | case4 =>
    rw [contract]
    simp

theorem not_double_of_contract_expand (hcd : c ≠ d) (h : contract c d (expand c d l) = l) :
    ¬[d, d] <:+: l := by
  rw [← h]
  exact not_double_contract hcd

end

/-! Texts spelled by a sequence of lexemes, each of them one before the text that follows it, and a
reader that takes them off one by one: whatever is spelled is spelled in one way. -/

section

section

variable {τ α : Type*} (text : τ → List α) (ok : τ → List α → Prop)

def spell (ts : List τ) : List α := ts.flatMap text

def Lexed : List τ → List α → Prop
  | [], _ => True
  | t :: ts, rest => ok t (spell text ts ++ rest) ∧ Lexed ts rest

structure Reader (next : List α → Option (τ × List α)) : Prop where
  spelled : ∀ t, text t ≠ []
  complete : ∀ t rest, ok t rest → next (text t ++ rest) = some (t, rest)
  sound : ∀ input t rest, next input = some (t, rest) → input = text t ++ rest ∧ ok t rest

variable {text ok} {next : List α → Option (τ × List α)} {ts ts' : List τ} {rest rest' : List α}

theorem spell_cons (t : τ) (ts : List τ) : spell text (t :: ts) = text t ++ spell text ts :=
  flatMap_cons

theorem spell_append (ts ts' : List τ) : spell text (ts ++ ts') = spell text ts ++ spell text ts' :=
  flatMap_append

theorem lexed_append : Lexed text ok (ts ++ ts') rest ↔
    Lexed text ok ts (spell text ts' ++ rest) ∧ Lexed text ok ts' rest := by
  induction ts with
  | nil => exact (and_iff_right trivial).symm
  | cons t ts ih =>
    change ok t (spell text (ts ++ ts') ++ rest) ∧ Lexed text ok (ts ++ ts') rest ↔
      (ok t (spell text ts ++ (spell text ts' ++ rest)) ∧ _) ∧ _
    rw [ih, spell_append, append_assoc, and_assoc]

theorem Lexed.mem (h : Lexed text ok ts rest) : ∀ t ∈ ts, ∃ behind, ok t behind := by
  induction ts with
  | nil => exact fun t ht => absurd ht not_mem_nil
  | cons t ts ih => exact forall_mem_cons.mpr ⟨⟨_, h.1⟩, ih h.2⟩

theorem Lexed.inside (h : Lexed text ok ts rest) (hinside : ts' <:+: ts) :
    ∃ behind, Lexed text ok ts' behind := by
  obtain ⟨before, after, rfl⟩ := hinside
  exact ⟨_, (lexed_append.mp (lexed_append.mp h).1).2⟩

theorem Reader.unique (h : Reader text ok next) (hts : Lexed text ok ts rest)
    (hts' : Lexed text ok ts' rest') (hrest : next rest = none) (hrest' : next rest' = none)
    (heq : spell text ts ++ rest = spell text ts' ++ rest') : ts = ts' ∧ rest = rest' := by
  have hread : ∀ (t : τ) (ts : List τ) (rest : List α), Lexed text ok (t :: ts) rest →
      next (spell text (t :: ts) ++ rest) = some (t, spell text ts ++ rest) := by
    intro t ts rest hts
    rw [spell_cons, append_assoc]
    exact h.complete t _ hts.1
  induction ts generalizing ts' with
  | nil =>
    cases ts' with
    | nil => exact ⟨rfl, heq⟩
    | cons t' ts' =>
      have hnext := hread t' ts' rest' hts'
      rw [← heq] at hnext
      cases hrest.symm.trans hnext
  | cons t ts ih =>
    cases ts' with
    | nil =>
      have hnext := hread t ts rest hts
      rw [heq] at hnext
      cases hrest'.symm.trans hnext
    | cons t' ts' =>
      have hnext := hread t ts rest hts
      rw [heq, hread t' ts' rest' hts'] at hnext
      obtain ⟨rfl, hsame⟩ := Prod.mk.inj (Option.some.inj hnext)
      obtain ⟨rfl, hrests⟩ := ih hts.2 hts'.2 hsame.symm
      exact ⟨rfl, hrests⟩

theorem Reader.read (h : Reader text ok next) (input : List α) : ∃ ts rest,
    input = spell text ts ++ rest ∧ Lexed text ok ts rest ∧ next rest = none := by
  induction hn : input.length using Nat.strongRecOn generalizing input with
  | _ n ih =>
    cases hnext : next input with
    | none => exact ⟨[], input, rfl, trivial, hnext⟩
    | some entry =>
      obtain ⟨t, behind⟩ := entry
      obtain ⟨rfl, hok⟩ := h.sound input t behind hnext
      have hpos := length_pos_of_ne_nil (h.spelled t)
      rw [length_append] at hn
      obtain ⟨ts, rest, rfl, hts, hrest⟩ := ih behind.length (by omega) behind rfl
      refine ⟨t :: ts, rest, ?_, ⟨hok, hts⟩, hrest⟩
      rw [spell_cons, append_assoc]

theorem Reader.at_end (h : Reader text ok next) : next [] = none := by
  cases hnext : next [] with
  | none => rfl
  | some entry =>
    obtain ⟨hnil, -⟩ := h.sound [] entry.1 entry.2 hnext
    exact absurd (append_eq_nil_iff.mp hnil.symm).1 (h.spelled _)

end

end

end OmniSense.Library
