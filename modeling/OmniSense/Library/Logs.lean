import Mathlib.Data.List.Basic
import Mathlib.Data.Set.Insert
import Mathlib.Order.Basic
import Mathlib.Order.Lattice

/-! Ordered logs: how far they are done with, and what a reader of them has been told. -/

namespace OmniSense.Library

open List Option Or

/-! Watermarks over an append-only log. An offset is settled when everything the log holds below
it is done; reading on contiguously from a settled offset keeps every later stop settled. -/

section

variable {ι : Type*} (offset : ι → ℕ) (log : Set ι)

def Settled (done : Set ι) (o : ℕ) : Prop := ∀ r ∈ log, offset r < o → r ∈ done

/-- `rs` is what the log holds from `start` up to some point, in order. -/
structure Stretch (start : ℕ) (rs : List ι) : Prop where
  mem : ∀ r ∈ rs, r ∈ log ∧ start ≤ offset r
  sorted : rs.Pairwise fun a b => offset a < offset b
  complete : ∀ r ∈ log, start ≤ offset r → (∃ last ∈ rs, offset r ≤ offset last) → r ∈ rs

variable {offset log}

theorem Settled.mono {done done' : Set ι} {o o' : ℕ} (h : Settled offset log done o)
    (hdone : done ⊆ done') (ho : o' ≤ o) : Settled offset log done' o' :=
  fun r hr hlt => hdone (h r hr (hlt.trans_le ho))

theorem Settled.advance {done : Set ι} {start o : ℕ} {pre rest : List ι}
    (h : Settled offset log done start) (hrun : Stretch offset log start (pre ++ rest))
    (hpre : ∀ r ∈ pre, r ∈ done) (hrest : ∀ r ∈ rest, o ≤ offset r)
    (hlast : o ≤ start ∨ ∃ r ∈ pre ++ rest, o ≤ offset r + 1) : Settled offset log done o := by
  intro r hr hlt
  by_cases hstart : offset r < start
  · exact h r hr hstart
  have hstart : start ≤ offset r := not_lt.mp hstart
  have hin : r ∈ pre ++ rest := by
    apply hrun.complete r hr hstart
    rcases hlast with hle | ⟨last, hmem, hle⟩
    · exact absurd (hlt.trans_le hle) (not_lt.mpr hstart)
    · exact ⟨last, hmem, Nat.lt_succ_iff.mp (hlt.trans_le hle)⟩
  rcases mem_append.mp hin with hin | hin
  · exact hpre r hin
  · exact absurd hlt (not_lt.mpr (hrest r hin))

theorem Stretch.head_le {start : ℕ} {pre rest : List ι} {r : ι}
    (h : Stretch offset log start (pre ++ r :: rest)) :
    ∀ r' ∈ r :: rest, offset r ≤ offset r' := by
  have hsorted := (pairwise_append.mp h.sorted).2.1
  intro r' hr'
  rcases mem_cons.mp hr' with rfl | hr'
  · exact le_rfl
  · exact ((pairwise_cons.mp hsorted).1 r' hr').le

theorem Settled.next {done : Set ι} {start : ℕ} (pre : List ι) {rest : List ι} {r : ι}
    (h : Settled offset log done start) (hrun : Stretch offset log start (pre ++ r :: rest))
    (hpre : ∀ a ∈ pre, a ∈ done) : Settled offset log done (offset r) :=
  h.advance hrun hpre hrun.head_le (.inr ⟨r, by simp, Nat.le_succ _⟩)

theorem Settled.after {done : Set ι} {start : ℕ} {pre rest : List ι} {r : ι}
    (h : Settled offset log done start) (hrun : Stretch offset log start (pre ++ r :: rest))
    (hpre : ∀ a ∈ pre, a ∈ done) (hr : r ∈ done) : Settled offset log done (offset r + 1) := by
  have hsorted := (pairwise_append.mp hrun.sorted).2.1
  have hrun' : Stretch offset log start ((pre ++ [r]) ++ rest) := by simpa using hrun
  refine h.advance hrun' ?_
    (fun r' hr' => (pairwise_cons.mp hsorted).1 r' hr') (.inr ⟨r, by simp, le_rfl⟩)
  intro a ha
  rcases mem_append.mp ha with ha | ha
  · exact hpre a ha
  · exact mem_singleton.mp ha ▸ hr

end

/-! What the reader of an ordered log has been told: entries it was shown and ranges it was told are
missing. An honest ledger shows entries in order, and none before the owed ones below it. -/

section

theorem split_of_concat {β : Type*} {marks earlier later : List β} {m entry : β}
    (h : marks ++ [m] = earlier ++ entry :: later) :
    (∃ rest, marks = earlier ++ entry :: rest) ∨ (marks = earlier ∧ m = entry) := by
  rcases eq_nil_or_concat later with hnil | ⟨rest, last, hlast⟩
  · rw [hnil] at h
    obtain ⟨hmarks, hm⟩ := append_inj' h rfl
    exact inr ⟨hmarks, singleton_inj.mp hm⟩
  · rw [hlast, concat_eq_append, ← cons_append, ← append_assoc] at h
    exact inl ⟨rest, (append_inj' h rfl).1⟩

variable {α : Type*} [LinearOrder α]

inductive Mark (α : Type*)
  | shown (entry : α)
  | missed (first last : α)

namespace Mark

def shown? : Mark α → Option α
  | shown entry => some entry
  | missed _ _ => none

def Covers : Mark α → α → Prop
  | shown entry, a => entry = a
  | missed first last, a => first ≤ a ∧ a ≤ last

end Mark

def Accounted (marks : List (Mark α)) (a : α) : Prop := ∃ m ∈ marks, m.Covers a

theorem Accounted.append_left {marks : List (Mark α)} {a : α} (h : Accounted marks a)
    (more : List (Mark α)) : Accounted (marks ++ more) a := by
  obtain ⟨m, hm, hcovers⟩ := h
  exact ⟨m, mem_append_left more hm, hcovers⟩

theorem accounted_append_singleton {marks : List (Mark α)} {m : Mark α} {a : α} :
    Accounted (marks ++ [m]) a ↔ Accounted marks a ∨ m.Covers a := by
  constructor
  · intro h
    obtain ⟨m', hm', hcovers⟩ := h
    rcases mem_append.mp hm' with hold | hnew
    · exact inl ⟨m', hold, hcovers⟩
    · rw [mem_singleton.mp hnew] at hcovers
      exact inr hcovers
  · intro h
    rcases h with hold | hnew
    · exact Accounted.append_left hold [m]
    · exact ⟨m, mem_append_right marks (mem_singleton_self m), hnew⟩

structure Honest (owed : α → Prop) (marks : List (Mark α)) : Prop where
  ascending : (marks.filterMap Mark.shown?).Pairwise (· < ·)
  accounted : ∀ earlier entry later, marks = earlier ++ Mark.shown entry :: later →
    ∀ a, owed a → a < entry → Accounted earlier a

namespace Honest

variable {owed more : α → Prop} {marks : List (Mark α)}

theorem nil (owed : α → Prop) : Honest owed ([] : List (Mark α)) := by
  constructor
  · exact List.Pairwise.nil
  · intro earlier entry later h
    exact absurd h.symm (append_ne_nil_of_right_ne_nil earlier (cons_ne_nil _ _))

theorem report (h : Honest owed marks) (first last : α) :
    Honest owed (marks ++ [Mark.missed first last]) := by
  constructor
  · have hnone : [Mark.missed first last].filterMap Mark.shown? = [] := rfl
    rw [filterMap_append, hnone, append_nil]
    exact h.ascending
  · intro earlier entry later hsplit
    rcases split_of_concat hsplit with ⟨rest, hrest⟩ | ⟨_, hentry⟩
    · exact h.accounted earlier entry rest hrest
    · exact absurd hentry (by simp)

theorem show_next (h : Honest owed marks) {entry : α}
    (hlast : ∀ a, Mark.shown a ∈ marks → a < entry)
    (hbelow : ∀ a, owed a → a < entry → Accounted marks a) :
    Honest owed (marks ++ [Mark.shown entry]) := by
  constructor
  · rw [filterMap_append, pairwise_append]
    refine ⟨h.ascending, by simp [Mark.shown?], fun a ha b hb => ?_⟩
    obtain ⟨m, hm, hma⟩ := mem_filterMap.mp ha
    have hb' : b = entry := by simpa [Mark.shown?] using hb
    cases m with
    | shown a' =>
      have ha' : a' = a := by simpa [Mark.shown?] using hma
      rw [hb', ← ha']
      exact hlast a' hm
    | missed first last => exact absurd hma (by simp [Mark.shown?])
  · intro earlier entry' later hsplit
    rcases split_of_concat hsplit with ⟨rest, hrest⟩ | ⟨hmarks, hentry⟩
    · exact h.accounted earlier entry' rest hrest
    · obtain rfl : entry = entry' := by simpa using hentry
      rw [← hmarks]
      exact hbelow

theorem grow (h : Honest owed marks)
    (hnew : ∀ a, more a → owed a ∨ ∀ entry, Mark.shown entry ∈ marks → entry ≤ a) :
    Honest more marks := by
  -- What becomes owed later is above everything shown so far.
  constructor
  · exact h.ascending
  · intro earlier entry later hsplit a ha hlt
    rcases hnew a ha with hold | habove
    · exact h.accounted earlier entry later hsplit a hold hlt
    · have hmem : Mark.shown entry ∈ marks := by
        rw [hsplit]
        exact mem_append_right _ mem_cons_self
      exact absurd (habove entry hmem) (not_le.mpr hlt)

end Honest

/-! ## A reader with a bounded queue -/

/-- Entries up to `position` have been dealt with. To come are a range not yet reported, the entries
taken out ahead of the queue, a range of drops and the queue, in this order. -/
structure Feed (α : Type*) where
  marks : List (Mark α)
  position : α
  unsaid : Option (α × α)
  ahead : List α
  drops : Option (α × α)
  queue : List α
  closed : Bool

namespace Feed

def coming (f : Feed α) : List α := f.ahead ++ f.queue

def Pending (f : Feed α) (a : α) : Prop :=
  (∃ d ∈ f.unsaid, d.1 ≤ a ∧ a ≤ d.2) ∨ (∃ d ∈ f.drops, d.1 ≤ a ∧ a ≤ d.2) ∨ a ∈ f.coming ∨
    (f.closed = true ∧ ∀ x ∈ f.coming, x < a)

structure Sound (owed : α → Prop) (top : α) (f : Feed α) : Prop where
  ascending : f.coming.Pairwise (· < ·)
  position_lt : ∀ x ∈ f.coming, f.position < x
  le_top : ∀ x ∈ f.coming, x ≤ top
  position_le : f.position ≤ top
  shown_le : ∀ a, Mark.shown a ∈ f.marks → a ≤ f.position
  ahead_lt_drops : ∀ d ∈ f.drops, ∀ x ∈ f.ahead, x < d.1
  drops_lt_queue : ∀ d ∈ f.drops, ∀ x ∈ f.queue, d.2 < x
  drops_le_top : ∀ d ∈ f.drops, d.2 ≤ top
  honest : Honest owed f.marks
  accounted : ∀ a, owed a → Accounted f.marks a ∨ f.Pending a

def widen (drops : Option (α × α)) (entry : α) : α × α :=
  match drops with
  | none => (entry, entry)
  | some d => (min d.1 entry, max d.2 entry)

theorem widen_covers (drops : Option (α × α)) (entry : α) :
    (widen drops entry).1 ≤ entry ∧ entry ≤ (widen drops entry).2 := by
  cases drops with
  | none => exact ⟨le_rfl, le_rfl⟩
  | some d => exact ⟨min_le_right d.1 entry, le_max_right d.2 entry⟩

variable {drops : Option (α × α)} {entry a : α}

theorem widen_covers_old {d : α × α} (hd : d ∈ drops)
    (h : d.1 ≤ a ∧ a ≤ d.2) : (widen drops entry).1 ≤ a ∧ a ≤ (widen drops entry).2 := by
  rw [mem_def.mp hd]
  exact ⟨(min_le_left d.1 entry).trans h.1, h.2.trans (le_max_left d.2 entry)⟩

theorem lt_widen (h : a < entry) (hdrops : ∀ d ∈ drops, a < d.1) : a < (widen drops entry).1 := by
  cases drops with
  | none => exact h
  | some d => exact lt_min (hdrops d rfl) h

theorem widen_lt (h : entry < a) (hdrops : ∀ d ∈ drops, d.2 < a) : (widen drops entry).2 < a := by
  cases drops with
  | none => exact h
  | some d => exact max_lt (hdrops d rfl) h

theorem widen_le (h : entry ≤ a) (hdrops : ∀ d ∈ drops, d.2 ≤ a) : (widen drops entry).2 ≤ a := by
  cases drops with
  | none => exact h
  | some d => exact max_le (hdrops d rfl) h

namespace Sound

variable {owed more : α → Prop} {top entry : α} {f : Feed α} {rest : List α}

theorem speak (h : f.Sound owed top) {d : α × α} (hunsaid : f.unsaid = some d) :
    { f with marks := f.marks ++ [Mark.missed d.1 d.2], unsaid := none }.Sound owed top := by
  -- The range before the first entry is reported.
  refine { h with shown_le := ?_, honest := h.honest.report d.1 d.2, accounted := ?_ }
  · intro a ha
    have hold : Mark.shown a ∈ f.marks := by simpa using ha
    exact h.shown_le a hold
  · intro a ha
    rw [accounted_append_singleton]
    rcases h.accounted a ha with hdone | ⟨d', hd', hrange⟩ | hlater
    · exact inl (inl hdone)
    · rw [hunsaid, mem_some_iff] at hd'
      rw [← hd'] at hrange
      exact inl (inr hrange)
    · exact inr (inr hlater)

theorem serve (h : f.Sound owed top) (hunsaid : f.unsaid = none) (hahead : f.ahead = entry :: rest)
    {m : Mark α} (hm : m = .shown entry ∨ m = .missed entry entry) :
    { f with marks := f.marks ++ [m], ahead := rest, position := entry }.Sound owed top := by
  -- The next entry is shown, or reported alone.
  have hcoming : f.coming = entry :: (rest ++ f.queue) := by
    unfold coming
    rw [hahead, cons_append]
  have hascending := h.ascending
  rw [hcoming, pairwise_cons] at hascending
  obtain ⟨hfirst, htail⟩ := hascending
  have hmem : entry ∈ f.coming := by
    rw [hcoming]
    exact mem_cons_self
  have hsub : ∀ x ∈ rest ++ f.queue, x ∈ f.coming := by
    intro x hx
    rw [hcoming]
    exact mem_cons_of_mem entry hx
  have hcovers : m.Covers entry := by
    rcases hm with hm | hm
    · rw [hm]
      exact rfl
    · rw [hm]
      exact ⟨le_rfl, le_rfl⟩
  -- what is pending below the next entry would be a drop or come before it in the queue
  have hpending : ∀ a, f.Pending a → entry ≤ a := by
    intro a ha
    rcases ha with ⟨d, hd, _⟩ | ⟨d, hd, hrange⟩ | hcome | ⟨_, habove⟩
    · rw [hunsaid] at hd
      exact absurd hd (not_mem_none d)
    · have hlt := h.ahead_lt_drops d hd entry (by rw [hahead]; exact mem_cons_self)
      exact le_of_lt (hlt.trans_le hrange.1)
    · rw [hcoming] at hcome
      rcases mem_cons.mp hcome with heq | hin
      · exact heq.ge
      · exact le_of_lt (hfirst a hin)
    · exact le_of_lt (habove entry hmem)
  have hbelow : ∀ a, owed a → a < entry → Accounted f.marks a := by
    intro a ha hlt
    rcases h.accounted a ha with hdone | hlater
    · exact hdone
    · exact absurd (hpending a hlater) (not_le.mpr hlt)
  constructor
  · exact htail
  · exact hfirst
  · intro x hx
    exact h.le_top x (hsub x hx)
  · exact h.le_top entry hmem
  · intro a ha
    rcases mem_append.mp ha with hold | hnew
    · exact (h.shown_le a hold).trans (le_of_lt (h.position_lt entry hmem))
    · rcases hm with hm | hm
      · rw [hm, mem_singleton, Mark.shown.injEq] at hnew
        exact hnew.le
      · rw [hm, mem_singleton] at hnew
        exact absurd hnew (by simp)
  · intro d hd x hx
    exact h.ahead_lt_drops d hd x (by rw [hahead]; exact mem_cons_of_mem entry hx)
  · exact h.drops_lt_queue
  · exact h.drops_le_top
  · rcases hm with hm | hm
    · rw [hm]
      refine h.honest.show_next (fun a ha => ?_) hbelow
      exact (h.shown_le a ha).trans_lt (h.position_lt entry hmem)
    · rw [hm]
      exact h.honest.report entry entry
  · intro a ha
    rw [accounted_append_singleton]
    rcases h.accounted a ha with hdone | hunsaid' | hdrop | hcome | ⟨hclosed, habove⟩
    · exact inl (inl hdone)
    · exact inr (inl hunsaid')
    · exact inr (inr (inl hdrop))
    · rw [hcoming] at hcome
      rcases mem_cons.mp hcome with heq | hin
      · rw [heq]
        exact inl (inr hcovers)
      · exact inr (inr (inr (inl hin)))
    · exact inr (inr (inr (inr ⟨hclosed, fun x hx => habove x (hsub x hx)⟩)))

theorem take (h : f.Sound owed top) (hahead : f.ahead = []) (hqueue : f.queue = entry :: rest)
    (hdrops : f.drops = none) : { f with ahead := [entry], queue := rest }.Sound owed top := by
  -- The head of the queue is taken out while nothing has been dropped.
  have hcoming : ({ f with ahead := [entry], queue := rest } : Feed α).coming = f.coming := by
    unfold coming
    rw [hahead, hqueue]
    rfl
  have hnone : ∀ d, d ∉ f.drops := by
    intro d
    rw [hdrops]
    exact not_mem_none d
  constructor
  · rw [hcoming]
    exact h.ascending
  · rw [hcoming]
    exact h.position_lt
  · rw [hcoming]
    exact h.le_top
  · exact h.position_le
  · exact h.shown_le
  · exact fun d hd => absurd hd (hnone d)
  · exact fun d hd => absurd hd (hnone d)
  · exact fun d hd => absurd hd (hnone d)
  · exact h.honest
  · intro a ha
    unfold Pending
    rw [hcoming]
    exact h.accounted a ha

theorem report (h : f.Sound owed top) (hahead : f.ahead = []) (hqueue : f.queue = entry :: rest)
    {d : α × α} (hdrops : f.drops = some d) :
    { f with marks := f.marks ++ [Mark.missed d.1 d.2], ahead := [entry], drops := none,
             queue := rest }.Sound owed top := by
  -- The head of the queue is taken out, and the drops before it are reported.
  have hspoken : { f with marks := f.marks ++ [Mark.missed d.1 d.2], drops := none }.Sound owed top := by
    refine { h with
      shown_le := ?_
      ahead_lt_drops := fun d hd => absurd hd (not_mem_none d)
      drops_lt_queue := fun d hd => absurd hd (not_mem_none d)
      drops_le_top := fun d hd => absurd hd (not_mem_none d)
      honest := h.honest.report d.1 d.2
      accounted := ?_ }
    · intro a ha
      have hold : Mark.shown a ∈ f.marks := by simpa using ha
      exact h.shown_le a hold
    · intro a ha
      rw [accounted_append_singleton]
      rcases h.accounted a ha with hdone | hunsaid | ⟨d', hd', hrange⟩ | hlater
      · exact inl (inl hdone)
      · exact inr (inl hunsaid)
      · rw [hdrops, mem_some_iff] at hd'
        rw [← hd'] at hrange
        exact inl (inr hrange)
      · exact inr (inr (inr hlater))
  exact hspoken.take hahead hqueue rfl

theorem evict (h : f.Sound owed top) (hqueue : f.queue = entry :: rest) :
    { f with drops := some (widen f.drops entry), queue := rest }.Sound owed top := by
  -- The head of the queue is dropped.
  have hsub : ∀ x ∈ f.ahead ++ rest, x ∈ f.coming := by
    intro x hx
    unfold coming
    rw [hqueue]
    rcases mem_append.mp hx with hahead | hrest
    · exact mem_append_left _ hahead
    · exact mem_append_right _ (mem_cons_of_mem entry hrest)
  have hmem : entry ∈ f.coming := by
    unfold coming
    rw [hqueue]
    exact mem_append_right _ mem_cons_self
  have hascending := h.ascending
  unfold coming at hascending
  rw [hqueue, pairwise_append, pairwise_cons] at hascending
  obtain ⟨hahead, ⟨hfirst, hrest⟩, hacross⟩ := hascending
  constructor
  · exact pairwise_append.mpr
      ⟨hahead, hrest, fun x hx y hy => hacross x hx y (mem_cons_of_mem entry hy)⟩
  · exact fun x hx => h.position_lt x (hsub x hx)
  · exact fun x hx => h.le_top x (hsub x hx)
  · exact h.position_le
  · exact h.shown_le
  · intro d hd x hx
    rw [← Option.some.inj hd]
    have hx' : x < entry := hacross x hx entry mem_cons_self
    exact lt_widen hx' fun d' hd' => h.ahead_lt_drops d' hd' x hx
  · intro d hd x hx
    rw [← Option.some.inj hd]
    exact widen_lt (hfirst x hx) fun d' hd' =>
      h.drops_lt_queue d' hd' x (hqueue ▸ mem_cons_of_mem entry hx)
  · intro d hd
    rw [← Option.some.inj hd]
    exact widen_le (h.le_top entry hmem) h.drops_le_top
  · exact h.honest
  · intro a ha
    rcases h.accounted a ha with hdone | hunsaid | ⟨d, hd, hrange⟩ | hcome | ⟨hclosed, habove⟩
    · exact inl hdone
    · exact inr (inl hunsaid)
    · exact inr (inr (inl ⟨_, rfl, widen_covers_old hd hrange⟩))
    · unfold coming at hcome
      rw [hqueue, mem_append, mem_cons] at hcome
      rcases hcome with hahead | heq | hrest
      · exact inr (inr (inr (inl (mem_append_left _ hahead))))
      · rw [heq]
        exact inr (inr (inl ⟨_, rfl, widen_covers f.drops entry⟩))
      · exact inr (inr (inr (inl (mem_append_right _ hrest))))
    · exact inr (inr (inr (inr ⟨hclosed, fun x hx => habove x (hsub x hx)⟩)))

theorem offer (h : f.Sound owed top) (hopen : f.closed = false) (htop : top < entry)
    (howed : ∀ a, more a → owed a ∨ a = entry) :
    { f with queue := f.queue ++ [entry] }.Sound more entry := by
  -- A new entry goes to the end of the queue.
  have hcoming : ({ f with queue := f.queue ++ [entry] } : Feed α).coming = f.coming ++ [entry] := by
    unfold coming
    rw [append_assoc]
  have hlt : ∀ x ∈ f.coming, x < entry := fun x hx => (h.le_top x hx).trans_lt htop
  have hposition : f.position < entry := h.position_le.trans_lt htop
  constructor
  · rw [hcoming, pairwise_append]
    refine ⟨h.ascending, pairwise_singleton _ _, fun x hx y hy => ?_⟩
    rw [mem_singleton.mp hy]
    exact hlt x hx
  · intro x hx
    rw [hcoming, mem_append, mem_singleton] at hx
    rcases hx with hold | hnew
    · exact h.position_lt x hold
    · exact hnew ▸ hposition
  · intro x hx
    rw [hcoming, mem_append, mem_singleton] at hx
    rcases hx with hold | hnew
    · exact le_of_lt (hlt x hold)
    · exact hnew.le
  · exact le_of_lt hposition
  · exact h.shown_le
  · exact h.ahead_lt_drops
  · intro d hd x hx
    rcases mem_append.mp hx with hold | hnew
    · exact h.drops_lt_queue d hd x hold
    · rw [mem_singleton.mp hnew]
      exact (h.drops_le_top d hd).trans_lt htop
  · exact fun d hd => (h.drops_le_top d hd).trans (le_of_lt htop)
  · refine h.honest.grow fun a ha => (howed a ha).imp_right fun heq shown hshown => ?_
    rw [heq]
    exact (h.shown_le shown hshown).trans (le_of_lt hposition)
  · intro a ha
    unfold Pending
    rw [hcoming]
    rcases howed a ha with hold | hnew
    · rcases h.accounted a hold with hdone | hunsaid | hdrop | hcome | ⟨hclosed, _⟩
      · exact inl hdone
      · exact inr (inl hunsaid)
      · exact inr (inr (inl hdrop))
      · exact inr (inr (inr (inl (mem_append_left _ hcome))))
      · exact absurd hclosed (hopen ▸ Bool.false_ne_true)
    · rw [hnew]
      exact inr (inr (inr (inl
        (mem_append_right _ (mem_singleton_self entry)))))

theorem pass (h : f.Sound owed top) (hclosed : f.closed = true) (htop : top < entry)
    (howed : ∀ a, more a → owed a ∨ a = entry) : f.Sound more entry := by
  -- A closed feed misses the new entry.
  have hlt : ∀ x ∈ f.coming, x < entry := fun x hx => (h.le_top x hx).trans_lt htop
  have hposition : f.position < entry := h.position_le.trans_lt htop
  refine { h with
    le_top := fun x hx => le_of_lt (hlt x hx)
    position_le := le_of_lt hposition
    drops_le_top := fun d hd => (h.drops_le_top d hd).trans (le_of_lt htop)
    honest := ?_
    accounted := ?_ }
  · refine h.honest.grow fun a ha => (howed a ha).imp_right fun heq shown hshown => ?_
    rw [heq]
    exact (h.shown_le shown hshown).trans (le_of_lt hposition)
  · intro a ha
    rcases howed a ha with hold | hnew
    · exact h.accounted a hold
    · rw [hnew]
      exact inr (inr (inr (inr ⟨hclosed, hlt⟩)))

theorem close (h : f.Sound owed top) : { f with closed := true }.Sound owed top := by
  refine { h with accounted := ?_ }
  intro a ha
  rcases h.accounted a ha with hdone | hunsaid | hdrop | hcome | ⟨_, habove⟩
  · exact inl hdone
  · exact inr (inl hunsaid)
  · exact inr (inr (inl hdrop))
  · exact inr (inr (inr (inl hcome)))
  · exact inr (inr (inr (inr ⟨rfl, habove⟩)))

end Sound

def ended (marks : List (Mark α)) (position : α) : Feed α :=
  ⟨marks, position, none, [], none, [], true⟩

theorem Sound.stop {owed : α → Prop} {top : α} {f : Feed α} (h : f.Sound owed top) :
    (ended f.marks f.position).Sound owed top where
  ascending := List.Pairwise.nil
  position_lt := fun _ hx => absurd hx not_mem_nil
  le_top := fun _ hx => absurd hx not_mem_nil
  position_le := h.position_le
  shown_le := h.shown_le
  ahead_lt_drops := fun d hd => absurd hd (not_mem_none d)
  drops_lt_queue := fun d hd => absurd hd (not_mem_none d)
  drops_le_top := fun d hd => absurd hd (not_mem_none d)
  honest := h.honest
  accounted := fun _ _ =>
    inr (inr (inr (inr ⟨rfl, fun _ hx => absurd hx not_mem_nil⟩)))

end Feed

end

end OmniSense.Library
