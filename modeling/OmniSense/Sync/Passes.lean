import Mathlib.Data.List.TakeWhile
import OmniSense.Sync.Artifacts

/-! One pass over a listing, whatever its items are: what it has read once it is over. -/

namespace OmniSense.Sync

open Library Listing List Option

variable {α κ : Type} [DecidableEq κ] {key : α → κ} {stamp clock : α → ℤ} {bound : ℕ} {l : List α}
  {walk : Walk α} {stops : α → Bool}

/-! ## Stopping at the watermark -/

theorem split_stops (hmono : l.Pairwise fun a b => stops a = true → stops b = true) :
    ∃ fresh old, l = fresh ++ old ∧ (∀ x ∈ fresh, stops x = false) ∧ ∀ x ∈ old, stops x = true := by
  induction l with
  | nil => exact ⟨[], [], rfl, fun _ h => absurd h not_mem_nil,
      fun _ h => absurd h not_mem_nil⟩
  | cons a l ih =>
    obtain ⟨ha, hl⟩ := pairwise_cons.mp hmono
    cases hstop : stops a with
    | true =>
      refine ⟨[], a :: l, rfl, fun _ h => absurd h not_mem_nil, fun x hx => ?_⟩
      rcases mem_cons.mp hx with rfl | hx
      · exact hstop
      · exact ha x hx hstop
    | false =>
      obtain ⟨fresh, old, rfl, hfresh, hold⟩ := ih hl
      refine ⟨a :: fresh, old, rfl, fun x hx => ?_, hold⟩
      rcases mem_cons.mp hx with rfl | hx
      · exact hstop
      · exact hfresh x hx

theorem takeWhile_page (hmono : l.Pairwise fun a b => stops a = true → stops b = true) (o n : ℕ) :
    ((l.drop o).take n).takeWhile (fun x => !stops x) =
      ((l.filter fun x => !stops x).drop o).take n := by
  obtain ⟨fresh, old, rfl, hfresh, hold⟩ := split_stops hmono
  have hfilter : (fresh ++ old).filter (fun x => !stops x) = fresh := by
    have hnone : old.filter (fun x => !stops x) = [] := by
      rw [filter_eq_nil_iff]
      exact fun x hx => by simp [hold x hx]
    rw [filter_append, hnone, append_nil, filter_eq_self]
    exact fun x hx => by simp [hfresh x hx]
  have hkeeps : ∀ x ∈ (fresh.drop o).take n, (!stops x) = true := by
    intro x hx
    rw [hfresh x (mem_of_mem_drop (mem_of_mem_take hx))]
    rfl
  have hends : ∀ old' : List α, (∀ x ∈ old', stops x = true) →
      old'.takeWhile (fun x => !stops x) = [] := by
    intro old' hold'
    cases old' with
    | nil => rfl
    | cons x xs =>
      rw [takeWhile_cons_of_neg]
      simp [hold' x mem_cons_self]
  rw [hfilter, drop_append, take_append, takeWhile_append_of_pos hkeeps, hends,
    append_nil]
  exact fun x hx => hold x (mem_of_mem_drop (mem_of_mem_take hx))

theorem isOld_mono {pulls : List Pull} (since : ℤ)
    (h : pulls.Pairwise fun a b => b.updated ≤ a.updated) :
    pulls.Pairwise fun a b => isOld since a = true → isOld since b = true := by
  refine h.imp fun hab ha => ?_
  exact decide_eq_true (hab.trans (of_decide_eq_true ha))

/-! ## Passes -/

variable (key stamp clock bound l) in
/-- Until it is over, a pass will still get to what it has passed by; once it is over, it has read
whatever is older than the newest it has read, unless it counts as incomplete. -/
structure PassOk (walk : Walk α) : Prop where
  covers : walk.returned = false → Covers key stamp clock l walk.items walk.offset
  done : walk.returned = true → bound ≤ walk.items.length ∨
    ∀ x ∈ l, ∀ y ∈ walk.items, stamp x < clock y → Last key walk.items x

theorem PassOk.start (pages : ℕ) : PassOk key stamp clock bound l (Walk.start pages) :=
  ⟨fun _ => covers_nil, fun _ => .inr fun _ _ _ hy => absurd hy not_mem_nil⟩

def NotCut (bound : ℕ) (l : List α) (walk : Walk α) (size : ℕ) : Prop :=
  walk.pages ≤ 1 → l.length ≤ walk.offset + size ∨
    bound ≤ (walk.items ++ (l.drop walk.offset).take size).length

theorem PassOk.read {listing : List α}
    (hmono : listing.Pairwise fun a b => stops a = true → stops b = true)
    (hsorted : listing.Pairwise fun a b => stamp b ≤ stamp a) (hnodup : (listing.map key).Nodup)
    (hl : l = listing.filter fun x => !stops x) (h : PassOk key stamp clock bound l walk)
    (hopen : walk.returned = false) (size : ℕ) (hcut : NotCut bound l walk size)
    (hclock : ∀ y ∈ (l.drop walk.offset).take size,
      walk.offset = 0 ∨ clock y ≤ stamp y ∨ ∃ z ∈ walk.items, clock y ≤ clock z) :
    PassOk key stamp clock bound l (walk.read listing size stops) := by
  have hpage := takeWhile_page hmono walk.offset size
  rw [← hl] at hpage
  have hread := Covers.read (hsorted.sublist (hl ▸ filter_sublist))
    (hnodup.sublist (hl ▸ filter_sublist.map key)) (h.covers hopen) size hclock
  unfold Walk.read
  dsimp only
  rw [hpage]
  refine ⟨fun _ => hread, fun hover => ?_⟩
  have hend : l.length ≤ walk.offset + size ∨
      bound ≤ (walk.items ++ (l.drop walk.offset).take size).length := by
    have hlength : l.length ≤ listing.length := hl ▸ length_filter_le _ _
    simp only [Bool.or_eq_true, decide_eq_true_eq, length_take, length_drop] at hover
    rcases hover with (hshort | hlast) | hpages
    · left
      omega
    · exact .inl (hlength.trans hlast)
    · exact hcut hpages
  exact hend.symm.imp_right hread.done

theorem PassOk.change {l' : List α} (h : PassOk key stamp clock bound l walk)
    (hchange : ∀ x' ∈ l', (∀ y ∈ walk.items, clock y ≤ stamp x') ∨
      ∃ x ∈ l, stamp x = stamp x' ∧ (Last key walk.items x → Last key walk.items x') ∧
        ∀ n, x ∈ l.drop n → x' ∈ l'.drop n) : PassOk key stamp clock bound l' walk := by
  refine ⟨fun hopen => (h.covers hopen).change fun x' hx' => ?_, fun hover => ?_⟩
  · refine (hchange x' hx').imp_right ?_
    rintro ⟨x, hx, hstamp, hlast, hdrop⟩
    exact ⟨x, hx, hstamp, hlast, hdrop _⟩
  · refine (h.done hover).imp_right fun hdone x' hx' y hy hlt => ?_
    rcases hchange x' hx' with hnew | ⟨x, hx, hstamp, hlast, _⟩
    · exact absurd hlt (not_lt.mpr (hnew y hy))
    · exact hlast (hdone x hx y hy (hstamp ▸ hlt))

theorem PassOk.final (h : PassOk key stamp clock bound l walk) (hover : walk.returned = true)
    (hcomplete : walk.items.length < bound) {newest : ℤ}
    (hnewest : (walk.items.map clock).max? = some newest) :
    ∀ x ∈ l, stamp x < newest → Last key walk.items x := by
  obtain ⟨y, hy, rfl⟩ := mem_map.mp (List.max?_mem hnewest)
  rcases h.done hover with hbound | hdone
  · exact absurd hcomplete (not_lt.mpr hbound)
  · exact fun x hx hlt => hdone x hx y hy hlt

/-! ## What is stored -/

variable (key) in
def Kept (all items : List α) (store : κ → Option α) (P : α → Prop) : Prop :=
  ∀ x ∈ all, P x → store (key x) = some x ∧ Sole key items x

section

variable {all items : List α} {store : κ → Option α} {P Q : α → Prop}

omit [DecidableEq κ] in
theorem Kept.change {all' : List α} (h : Kept key all items store P)
    (hchange : ∀ x ∈ all', x ∈ all ∨ ¬P x) : Kept key all' items store P := by
  intro x hx hP
  rcases hchange x hx with hold | hnot
  · exact h x hold hP
  · exact absurd hP hnot

omit [DecidableEq κ] in
theorem Kept.append {page : List α} (hnodup : (all.map key).Nodup) (h : Kept key all items store P)
    (hpage : ∀ y ∈ page, y ∈ all) : Kept key all (items ++ page) store P :=
  fun x hx hP => ⟨(h x hx hP).1, (h x hx hP).2.append (sole_of_nodup hnodup hx hpage)⟩

theorem Kept.save (h : Kept key all items store P) : Kept key all [] (save key items store) P :=
  fun x hx hP => ⟨save_sole (h x hx hP).1 (h x hx hP).2, sole_nil x⟩

omit [DecidableEq κ] in
theorem Kept.drop (h : Kept key all items store P) : Kept key all [] store P :=
  fun x hx hP => ⟨(h x hx hP).1, sole_nil x⟩

end

/-! ## One stream of the sync -/

structure Pass (α : Type) where
  since : ℤ
  walk : Walk α
  bound : ℕ

/-- What the repository and the store hold of a stream, its watermark, the one that the run in
progress has loaded, and the pass in progress. -/
structure View (α κ : Type) where
  all : List α
  store : κ → Option α
  mark : Option ℤ
  loaded : Option ℤ
  pass : Option (Pass α)

def View.items (v : View α κ) : List α := (v.pass.map fun pass => pass.walk.items).getD []

variable {gate : ℤ → α → Bool} {below : ℤ → α → Prop} {v : View α κ} {pass : Pass α}

variable (key stamp clock gate below) in
structure ViewOk (v : View α κ) : Prop where
  sorted : v.all.Pairwise fun a b => stamp b ≤ stamp a
  nodup : (v.all.map key).Nodup
  mark : ∀ t ∈ v.mark, Kept key v.all v.items v.store (below t)
  loaded : ∀ t ∈ v.loaded, Kept key v.all v.items v.store (below t)
  kept : ∀ pass ∈ v.pass, Kept key v.all v.items v.store fun x => gate pass.since x = false
  pass : ∀ pass ∈ v.pass,
    PassOk key stamp clock pass.bound (v.all.filter (gate pass.since)) pass.walk

namespace ViewOk

theorem change {all' : List α} (h : ViewOk key stamp clock gate below v)
    (hsorted : all'.Pairwise fun a b => stamp b ≤ stamp a) (hnodup : (all'.map key).Nodup)
    (hnew : ∀ x ∈ all', x ∈ v.all ∨ (∀ t, t ∈ v.mark ∨ t ∈ v.loaded → ¬below t x) ∧
      ∀ pass ∈ v.pass, gate pass.since x = true)
    (hpass : ∀ pass ∈ v.pass, ∀ x' ∈ all'.filter (gate pass.since),
      (∀ y ∈ pass.walk.items, clock y ≤ stamp x') ∨
        ∃ x ∈ v.all.filter (gate pass.since), stamp x = stamp x' ∧
          (Last key pass.walk.items x → Last key pass.walk.items x') ∧
          ∀ n, x ∈ (v.all.filter (gate pass.since)).drop n →
            x' ∈ (all'.filter (gate pass.since)).drop n) :
    ViewOk key stamp clock gate below { v with all := all' } where
  sorted := hsorted
  nodup := hnodup
  mark := fun t ht => (h.mark t ht).change fun x hx =>
    (hnew x hx).imp_right fun hnew => hnew.1 t (.inl ht)
  loaded := fun t ht => (h.loaded t ht).change fun x hx =>
    (hnew x hx).imp_right fun hnew => hnew.1 t (.inr ht)
  kept := fun pass hmem => (h.kept pass hmem).change fun x hx =>
    (hnew x hx).imp_right fun hnew => by simp [hnew.2 pass hmem]
  pass := fun pass hmem => (h.pass pass hmem).change (hpass pass hmem)

theorem idle (h : ViewOk key stamp clock gate below v) :
    ViewOk key stamp clock gate below { v with pass := none } where
  sorted := h.sorted
  nodup := h.nodup
  mark := fun t ht => (h.mark t ht).drop
  loaded := fun t ht => (h.loaded t ht).drop
  kept := fun _ hmem => absurd hmem (not_mem_none _)
  pass := fun _ hmem => absurd hmem (not_mem_none _)

theorem load (h : ViewOk key stamp clock gate below v) :
    ViewOk key stamp clock gate below { v with loaded := v.mark } :=
  { h with loaded := h.mark }

theorem unload (h : ViewOk key stamp clock gate below v) :
    ViewOk key stamp clock gate below { v with loaded := none, pass := none } :=
  { h.idle with loaded := fun _ ht => absurd ht (not_mem_none _) }

theorem start (h : ViewOk key stamp clock gate below v) (hidle : v.pass = none) (since : ℤ)
    (pages bound : ℕ) (hsince : ∀ x ∈ v.all, gate since x = false → ∃ t ∈ v.loaded, below t x) :
    ViewOk key stamp clock gate below
      { v with pass := some ⟨since, Walk.start pages, bound⟩ } := by
  have hitems : View.items { v with pass := some ⟨since, Walk.start pages, bound⟩ } = v.items := by
    unfold View.items
    rw [hidle]
    rfl
  constructor
  · exact h.sorted
  · exact h.nodup
  · rw [hitems]
    exact h.mark
  · rw [hitems]
    exact h.loaded
  · rw [hitems]
    rintro pass ⟨⟩ x hx hgate
    obtain ⟨t, ht, hbelow⟩ := hsince x hx hgate
    exact h.loaded t ht x hx hbelow
  · rintro pass ⟨⟩
    exact PassOk.start pages

theorem read (h : ViewOk key stamp clock gate below v) (hmem : v.pass = some pass)
    (hopen : pass.walk.returned = false) (listing : List α) (size : ℕ) (stops : α → Bool)
    (hlisting : v.all.filter (gate pass.since) = listing.filter fun x => !stops x)
    (hsub : listing.Sublist v.all)
    (hmono : listing.Pairwise fun a b => stops a = true → stops b = true)
    (hcut : NotCut pass.bound (v.all.filter (gate pass.since)) pass.walk size)
    (hclock : ∀ y ∈ ((v.all.filter (gate pass.since)).drop pass.walk.offset).take size,
      pass.walk.offset = 0 ∨ clock y ≤ stamp y ∨ ∃ z ∈ pass.walk.items, clock y ≤ clock z) :
    ViewOk key stamp clock gate below
      { v with pass := some { pass with walk := pass.walk.read listing size stops } } := by
  have hok := (h.pass pass hmem).read hmono (h.sorted.sublist hsub) (h.nodup.sublist (hsub.map key))
    hlisting hopen size hcut hclock
  have hwalk : (pass.walk.read listing size stops).items = pass.walk.items ++
      ((v.all.filter (gate pass.since)).drop pass.walk.offset).take size := by
    rw [hlisting, ← takeWhile_page hmono]
    rfl
  have hitems : v.items = pass.walk.items := by
    unfold View.items
    rw [hmem]
    rfl
  have hpage : ∀ y ∈ ((v.all.filter (gate pass.since)).drop pass.walk.offset).take size,
      y ∈ v.all :=
    fun y hy => mem_of_mem_filter (mem_of_mem_drop (mem_of_mem_take hy))
  have hkept : ∀ {P : α → Prop}, Kept key v.all v.items v.store P →
      Kept key v.all (pass.walk.read listing size stops).items v.store P := by
    intro P hP
    rw [hwalk]
    exact (hitems ▸ hP).append h.nodup hpage
  constructor
  · exact h.sorted
  · exact h.nodup
  · exact fun t ht => hkept (h.mark t ht)
  · exact fun t ht => hkept (h.loaded t ht)
  · rintro pass' ⟨⟩
    exact hkept (h.kept pass hmem)
  · rintro pass' ⟨⟩
    exact hok

theorem settle (h : ViewOk key stamp clock gate below v) (hmem : v.pass = some pass)
    (hover : pass.walk.returned = true) (hbelow : ∀ t x, below (t - 1) x → stamp x < t)
    {mark : Option ℤ} (hmark : mark = v.mark ∨ ∃ newest, mark = some (newest - 1) ∧
      pass.walk.items.length < pass.bound ∧ (pass.walk.items.map clock).max? = some newest) :
    ViewOk key stamp clock gate below
      { v with store := save key pass.walk.items v.store, mark := mark, pass := none } := by
  have hitems : v.items = pass.walk.items := by
    unfold View.items
    rw [hmem]
    rfl
  have hsaved : ∀ {P : α → Prop}, Kept key v.all v.items v.store P →
      Kept key v.all [] (save key pass.walk.items v.store) P :=
    fun hP => Kept.save (hitems ▸ hP)
  constructor
  · exact h.sorted
  · exact h.nodup
  · rcases hmark with rfl | ⟨newest, rfl, hcomplete, hnewest⟩
    · exact fun t ht => hsaved (h.mark t ht)
    · rintro t ⟨⟩ x hx hP
      refine ⟨?_, sole_nil x⟩
      cases hgate : gate pass.since x with
      | false => exact (hsaved (h.kept pass hmem) x hx hgate).1
      | true =>
        exact (h.pass pass hmem).final hover hcomplete hnewest x (mem_filter.mpr ⟨hx, hgate⟩)
          (hbelow newest x hP) _
  · exact fun t ht => hsaved (h.loaded t ht)
  · exact fun _ hmem => absurd hmem (not_mem_none _)
  · exact fun _ hmem => absurd hmem (not_mem_none _)

end ViewOk

/-! ## The clock -/

theorem Walk.mem_read {listing : List α} {size : ℕ} {x : α}
    (hx : x ∈ (walk.read listing size stops).items) : x ∈ walk.items ∨ x ∈ listing :=
  (mem_append.mp hx).imp_right fun hpage =>
    mem_of_mem_drop (mem_of_mem_take (takeWhile_sublist _ |>.subset hpage))

variable (clock) in
structure Past (now : ℤ) (v : View α κ) : Prop where
  all : ∀ x ∈ v.all, clock x ≤ now
  mark : ∀ t ∈ v.mark, t < now
  loaded : ∀ t ∈ v.loaded, t < now
  since : ∀ pass ∈ v.pass, pass.since < now
  items : ∀ pass ∈ v.pass, ∀ x ∈ pass.walk.items, clock x ≤ now

namespace Past

omit [DecidableEq κ]

variable {now : ℤ}

theorem mono {later : ℤ} (h : Past clock now v) (hle : now ≤ later) : Past clock later v where
  all := fun x hx => (h.all x hx).trans hle
  mark := fun t ht => (h.mark t ht).trans_le hle
  loaded := fun t ht => (h.loaded t ht).trans_le hle
  since := fun pass hmem => (h.since pass hmem).trans_le hle
  items := fun pass hmem x hx => (h.items pass hmem x hx).trans hle

theorem change {all' : List α} (h : Past clock now v) (hall : ∀ x ∈ all', clock x ≤ now) :
    Past clock now { v with all := all' } :=
  { h with all := hall }

theorem idle (h : Past clock now v) : Past clock now { v with pass := none } :=
  { h with
    since := fun _ hmem => absurd hmem (not_mem_none _)
    items := fun _ hmem => absurd hmem (not_mem_none _) }

theorem load (h : Past clock now v) : Past clock now { v with loaded := v.mark } :=
  { h with loaded := h.mark }

theorem unload (h : Past clock now v) : Past clock now { v with loaded := none, pass := none } :=
  { h.idle with loaded := fun _ ht => absurd ht (not_mem_none _) }

theorem start (h : Past clock now v) {since : ℤ} (hsince : since < now) (pages bound : ℕ) :
    Past clock now { v with pass := some ⟨since, Walk.start pages, bound⟩ } :=
  { h with
    since := by
      rintro pass ⟨⟩
      exact hsince
    items := by
      rintro pass ⟨⟩ x hx
      exact absurd hx not_mem_nil }

theorem read (h : Past clock now v) (hmem : v.pass = some pass) {listing : List α}
    (hsub : ∀ x ∈ listing, x ∈ v.all) (size : ℕ) (stops : α → Bool) :
    Past clock now { v with pass := some { pass with walk := pass.walk.read listing size stops } } :=
  { h with
    since := by
      rintro pass' ⟨⟩
      exact h.since pass hmem
    items := by
      rintro pass' ⟨⟩ x hx
      rcases Walk.mem_read hx with hx | hx
      · exact h.items pass hmem x hx
      · exact h.all x (hsub x hx) }

theorem settle (h : Past clock now v) (hmem : v.pass = some pass) (store : κ → Option α)
    {mark : Option ℤ} (hmark : mark = v.mark ∨ ∃ newest, mark = some (newest - 1) ∧
      pass.walk.items.length < pass.bound ∧ (pass.walk.items.map clock).max? = some newest) :
    Past clock now { v with store := store, mark := mark, pass := none } := by
  refine { h.idle with mark := ?_ }
  rcases hmark with rfl | ⟨newest, rfl, _, hnewest⟩
  · exact h.mark
  · rintro t ⟨⟩
    obtain ⟨y, hy, rfl⟩ := mem_map.mp (List.max?_mem hnewest)
    have hle := h.items pass hmem y hy
    omega

end Past

end OmniSense.Sync
