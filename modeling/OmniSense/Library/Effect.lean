import Mathlib.Data.List.Induction
import Mathlib.Tactic.Common

/-! Computations that may fail: the state they leave, and the errors they raise. -/

namespace OmniSense.Library

open List

/-! Computations over a state that may fail, keeping the state they reached, rules for what they
leave behind, and invariants of loops over a list. -/

section

abbrev Effect (σ ε : Type) := ExceptT ε (StateM σ)

namespace Effect

variable {σ ε α β : Type}

def exec (x : Effect σ ε α) (s : σ) : Except ε α × σ := x.run.run s

@[simp] theorem exec_pure (a : α) (s : σ) : exec (pure a : Effect σ ε α) s = (.ok a, s) := rfl

@[simp] theorem exec_throw (e : ε) (s : σ) :
    exec (throw e : Effect σ ε α) s = (.error e, s) := rfl

@[simp] theorem exec_get (s : σ) : exec (get : Effect σ ε σ) s = (.ok s, s) := rfl

@[simp] theorem exec_modify (f : σ → σ) (s : σ) :
    exec (modify f : Effect σ ε PUnit) s = (.ok ⟨⟩, f s) := rfl

theorem exec_bind (x : Effect σ ε α) (f : α → Effect σ ε β) (s : σ) :
    exec (x >>= f) s = match exec x s with
      | (.ok a, s') => exec (f a) s'
      | (.error e, s') => (.error e, s') := by
  change (ExceptT.bindCont f (exec x s).1) (exec x s).2 = _
  rcases exec x s with ⟨e | a, s'⟩ <;> rfl

theorem exec_tryCatch (x : Effect σ ε α) (h : ε → Effect σ ε α) (s : σ) :
    exec (tryCatch x h) s = match exec x s with
      | (.ok a, s') => (.ok a, s')
      | (.error e, s') => exec (h e) s' := by
  change (match (exec x s).1 with
    | .ok a => (pure (.ok a) : StateM σ (Except ε α))
    | .error e => h e) (exec x s).2 = _
  unfold exec
  rcases x.run.run s with ⟨e | a, s'⟩ <;> rfl

/-- Started in `P`, the computation returns in `Q` or raises in `E`. -/
def Triple (P : σ → Prop) (x : Effect σ ε α) (Q : α → σ → Prop) (E : σ → Prop) : Prop :=
  ∀ s, P s → match exec x s with
    | (.ok a, s') => Q a s'
    | (.error _, s') => E s'

namespace Triple

variable {P P' R : σ → Prop} {x : Effect σ ε α} {f : α → Effect σ ε β} {Q Q' : α → σ → Prop}
  {S : β → σ → Prop} {E E' : σ → Prop} {f' : σ → Effect σ ε β}

theorem ret {a : α} (h : ∀ s, P s → Q a s) : Triple P (pure a : Effect σ ε α) Q E := h

theorem raise {e : ε} (h : ∀ s, P s → E s) : Triple P (throw e : Effect σ ε α) Q E := h

theorem update {g : σ → σ} {Q : PUnit → σ → Prop} (h : ∀ s, P s → Q ⟨⟩ (g s)) :
    Triple P (modify g : Effect σ ε PUnit) Q E := h

theorem bind (hx : Triple P x Q E) (hf : ∀ a, Triple (Q a) (f a) S E) :
    Triple P (x >>= f) S E := by
  intro s hs
  have hq := hx s hs
  rw [exec_bind]
  rcases hrun : exec x s with ⟨e | a, s'⟩
  · rw [hrun] at hq
    exact hq
  · rw [hrun] at hq
    exact hf a s' hq

theorem catching {h : ε → Effect σ ε α} (hx : Triple P x Q E) (hh : ∀ e, Triple E (h e) Q E') :
    Triple P (tryCatch x h) Q E' := by
  intro s hs
  have hq := hx s hs
  rw [exec_tryCatch]
  rcases hrun : exec x s with ⟨e | a, s'⟩
  · rw [hrun] at hq
    exact hh e s' hq
  · rw [hrun] at hq
    exact hq

theorem weaken (hx : Triple P x Q E) (hP : ∀ s, P' s → P s) (hQ : ∀ a s, Q a s → Q' a s)
    (hE : ∀ s, E s → E' s) : Triple P' x Q' E' := by
  intro s hs
  have hq := hx s (hP s hs)
  rcases hrun : exec x s with ⟨e | a, s'⟩
  · rw [hrun] at hq
    exact hE s' hq
  · rw [hrun] at hq
    exact hQ a s' hq

theorem read (h : ∀ s, P s → Triple P (f' s) S E) : Triple P (get >>= f') S E :=
  fun s hs => h s hs s hs

theorem leaves {I : σ → Prop} (h : Triple P x (fun _ => I) I) {s : σ} (hs : P s) :
    I (exec x s).2 := by
  have hx := h s hs
  rcases hrun : exec x s with ⟨e | a, s'⟩ <;>
  · rw [hrun] at hx
    exact hx

theorem of_state (h : ∀ s, P s → Triple (· = s) x Q E) : Triple P x Q E :=
  fun s hs => h s hs s rfl

end Triple

/-- Started in `P`, an exception that it raises is one of `R`. -/
def Raises (P : σ → Prop) (x : Effect σ ε α) (R : ε → Prop) : Prop :=
  ∀ s, P s → ∀ e, (exec x s).1 = .error e → R e

namespace Raises

variable {P : σ → Prop} {x : Effect σ ε α} {f : α → Effect σ ε β} {Q : α → σ → Prop} {E : σ → Prop}
  {R : ε → Prop}

theorem ret (a : α) : Raises P (pure a : Effect σ ε α) R := fun _ _ _ h => nomatch h

theorem raise {e : ε} (h : R e) : Raises P (throw e : Effect σ ε α) R := by
  intro s _ e' he
  cases he
  exact h

theorem update (g : σ → σ) : Raises P (modify g : Effect σ ε PUnit) R := fun _ _ _ h => nomatch h

theorem bind (hx : Raises P x R) (hpost : Triple P x Q E) (hf : ∀ a, Raises (Q a) (f a) R) :
    Raises P (x >>= f) R := by
  intro s hs e he
  have hq := hpost s hs
  have hr := hx s hs
  rw [exec_bind] at he
  rcases hrun : exec x s with ⟨e' | a, s'⟩
  · rw [hrun] at he hr
    cases he
    exact hr e rfl
  · rw [hrun] at hq he
    exact hf a s' hq e he

theorem seq {P : σ → Prop} (hx : Raises (fun _ => True) x R)
    (hf : ∀ a, Raises (fun _ => True) (f a) R) : Raises P (x >>= f) R := by
  have hpost : Triple (fun _ => True) x (fun _ _ => True) fun _ => True := by
    intro s _
    rcases exec x s with ⟨e | a, s'⟩ <;> trivial
  exact fun s _ => bind hx hpost hf s trivial

end Raises

/-- However it ends, the computation keeps `I`. -/
def Keeps (I : σ → Prop) (x : Effect σ ε α) : Prop := Triple I x (fun _ => I) I

namespace Keeps

variable {I : σ → Prop} {x : Effect σ ε α} {f : α → Effect σ ε β}

theorem ret (a : α) : Keeps I (pure a : Effect σ ε α) := fun _ h => h

theorem raise (e : ε) : Keeps I (throw e : Effect σ ε α) := fun _ h => h

theorem bind (hx : Keeps I x) (hf : ∀ a, Keeps I (f a)) : Keeps I (x >>= f) := Triple.bind hx hf

theorem update {g : σ → σ} (h : ∀ s, I s → I (g s)) : Keeps I (modify g : Effect σ ε PUnit) := h

theorem catching {h : ε → Effect σ ε α} (hx : Keeps I x) (hh : ∀ e, Keeps I (h e)) :
    Keeps I (tryCatch x h) := Triple.catching hx hh

theorem state (h : Keeps I x) {s : σ} (hs : I s) : I (exec x s).2 := Triple.leaves h hs

end Keeps

end Effect

/-! ## Loops -/

section

variable {σ ε α : Type*} {I : List α → σ → Prop} {xs : List α} {s : σ}

theorem foldl_done {f : σ → α → σ} (hstart : I [] s)
    (hstep : ∀ done, ∀ x ∈ xs, ∀ s, I done s → I (done ++ [x]) (f s x)) : I xs (xs.foldl f s) := by
  induction xs using List.reverseRecOn with
  | nil => exact hstart
  | append_singleton xs x ih =>
    have hbefore := ih fun done y hy => hstep done y (mem_append_left _ hy)
    rw [foldl_append]
    exact hstep xs x (mem_append_right _ (mem_singleton_self x)) _ hbefore

theorem foldlM_done {f : σ → α → Except ε σ} (hstart : I [] s)
    (hstep : ∀ done, ∀ x ∈ xs, ∀ s, I done s → ∃ s', f s x = .ok s' ∧ I (done ++ [x]) s') :
    ∃ s', xs.foldlM f s = .ok s' ∧ I xs s' := by
  induction xs using List.reverseRecOn with
  | nil => exact ⟨s, rfl, hstart⟩
  | append_singleton xs x ih =>
    obtain ⟨t, hrun, ht⟩ := ih fun done y hy => hstep done y (mem_append_left _ hy)
    obtain ⟨t', hround, ht'⟩ := hstep xs x (mem_append_right _ (mem_singleton_self x)) t ht
    refine ⟨t', ?_, ht'⟩
    rw [foldlM_append, hrun]
    change [x].foldlM f t = _
    rw [foldlM_cons, hround]
    rfl

theorem ok_of_foldlM {f : σ → α → Except ε σ} {t : σ} (h : xs.foldlM f s = .ok t) :
    ∀ x ∈ xs, ∃ u u', f u x = .ok u' := by
  induction xs generalizing s with
  | nil => exact fun _ hx => absurd hx not_mem_nil
  | cons y xs ih =>
    rw [foldlM_cons] at h
    cases hround : f s y with
    | error e =>
      rw [hround] at h
      cases h
    | ok u =>
      rw [hround] at h
      intro x hx
      rcases mem_cons.mp hx with rfl | hx
      · exact ⟨s, u, hround⟩
      · exact ih h x hx

variable {β : Type*}

theorem mapM_done {f : α → Except ε β} {Q : α → β → Prop} (h : ∀ x ∈ xs, ∃ y, f x = .ok y ∧ Q x y) :
    ∃ ys, xs.mapM f = .ok ys ∧ List.Forall₂ Q xs ys := by
  induction xs with
  | nil => exact ⟨[], rfl, .nil⟩
  | cons x xs ih =>
    obtain ⟨y, hy, hxy⟩ := h x mem_cons_self
    obtain ⟨ys, hys, hall⟩ := ih fun z hz => h z (mem_cons_of_mem _ hz)
    refine ⟨y :: ys, ?_, .cons hxy hall⟩
    rw [mapM_cons, hy, hys]
    rfl

theorem ok_of_bind {α β : Type _} {x : Except ε α} {f : α → Except ε β} {b : β}
    (h : x >>= f = .ok b) : ∃ a, x = .ok a ∧ f a = .ok b := by
  cases x with
  | error e => cases h
  | ok a => exact ⟨a, rfl, h⟩

theorem error_of_bind {α β : Type _} {x : Except ε α} {f : α → Except ε β} {e : ε}
    (h : x >>= f = .error e) : x = .error e ∨ ∃ a, x = .ok a ∧ f a = .error e := by
  cases x with
  | error e' =>
    cases h
    exact .inl rfl
  | ok a => exact .inr ⟨a, rfl, h⟩

theorem ok_of_toOption {x : Except ε α} {a : α} (h : x.toOption = some a) : x = .ok a := by
  cases x with
  | error e => cases h
  | ok b => exact congrArg Except.ok (Option.some.inj h)

theorem ok_of_map {x : Except ε α} {f : α → β} {b : β}
    (h : x.map f = .ok b) : ∃ a, x = .ok a ∧ f a = b := by
  cases x with
  | error e => cases h
  | ok a => exact ⟨a, rfl, Except.ok.inj h⟩

theorem ok_of_mapM {f : α → Except ε β} {ys : List β}
    (h : xs.mapM f = .ok ys) : List.Forall₂ (fun x y => f x = .ok y) xs ys := by
  induction xs generalizing ys with
  | nil =>
    cases h
    exact .nil
  | cons x xs ih =>
    rw [mapM_cons] at h
    obtain ⟨y, hy, hrest⟩ := ok_of_bind h
    obtain ⟨zs, hzs, heq⟩ := ok_of_bind hrest
    cases heq
    exact .cons hy (ih hzs)

theorem forall₂_mem_right {R : α → β → Prop} {ys : List β}
    (h : List.Forall₂ R xs ys) : ∀ y ∈ ys, ∃ x ∈ xs, R x y := by
  induction h with
  | nil => simp
  | cons hxy _ ih =>
    intro y hy
    rcases mem_cons.mp hy with rfl | hy
    · exact ⟨_, mem_cons_self, hxy⟩
    · obtain ⟨x, hx, hxy'⟩ := ih y hy
      exact ⟨x, mem_cons_of_mem _ hx, hxy'⟩

end

end

/-! Computations that raise nothing but the errors of a class. -/

section

universe u

variable {ε : Type u} {α β : Type u} {allowed : ε → Prop}

def Confined (allowed : ε → Prop) (run : Except ε α) : Prop :=
  ∀ error, run = .error error → allowed error

theorem confined_ok (a : α) : Confined allowed (.ok a : Except ε α) := by
  intro error h
  cases h

theorem confined_error {error : ε} :
    Confined allowed (.error error : Except ε α) ↔ allowed error := by
  constructor
  · exact fun h => h error rfl
  · intro h other hother
    cases hother
    exact h

theorem confined_bind {run : Except ε α} {next : α → Except ε β} :
    Confined allowed (run >>= next) ↔
      Confined allowed run ∧ ∀ a, run = .ok a → Confined allowed (next a) := by
  cases run with
  | error error =>
    constructor
    · exact fun h => ⟨confined_error.mpr (h error rfl), fun a ha => by cases ha⟩
    · rintro ⟨h, -⟩ other hother
      cases hother
      exact h error rfl
  | ok a =>
    constructor
    · intro h
      refine ⟨confined_ok a, fun b hb => ?_⟩
      cases hb
      exact h
    · exact fun h => h.2 a rfl

structure Guarded (allowed : ε → Prop) (run : Except ε α) (condition : Prop) (value : α) :
    Prop where
  holds : condition → run = .ok value
  fails : ¬condition → ∃ error, run = .error error ∧ ¬allowed error

namespace Guarded

variable {run : Except ε α} {condition condition' : Prop} {a : α} {b : β}

theorem ok (a : α) : Guarded allowed (.ok a : Except ε α) True a :=
  ⟨fun _ => rfl, fun h => absurd trivial h⟩

theorem confined (h : Guarded allowed run condition a) : Confined allowed run ↔ condition := by
  constructor
  · intro hrun
    by_contra hnot
    obtain ⟨error, herror, hforbidden⟩ := h.fails hnot
    exact hforbidden (hrun error herror)
  · intro hcondition
    rw [h.holds hcondition]
    exact confined_ok a

theorem bind (h : Guarded allowed run condition a) (next : α → Except ε β) :
    Confined allowed (run >>= next) ↔ condition ∧ Confined allowed (next a) := by
  rw [confined_bind, h.confined]
  refine and_congr_right fun hcondition => ?_
  constructor
  · exact fun hnext => hnext a (h.holds hcondition)
  · intro hnext a' ha'
    rw [h.holds hcondition] at ha'
    cases ha'
    exact hnext

theorem seq (h : Guarded allowed run condition a) {next : α → Except ε β}
    (hnext : Guarded allowed (next a) condition' b) :
    Guarded allowed (run >>= next) (condition ∧ condition') b := by
  constructor
  · rintro ⟨hcondition, hcondition'⟩
    rw [h.holds hcondition]
    exact hnext.holds hcondition'
  · intro hnot
    by_cases hcondition : condition
    · rw [h.holds hcondition]
      exact hnext.fails fun h' => hnot ⟨hcondition, h'⟩
    · obtain ⟨error, herror, hforbidden⟩ := h.fails hcondition
      rw [herror]
      exact ⟨error, rfl, hforbidden⟩

theorem map (h : Guarded allowed run condition a) (f : α → β) :
    Guarded allowed (run >>= fun a => pure (f a)) condition (f a) := by
  constructor
  · intro hcondition
    rw [h.holds hcondition]
    rfl
  · intro hnot
    obtain ⟨error, herror, hforbidden⟩ := h.fails hnot
    rw [herror]
    exact ⟨error, rfl, hforbidden⟩

theorem seq_exists (h : Guarded allowed run condition a) {next : α → Except ε β}
    (hnext : ∃ b, Guarded allowed (next a) condition' b) :
    ∃ b, Guarded allowed (run >>= next) (condition ∧ condition') b := by
  obtain ⟨b, hb⟩ := hnext
  exact ⟨b, h.seq hb⟩

theorem congr (h : Guarded allowed run condition a) (hiff : condition ↔ condition') :
    Guarded allowed run condition' a :=
  ⟨fun hc => h.holds (hiff.mpr hc), fun hc => h.fails (mt hiff.mp hc)⟩

end Guarded

end

end OmniSense.Library
