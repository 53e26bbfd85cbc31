import Mathlib.Algebra.GroupWithZero.Nat
import Mathlib.Data.List.Basic
import OmniSense.Library.Reflow

/-! The fields of a text: its longest runs of symbols that are no blanks. -/

namespace OmniSense.Library

open List

variable {α β : Type*} {p : α → Bool} {a b : α} {l w x y : List α} {ws : List (List α)}

def fields (p : α → Bool) (l : List α) : List (List α) :=
  (l.splitOnP p).filter fun w => !w.isEmpty

structure IsField (p : α → Bool) (w : List α) : Prop where
  ne_nil : w ≠ []
  solid : ∀ a ∈ w, p a = false

theorem mem_intercalate {pieces : List (List α)}
    (h : a ∈ [b].intercalate pieces) : a = b ∨ ∃ piece ∈ pieces, a ∈ piece := by
  induction pieces with
  | nil => cases h
  | cons first rest ih =>
    by_cases hrest : rest = []
    · rw [hrest, intercalate_singleton] at h
      exact Or.inr ⟨first, mem_cons_self .., h⟩
    · rw [intercalate_cons_of_ne_nil hrest] at h
      rcases mem_append.mp h with h | h
      · rcases mem_append.mp h with h | h
        · exact Or.inr ⟨first, mem_cons_self .., h⟩
        · exact Or.inl (mem_singleton.mp h)
      · refine (ih h).imp_right ?_
        rintro ⟨piece, hpiece, ha⟩
        exact ⟨piece, mem_cons_of_mem _ hpiece, ha⟩

theorem fields_nil : fields p [] = [] := rfl

theorem fields_append_cons (ha : p a = true) :
    fields p (x ++ a :: y) = fields p x ++ fields p y := by
  unfold fields
  rw [splitOnP_append_cons x y ha, filter_append]

theorem fields_blank (ha : p a = true) : fields p (a :: y) = fields p y :=
  fields_append_cons (x := []) ha

theorem fields_solid (h : ∀ a ∈ l, p a = false) : fields p l = if l.isEmpty then [] else [l] := by
  unfold fields
  rw [splitOnP_eq_singleton h]
  cases l <;> rfl

theorem IsField.fields_eq (h : IsField p w) : fields p w = [w] := by
  rw [fields_solid h.solid, if_neg (by simpa using h.ne_nil)]

theorem blank_induction {motive : List α → Prop} (solid : ∀ l, (∀ a ∈ l, p a = false) → motive l)
    (blank : ∀ x a y, (∀ b ∈ x, p b = false) → p a = true → motive y → motive (x ++ a :: y))
    (l : List α) : motive l := by
  have key : ∀ l x : List α, (∀ b ∈ x, p b = false) → motive (x ++ l) := by
    intro l
    induction l with
    | nil =>
      intro x hx
      rw [append_nil]
      exact solid x hx
    | cons a l ih =>
      intro x hx
      cases ha : p a with
      | true => exact blank x a l hx ha (ih [] fun b hb => absurd hb not_mem_nil)
      | false =>
        have hsolid : ∀ b ∈ x ++ [a], p b = false := by
          intro b hb
          rcases mem_append.mp hb with hb | hb
          · exact hx b hb
          · rw [mem_singleton.mp hb]
            exact ha
        have hnext := ih (x ++ [a]) hsolid
        rw [← append_cons] at hnext
        exact hnext
  exact key l [] fun b hb => absurd hb not_mem_nil

theorem isField_of_mem (h : w ∈ fields p l) : IsField p w := by
  induction l using blank_induction (p := p) with
  | solid l hsolid =>
    rw [fields_solid hsolid] at h
    cases hl : l.isEmpty with
    | true => simp [hl] at h
    | false =>
      obtain rfl : w = l := by simpa [hl] using h
      exact ⟨by simpa using hl, hsolid⟩
  | blank x a y hx ha ih =>
    rw [fields_append_cons ha, mem_append] at h
    rcases h with h | h
    · rw [fields_solid hx] at h
      cases hl : x.isEmpty with
      | true => simp [hl] at h
      | false =>
        obtain rfl : w = x := by simpa [hl] using h
        exact ⟨by simpa using hl, hx⟩
    · exact ih h

theorem fields_intercalate (ha : p a = true) (h : ∀ w ∈ ws, IsField p w) :
    fields p ([a].intercalate ws) = ws := by
  induction ws with
  | nil => rfl
  | cons w ws ih =>
    have hw := h w mem_cons_self
    have hrest := ih fun v hv => h v (mem_cons_of_mem _ hv)
    cases ws with
    | nil =>
      rw [intercalate_singleton]
      exact hw.fields_eq
    | cons v ws =>
      rw [intercalate_cons_cons, append_assoc, singleton_append,
        fields_append_cons ha, hw.fields_eq, hrest]
      rfl

theorem intercalate_cons_ne_nil (h : ws ≠ []) :
    [b].intercalate (w :: ws) = w ++ b :: [b].intercalate ws := by
  rw [intercalate_cons_of_ne_nil h, append_assoc, singleton_append]

theorem intercalate_append (h : ws ≠ []) {vs : List (List α)} (h' : vs ≠ []) :
    [b].intercalate (ws ++ vs) = [b].intercalate ws ++ b :: [b].intercalate vs := by
  induction ws with
  | nil => exact absurd rfl h
  | cons w ws ih =>
    cases ws with
    | nil => rw [singleton_append, intercalate_cons_ne_nil h', intercalate_singleton]
    | cons v ws =>
      rw [cons_append, intercalate_cons_ne_nil (append_ne_nil_of_left_ne_nil
        (cons_ne_nil v ws) vs), ih (cons_ne_nil v ws),
        intercalate_cons_ne_nil (cons_ne_nil v ws), append_assoc, cons_append]

theorem length_intercalate (h : ws ≠ []) :
    ([b].intercalate ws).length + 1 = (ws.map List.length).sum + ws.length := by
  induction ws with
  | nil => exact absurd rfl h
  | cons w ws ih =>
    cases ws with
    | nil => simp
    | cons v ws =>
      have hrest := ih (cons_ne_nil v ws)
      rw [intercalate_cons_ne_nil (cons_ne_nil v ws), length_append, length_cons,
        map_cons, sum_cons, length_cons]
      omega

theorem head_intercalate (h : ∀ w ∈ ws, IsField p w) :
    ∀ c ∈ ([b].intercalate ws).head?, p c = false := by
  intro c hc
  cases ws with
  | nil => cases hc
  | cons w ws =>
    have hw := h w mem_cons_self
    obtain ⟨d, tail, rfl⟩ := exists_cons_of_ne_nil hw.ne_nil
    have hhead : ([b].intercalate ((d :: tail) :: ws)).head? = some d := by
      cases ws with
      | nil => rw [intercalate_singleton, List.head?_cons]
      | cons v ws => rw [intercalate_cons_ne_nil (cons_ne_nil v ws), cons_append,
          List.head?_cons]
    rw [hhead] at hc
    rw [← Option.some.inj hc]
    exact hw.solid d mem_cons_self

theorem last_intercalate (h : ∀ w ∈ ws, IsField p w) :
    ∀ c ∈ ([b].intercalate ws).getLast?, p c = false := by
  intro c hc
  induction ws with
  | nil => cases hc
  | cons w ws ih =>
    have hw := h w mem_cons_self
    cases ws with
    | nil =>
      rw [intercalate_singleton] at hc
      exact hw.solid c (mem_of_mem_getLast? hc)
    | cons v ws =>
      have hrest := fun u hu => h u (mem_cons_of_mem _ hu)
      have hne : [b].intercalate (v :: ws) ≠ [] := by
        intro hnil
        have hlength := length_intercalate (b := b) (cons_ne_nil v ws)
        have hv := length_pos_iff.mpr (h v (by simp)).ne_nil
        rw [hnil, map_cons, sum_cons, length_cons, length_nil] at hlength
        omega
      rw [intercalate_cons_ne_nil (cons_ne_nil v ws), append_cons,
        List.getLast?_append_of_ne_nil _ hne] at hc
      exact ih hrest hc

theorem take_intercalate (hb : p b = true) (hws : ∀ w ∈ ws, IsField p w) (n : ℕ) :
    (∃ vs, (∀ v ∈ vs, IsField p v) ∧ ([b].intercalate ws).take n = [b].intercalate vs) ∨
      ∃ vs rest, ws = vs ++ rest ∧ rest ≠ [] ∧ ([b].intercalate vs).length + 1 = n ∧
        ([b].intercalate ws).take n = [b].intercalate vs ++ [b] := by
  induction ws generalizing n with
  | nil => exact .inl ⟨[], fun _ h => absurd h not_mem_nil, take_nil⟩
  | cons w ws ih =>
    have hw := hws w mem_cons_self
    have hinside : ∀ m ≤ w.length, ∃ vs, (∀ v ∈ vs, IsField p v) ∧
        w.take m = [b].intercalate vs := by
      intro m hm
      cases m with
      | zero => exact ⟨[], fun _ h => absurd h not_mem_nil, take_zero⟩
      | succ m =>
        refine ⟨[w.take (m + 1)], fun v hv => ?_, (intercalate_singleton ..).symm⟩
        rw [mem_singleton.mp hv]
        refine ⟨fun hnil => ?_, fun a ha => hw.solid a (mem_of_mem_take ha)⟩
        exact (take_eq_nil_iff.mp hnil).elim (Nat.succ_ne_zero m) hw.ne_nil
    cases ws with
    | nil =>
      rw [intercalate_singleton]
      rcases le_total n w.length with hn | hn
      · exact .inl (hinside n hn)
      · rw [take_of_length_le hn, ← take_length (l := w)]
        exact .inl (hinside w.length le_rfl)
    | cons v ws =>
      rw [intercalate_cons_ne_nil (cons_ne_nil v ws)]
      rcases le_or_gt n w.length with hn | hn
      · rw [take_append_of_le_length hn]
        exact .inl (hinside n hn)
      · obtain ⟨m, rfl⟩ : ∃ m, n = w.length + (m + 1) := ⟨n - w.length - 1, by omega⟩
        rw [take_length_add_append, take_succ_cons]
        -- The cut is made behind the blank, or among the words after it.
        cases m with
        | zero =>
          refine .inr ⟨[w], v :: ws, rfl, cons_ne_nil v ws, ?_, ?_⟩
          · rw [intercalate_singleton]
          · rw [intercalate_singleton, take_zero]
        | succ m =>
          have hv := hws v (mem_cons_of_mem _ mem_cons_self)
          obtain ⟨a, v', rfl⟩ := exists_cons_of_ne_nil hv.ne_nil
          have hstart : ([b].intercalate ((a :: v') :: ws)).take (m + 1) =
              a :: ([b].intercalate ((a :: v') :: ws)).tail.take m := by
            cases ws with
            | nil =>
              rw [intercalate_singleton]
              rfl
            | cons u ws =>
              rw [intercalate_cons_ne_nil (cons_ne_nil u ws)]
              rfl
          rcases ih (fun u hu => hws u (mem_cons_of_mem _ hu)) (m + 1) with
            ⟨vs, hvs, heq⟩ | ⟨vs, rest, hsplit, hrest, hlength, heq⟩
          · have hne : vs ≠ [] := by
              rintro rfl
              rw [hstart] at heq
              cases heq
            refine .inl ⟨w :: vs, forall_mem_cons.mpr ⟨hw, hvs⟩, ?_⟩
            rw [heq, intercalate_cons_ne_nil hne]
          · have hne : vs ≠ [] := by
              rintro rfl
              rw [hstart] at heq
              have hab : a = b := (List.cons.inj heq).1
              rw [← hab, hv.solid a mem_cons_self] at hb
              cases hb
            refine .inr ⟨w :: vs, rest, by rw [hsplit]; rfl, hrest, ?_, ?_⟩
            · rw [intercalate_cons_ne_nil hne, length_append, length_cons]
              omega
            · rw [heq, intercalate_cons_ne_nil hne, append_assoc, cons_append]

theorem fields_reverse (p : α → Bool) (l : List α) :
    fields p l.reverse = ((fields p l).map List.reverse).reverse := by
  induction l using blank_induction (p := p) with
  | solid l hsolid =>
    rw [fields_solid hsolid, fields_solid fun a ha => hsolid a (mem_reverse.mp ha)]
    cases l <;> simp
  | blank x a y hx ha ih =>
    have hsolid : fields p x.reverse = ((fields p x).map List.reverse).reverse := by
      rw [fields_solid hx, fields_solid fun a ha => hx a (mem_reverse.mp ha)]
      cases x <;> simp
    rw [reverse_append, reverse_cons, append_assoc, singleton_append,
      fields_append_cons ha, fields_append_cons ha, ih, hsolid, map_append,
      reverse_append]

theorem flatten_fields (p : α → Bool) (l : List α) :
    (fields p l).flatten = l.filter fun a => !p a := by
  induction l using blank_induction (p := p) with
  | solid l hsolid =>
    have hall : l.filter (fun a => !p a) = l :=
      filter_eq_self.mpr fun a ha => by rw [hsolid a ha]; rfl
    rw [fields_solid hsolid, hall]
    cases l <;> simp
  | blank x a y hx ha ih =>
    have hall : x.filter (fun a => !p a) = x :=
      filter_eq_self.mpr fun a ha => by rw [hx a ha]; rfl
    have hfront : (fields p x).flatten = x := by
      rw [fields_solid hx]
      cases x <;> simp
    rw [fields_append_cons ha, flatten_append, ih, hfront, filter_append, hall,
      filter_cons_of_neg (by simp [ha])]

theorem mem_of_mem_fields (hw : w ∈ fields p l) (ha : a ∈ w) : a ∈ l := by
  have hflat : a ∈ (fields p l).flatten := mem_flatten.mpr ⟨w, hw, ha⟩
  rw [flatten_fields] at hflat
  exact mem_of_mem_filter hflat

theorem splitOn_around [DecidableEq α] (h : w ∈ l.splitOn a) :
    a ∉ w ∧ ∃ before after, l = before ++ (w ++ after) ∧ (∀ b ∈ before.getLast?, b = a) ∧
      ∀ b ∈ after.head?, b = a := by
  rw [splitOn_eq_splitOnP] at h
  induction l using blank_induction (p := (· == a)) with
  | solid l hsolid =>
    rw [splitOnP_eq_singleton hsolid] at h
    obtain rfl := mem_singleton.mp h
    refine ⟨fun ha => by simpa using hsolid a ha, [], [], by simp, ?_, ?_⟩
    · exact fun b hb => absurd hb (Option.not_mem_none b)
    · exact fun b hb => absurd hb (Option.not_mem_none b)
  | blank x b y hx hb ih =>
    have hba : b = a := by simpa using hb
    rw [splitOnP_append_cons_of_forall_mem hx b hb] at h
    rcases mem_cons.mp h with rfl | h
    · refine ⟨fun ha => by simpa using hx a ha, [], b :: y, by simp, ?_, ?_⟩
      · exact fun c hc => absurd hc (Option.not_mem_none c)
      · exact fun c hc => (Option.some.inj hc).symm.trans hba
    · obtain ⟨hnot, before, after, rfl, hbefore, hafter⟩ := ih h
      refine ⟨hnot, x ++ b :: before, after, by simp, fun c hc => ?_, hafter⟩
      cases before with
      | nil =>
        rw [List.getLast?_concat] at hc
        exact (Option.some.inj hc).symm.trans hba
      | cons d before =>
        rw [List.getLast?_append_of_ne_nil _ (cons_ne_nil _ _), List.getLast?_cons_cons] at hc
        exact hbefore c hc

/-! ## Rewriting blanks -/

theorem fields_exchange (ha : p a = true) (hb : p b = true) :
    fields p (x ++ a :: y) = fields p (x ++ b :: y) := by
  rw [fields_append_cons ha, fields_append_cons hb]

theorem fields_merge (ha : p a = true) (hb : p b = true) :
    fields p (x ++ a :: b :: y) = fields p (x ++ b :: y) := by
  rw [fields_append_cons ha, fields_append_cons hb, fields_blank hb]

theorem fields_dropWhile (p : α → Bool) (l : List α) : fields p (l.dropWhile p) = fields p l := by
  induction l with
  | nil => rfl
  | cons a l ih =>
    cases ha : p a with
    | true => rw [dropWhile_cons_of_pos ha, ih, fields_blank ha]
    | false => rw [dropWhile_cons_of_neg (by simp [ha])]

theorem fields_reverse_congr (h : fields p x = fields p y) :
    fields p x.reverse = fields p y.reverse := by
  rw [fields_reverse, h, ← fields_reverse]

theorem fields_stripEnds (p : α → Bool) (l : List α) : fields p (stripEnds p l) = fields p l := by
  have hback := fields_reverse_congr (fields_dropWhile p (l.dropWhile p).reverse)
  rw [reverse_reverse, fields_dropWhile] at hback
  exact hback

theorem fields_map {g : α → α} (hg : ∀ a, g a = a ∨ p a = true ∧ p (g a) = true) (l : List α) :
    fields p (l.map g) = fields p l := by
  have hall : ∀ x, fields p (x ++ l.map g) = fields p (x ++ l) := by
    induction l with
    | nil => exact fun _ => rfl
    | cons a l ih =>
      intro x
      rw [map_cons, append_cons, ih, ← append_cons]
      rcases hg a with ha | ⟨ha, hga⟩
      · rw [ha]
      · exact fields_exchange hga ha
  exact hall []

end OmniSense.Library
