import Mathlib.Algebra.BigOperators.Group.List.Basic
import Mathlib.Algebra.GroupWithZero.Nat
import Mathlib.Data.List.Induction
import Mathlib.Data.List.Nodup
import Mathlib.Logic.Function.Basic

/-! Dictionaries in insertion order, grouping a list into one, and upserting rows into a keyed
store. Grouping adds up whatever merging two values adds up. -/

namespace OmniSense.Library

open List Function

variable {κ ν : Type*} [DecidableEq κ]

structure Dict (κ ν : Type*) where
  items : List (κ × ν)
  nodup : (items.map Prod.fst).Nodup

namespace Dict

def empty : Dict κ ν := ⟨[], nodup_nil⟩

variable (d : Dict κ ν)

def keys : List κ := d.items.map Prod.fst

def values : List ν := d.items.map Prod.snd

def get? (k : κ) : Option ν := (d.items.find? fun e => e.1 = k).map Prod.snd

@[grind =] def alterItems (k : κ) (f : Option ν → ν) : List (κ × ν) → List (κ × ν)
  | [] => [(k, f none)]
  | e :: es => if e.1 = k then (k, f (some e.2)) :: es else e :: alterItems k f es

variable (d : Dict κ ν) (k k' : κ) {es : List (κ × ν)}

theorem mem_keys_alterItems {k k' : κ} {f : Option ν → ν} :
    k' ∈ (alterItems k f es).map Prod.fst ↔ k' = k ∨ k' ∈ es.map Prod.fst := by
  induction es with
  | nil => simp [alterItems]
  | cons e es ih =>
    unfold alterItems
    split_ifs with h
    · simp [h]
    · rw [map_cons, mem_cons, ih, map_cons, mem_cons]
      tauto

theorem nodup_alterItems (k : κ) (f : Option ν → ν)
    (h : (es.map Prod.fst).Nodup) : ((alterItems k f es).map Prod.fst).Nodup := by
  induction es with
  | nil => simp [alterItems]
  | cons e es ih =>
    obtain ⟨hhead, htail⟩ := nodup_cons.mp (map_cons .. ▸ h)
    unfold alterItems
    split_ifs with hk
    · exact nodup_cons.mpr ⟨hk ▸ hhead, htail⟩
    · refine nodup_cons.mpr ⟨fun hmem => ?_, ih htail⟩
      exact (mem_keys_alterItems.mp hmem).elim hk hhead

def alter (k : κ) (f : Option ν → ν) : Dict κ ν :=
  ⟨alterItems k f d.items, nodup_alterItems k f d.nodup⟩

/-- `d[k] = v`. -/
def set (k : κ) (v : ν) : Dict κ ν := d.alter k fun _ => v

/-- `del d[k]`. -/
def erase (k : κ) : Dict κ ν :=
  ⟨d.items.filter fun e => e.1 ≠ k, d.nodup.sublist (filter_sublist.map Prod.fst)⟩

theorem get?_empty (k : κ) : (empty : Dict κ ν).get? k = none := rfl

theorem get?_alter (f : Option ν → ν) :
    (d.alter k f).get? k' = if k' = k then some (f (d.get? k)) else d.get? k' := by
  obtain ⟨es, -⟩ := d
  simp only [get?, alter]
  induction es with
  | nil =>
    by_cases h : k' = k
    · simp [alterItems, h]
    · simp [alterItems, h, Ne.symm h]
  | cons e es ih =>
    unfold alterItems
    by_cases he : e.1 = k <;> by_cases h : k' = k <;> by_cases he' : e.1 = k' <;>
      simp_all

theorem get?_set (v : ν) : (d.set k v).get? k' = if k' = k then some v else d.get? k' := by
  unfold set
  rw [get?_alter]

theorem get?_erase : (d.erase k).get? k' = if k' = k then none else d.get? k' := by
  obtain ⟨es, -⟩ := d
  simp only [get?, erase]
  induction es with
  | nil => simp
  | cons e es ih =>
    by_cases he : e.1 = k <;> by_cases h : k' = k <;> by_cases he' : e.1 = k' <;> simp_all

theorem mem_items_iff {d : Dict κ ν} {k : κ} {v : ν} : (k, v) ∈ d.items ↔ d.get? k = some v := by
  unfold get?
  constructor
  · intro h
    cases hf : d.items.find? fun e => e.1 = k with
    | none => simpa using List.find?_eq_none.mp hf (k, v) h
    | some e =>
      have hk : e.1 = k := by simpa using List.find?_some hf
      have := inj_on_of_nodup_map d.nodup (mem_of_find?_eq_some hf) h hk
      simp [this]
  · intro h
    obtain ⟨e, he, rfl⟩ := Option.map_eq_some_iff.mp h
    have hk : e.1 = k := by simpa using List.find?_some he
    exact hk ▸ mem_of_find?_eq_some he

theorem mem_keys {d : Dict κ ν} {k : κ} : k ∈ d.keys ↔ (d.get? k).isSome := by
  rw [Option.isSome_iff_exists]
  unfold keys
  rw [mem_map]
  constructor
  · rintro ⟨⟨k, v⟩, hmem, rfl⟩
    exact ⟨v, mem_items_iff.mp hmem⟩
  · rintro ⟨v, hv⟩
    exact ⟨(k, v), mem_items_iff.mpr hv, rfl⟩

def ofList (es : List (κ × ν)) : Dict κ ν := es.foldl (fun d e => d.set e.1 e.2) .empty

theorem ofList_snoc (es : List (κ × ν)) (e : κ × ν) :
    ofList (es ++ [e]) = (ofList es).set e.1 e.2 := by
  unfold ofList
  rw [foldl_append]
  rfl

theorem get?_ofList (hnodup : (es.map Prod.fst).Nodup) {k : κ} {v : ν} :
    (ofList es).get? k = some v ↔ (k, v) ∈ es := by
  induction es using List.reverseRecOn with
  | nil => simp [ofList, get?_empty]
  | append_singleton es e ih =>
    rw [map_append, nodup_append] at hnodup
    obtain ⟨hnodup, -, hnew⟩ := hnodup
    have hfresh : ∀ v, (e.1, v) ∉ es := fun v hv =>
      hnew e.1 (mem_map.mpr ⟨_, hv, rfl⟩) e.1 (by simp) rfl
    rw [ofList_snoc, get?_set, mem_append, mem_singleton]
    split_ifs with hk
    · subst hk
      have hval : some e.2 = some v ↔ (e.1, v) = e := by
        rw [Option.some.injEq, Prod.ext_iff]
        exact ⟨fun h => ⟨rfl, h.symm⟩, fun h => h.2.symm⟩
      rw [hval, or_iff_right (hfresh v)]
    · have hne : (k, v) ≠ e := fun h => hk (congrArg Prod.fst h)
      rw [ih hnodup, or_iff_left hne]

theorem alterItems_of_new {k : κ} {f : Option ν → ν}
    (h : k ∉ es.map Prod.fst) : alterItems k f es = es ++ [(k, f none)] := by
  induction es with
  | nil => rfl
  | cons e es ih =>
    rw [map_cons, mem_cons, not_or] at h
    unfold alterItems
    rw [if_neg (Ne.symm h.1), ih h.2, cons_append]

theorem items_ofList (hnodup : (es.map Prod.fst).Nodup) : (ofList es).items = es := by
  induction es using List.reverseRecOn with
  | nil => rfl
  | append_singleton es e ih =>
    rw [map_append, nodup_append] at hnodup
    obtain ⟨hnodup, -, hnew⟩ := hnodup
    have hitems := ih hnodup
    have hfresh : e.1 ∉ (ofList es).keys := by
      unfold keys
      rw [hitems]
      exact fun hmem => hnew e.1 hmem e.1 (by simp) rfl
    rw [ofList_snoc]
    change alterItems e.1 (fun _ => e.2) (ofList es).items = es ++ [e]
    rw [alterItems_of_new hfresh, hitems]

theorem values_set (k : κ) (v : ν) : (d.get? k = none ∧ (d.set k v).values = d.values ++ [v]) ∨
      ∃ old before after, d.get? k = some old ∧ d.values = before ++ old :: after ∧
        (d.set k v).values = before ++ v :: after := by
  obtain ⟨es, hnodup⟩ := d
  simp only [get?, set, alter, values]
  clear hnodup
  induction es with
  | nil => exact .inl ⟨rfl, rfl⟩
  | cons e es ih =>
    unfold alterItems
    by_cases hk : e.1 = k
    · rw [if_pos hk, List.find?_cons_of_pos (by simpa using hk)]
      exact .inr ⟨e.2, [], es.map Prod.snd, rfl, rfl, rfl⟩
    · rw [if_neg hk, List.find?_cons_of_neg (by simpa using hk)]
      obtain ⟨hnone, hvalues⟩ | ⟨old, before, after, hold, hbefore, hafter⟩ := ih
      · exact .inl ⟨hnone, congrArg (e.2 :: ·) hvalues⟩
      · exact .inr ⟨old, e.2 :: before, after, hold, congrArg (e.2 :: ·) hbefore,
          congrArg (e.2 :: ·) hafter⟩

end Dict

/-! ## Grouping -/

section

variable {α : Type*} (key : α → κ) (mk : α → ν) (merge : ν → ν → ν)

def groupInto (xs : List α) : Dict κ ν :=
  xs.foldl (fun d x => d.alter (key x) fun
    | none => mk x
    | some v => merge v (mk x)) .empty

variable {key mk merge}

theorem groupInto_snoc (xs : List α) (x : α) :
    groupInto key mk merge (xs ++ [x]) = (groupInto key mk merge xs).alter (key x) fun
      | none => mk x
      | some v => merge v (mk x) := by
  rw [groupInto, foldl_append]
  rfl

theorem groupInto_forall {P : κ → ν → Prop} {xs : List α} (hmk : ∀ x ∈ xs, P (key x) (mk x))
    (hmerge : ∀ x ∈ xs, ∀ v, P (key x) v → P (key x) (merge v (mk x))) {k : κ} {v : ν}
    (h : (groupInto key mk merge xs).get? k = some v) : P k v := by
  induction xs using List.reverseRecOn generalizing k v with
  | nil => cases h
  | append_singleton xs x ih =>
    have hold : ∀ {k v}, (groupInto key mk merge xs).get? k = some v → P k v :=
      ih (fun a ha => hmk a (by simp [ha])) fun a ha => hmerge a (by simp [ha])
    rw [groupInto_snoc, Dict.get?_alter] at h
    split_ifs at h with hk
    · subst hk
      cases hg : (groupInto key mk merge xs).get? (key x) with
      | none =>
        rw [hg] at h
        exact Option.some.inj h ▸ hmk x (by simp)
      | some w =>
        rw [hg] at h
        exact Option.some.inj h ▸ hmerge x (by simp) w (hold hg)
    · exact hold h

theorem groupInto_isSome {xs : List α} {k : κ} :
    ((groupInto key mk merge xs).get? k).isSome ↔ ∃ x ∈ xs, key x = k := by
  induction xs using List.reverseRecOn with
  | nil => simp [groupInto, Dict.get?_empty]
  | append_singleton xs x ih =>
    rw [groupInto_snoc, Dict.get?_alter]
    split_ifs with hk
    · simp [hk]
    · rw [ih]
      constructor
      · rintro ⟨a, ha, rfl⟩
        exact ⟨a, by simp [ha], rfl⟩
      · rintro ⟨a, ha, rfl⟩
        rcases mem_append.mp ha with ha | ha
        · exact ⟨a, ha, rfl⟩
        · exact absurd (congrArg key (mem_singleton.mp ha)) hk

theorem groupInto_get? (xs : List α) (k : κ) :
    (groupInto key mk merge xs).get? k =
      match xs.filter fun x => key x = k with
      | [] => none
      | x :: more => some (more.foldl (fun v x => merge v (mk x)) (mk x)) := by
  induction xs using List.reverseRecOn with
  | nil => rfl
  | append_singleton xs x ih =>
    rw [groupInto_snoc, Dict.get?_alter, filter_append]
    by_cases hk : k = key x
    · subst hk
      have hlast : ([x].filter fun y => key y = key x) = [x] := by simp
      rw [if_pos rfl, hlast, ih]
      cases xs.filter fun y => key y = key x with
      | nil => rfl
      | cons y more => simp only [cons_append, foldl_append, foldl_cons, foldl_nil]
    · have hlast : ([x].filter fun y => key y = k) = [] := by simp [Ne.symm hk]
      rw [if_neg hk, hlast, append_nil, ih]

theorem groupInto_weight {w : ν → ℕ} (hw : ∀ v x, w (merge v (mk x)) = w v + w (mk x)) (xs : List α)
    (k : κ) :
    ((groupInto key mk merge xs).get? k).elim 0 w =
      ((xs.filter fun x => key x = k).map fun x => w (mk x)).sum := by
  induction xs using List.reverseRecOn with
  | nil => rfl
  | append_singleton xs x ih =>
    rw [groupInto_snoc, Dict.get?_alter, filter_append, map_append, sum_append, ← ih]
    split_ifs with hk
    · subst hk
      cases (groupInto key mk merge xs).get? (key x) with
      | none => simp
      | some v => simp [hw]
    · simp [Ne.symm hk]

variable {β : Type*}

theorem groupInto_append (f : α → List β) (xs : List α) (k : κ) :
    (groupInto key f (· ++ ·) xs).get? k =
      if ∃ x ∈ xs, key x = k then some ((xs.filter fun x => key x = k).flatMap f) else none := by
  induction xs using List.reverseRecOn generalizing k with
  | nil => rfl
  | append_singleton xs x ih =>
    rw [groupInto_snoc, Dict.get?_alter, filter_append, flatMap_append]
    by_cases hk : k = key x
    · subst hk
      have hlast : ((([x] : List α).filter fun y => key y = key x).flatMap f) = f x := by simp
      rw [if_pos rfl, if_pos ⟨x, by simp, rfl⟩, ih, hlast]
      split_ifs with hsome
      · rfl
      · have hnil : xs.filter (fun y => key y = key x) = [] :=
          filter_eq_nil_iff.mpr fun y hy hkey => hsome ⟨y, hy, of_decide_eq_true hkey⟩
        rw [hnil]
        rfl
    · have hlast : (([x] : List α).filter fun y => key y = k) = [] := by simp [Ne.symm hk]
      rw [if_neg hk, ih, hlast, flatMap_nil, append_nil]
      refine if_congr ?_ rfl rfl
      simp [Ne.symm hk]

theorem Dict.perm_flatten_alter (d : Dict κ (List β)) (k : κ) (ys : List β) :
    (d.alter k fun old => old.getD [] ++ ys).values.flatten.Perm (d.values.flatten ++ ys) := by
  obtain ⟨es, h⟩ := d
  change ((Dict.alterItems k _ es).map Prod.snd).flatten.Perm ((es.map Prod.snd).flatten ++ ys)
  clear h
  induction es with
  | nil => simp [Dict.alterItems]
  | cons e es ih =>
    unfold Dict.alterItems
    split_ifs
    · simp only [Option.getD_some, map_cons, flatten_cons, append_assoc]
      exact .append_left _ perm_append_comm
    · simp only [map_cons, flatten_cons, append_assoc]
      exact .append_left _ ih

theorem groupInto_perm (f : α → List β) (xs : List α) :
    (groupInto key f (· ++ ·) xs).values.flatten.Perm (xs.flatMap f) := by
  induction xs using List.reverseRecOn with
  | nil => rfl
  | append_singleton xs x ih =>
    have hsnoc : groupInto key f (· ++ ·) (xs ++ [x]) =
        (groupInto key f (· ++ ·) xs).alter (key x) fun old => old.getD [] ++ f x := by
      rw [groupInto_snoc]
      congr
      funext old
      cases old <;> rfl
    rw [hsnoc, flatMap_append, flatMap_singleton]
    exact (Dict.perm_flatten_alter _ _ _).trans (ih.append_right _)

end

/-! ## Lists without repetition -/

section

variable {α : Type*} [DecidableEq α]

/-- `for x in xs: if x not in seen: seen.append(x)`. -/
def appendNew (seen xs : List α) : List α :=
  xs.foldl (fun seen x => if x ∈ seen then seen else seen ++ [x]) seen

theorem appendNew_singleton (seen : List α) (x : α) :
    appendNew seen [x] = if x ∈ seen then seen else seen ++ [x] := rfl

theorem mem_appendNew {seen xs : List α} {y : α} : y ∈ appendNew seen xs ↔ y ∈ seen ∨ y ∈ xs := by
  induction xs generalizing seen with
  | nil => simp [appendNew]
  | cons x xs ih =>
    have hstep : appendNew seen (x :: xs) =
        appendNew (if x ∈ seen then seen else seen ++ [x]) xs := rfl
    rw [hstep, ih, mem_cons]
    split_ifs with h
    · have : y = x → y ∈ seen := fun hy => hy ▸ h
      tauto
    · rw [mem_append, mem_singleton, or_assoc]

end

/-! ## Upserts -/

section

variable {α ρ : Type*} (key : α → κ) (upd : α → Option ρ → ρ)

def upsertAll (rows : List α) (s : κ → Option ρ) : κ → Option ρ :=
  rows.foldl (fun s r => Function.update s (key r) (some (upd r (s (key r))))) s

variable {key upd}

variable {rows : List α}

theorem upsertAll_of_notMem {s : κ → Option ρ} {k : κ}
    (h : ∀ r ∈ rows, key r ≠ k) : upsertAll key upd rows s k = s k := by
  induction rows generalizing s with
  | nil => rfl
  | cons r rows ih =>
    obtain ⟨hr, hrows⟩ := forall_mem_cons.mp h
    exact (ih hrows).trans (update_of_ne hr.symm _ _)

theorem upsertAll_of_mem {s : κ → Option ρ} (hnodup : (rows.map key).Nodup) {r : α}
    (hr : r ∈ rows) : upsertAll key upd rows s (key r) = some (upd r (s (key r))) := by
  induction rows generalizing s with
  | nil => cases hr
  | cons r' rows ih =>
    obtain ⟨hhead, htail⟩ := nodup_cons.mp (map_cons .. ▸ hnodup)
    have hfresh : ∀ a ∈ rows, key a ≠ key r' := fun a ha heq =>
      hhead (mem_map.mpr ⟨a, ha, heq⟩)
    rcases mem_cons.mp hr with rfl | hr
    · exact (upsertAll_of_notMem hfresh).trans (update_self ..)
    · refine (ih htail hr).trans ?_
      simp only [update_of_ne (hfresh r hr)]

theorem upsertAll_congr {s s' : κ → Option ρ} {k : κ} (h : s k = s' k) :
    upsertAll key upd rows s k = upsertAll key upd rows s' k := by
  induction rows generalizing s s' with
  | nil => exact h
  | cons r rows ih =>
    refine ih ?_
    by_cases hk : k = key r
    · subst hk
      simp only [update_self, h]
    · simp only [update_of_ne hk, h]

end

section

variable {κ' ρ : Type*} [DecidableEq κ'] {ref : ν → κ'} {d : Dict κ ν}

omit [DecidableEq κ] [DecidableEq κ'] in
theorem Dict.nodup_map_values (href : ∀ e ∈ d.items, ∀ e' ∈ d.items, ref e.2 = ref e'.2 → e.1 = e'.1) :
    (d.values.map ref).Nodup := by
  rw [Dict.values, map_map]
  refine List.Nodup.map_on ?_ (List.Nodup.of_map _ d.nodup)
  intro e he e' he' heq
  exact inj_on_of_nodup_map d.nodup he he' (href e he e' he' heq)

theorem upsertAll_values (upd : ν → Option ρ → ρ)
    (href : ∀ e ∈ d.items, ∀ e' ∈ d.items, ref e.2 = ref e'.2 → e.1 = e'.1)
    {rows : List ν} (hp : rows.Perm d.values) (p : ν → Bool) (s : κ' → Option ρ) {k : κ} {v : ν}
    (hv : d.get? k = some v) :
    upsertAll ref upd (rows.filter p) s (ref v) =
      if p v then some (upd v (s (ref v))) else s (ref v) := by
  have hmem : v ∈ rows :=
    hp.mem_iff.mpr (mem_map.mpr ⟨(k, v), Dict.mem_items_iff.mpr hv, rfl⟩)
  have hnodup : (rows.map ref).Nodup := ((hp.map ref).nodup_iff).mpr (Dict.nodup_map_values href)
  split_ifs with hpv
  · refine upsertAll_of_mem (hnodup.sublist (filter_sublist.map ref)) ?_
    exact mem_filter.mpr ⟨hmem, hpv⟩
  · refine upsertAll_of_notMem fun r hr heq => ?_
    obtain ⟨hr, hpr⟩ := mem_filter.mp hr
    rw [inj_on_of_nodup_map hnodup hr hmem heq] at hpr
    exact hpv hpr

theorem upsertAll_values_of_ne (ref : ν → κ') (upd : ν → Option ρ → ρ) {rows : List ν}
    (hp : rows.Perm d.values) (p : ν → Bool) (s : κ' → Option ρ) {r : κ'} (h : ∀ k v, d.get? k = some v → ref v ≠ r) :
    upsertAll ref upd (rows.filter p) s r = s r := by
  refine upsertAll_of_notMem fun v hv => ?_
  obtain ⟨e, he, rfl⟩ := mem_map.mp (hp.mem_iff.mp (mem_filter.mp hv).1)
  exact h e.1 e.2 (Dict.mem_items_iff.mp he)

omit [DecidableEq κ'] in
theorem foldl_groups {γ : Type*} (grp : κ' → γ)
    (run : γ → (κ' → Option ρ) → κ' → Option ρ)
    (hframe : ∀ g s k, grp k ≠ g → run g s k = s k)
    (hlocal : ∀ g s s' k, s k = s' k → run g s k = run g s' k) {gs : List γ} (hgs : gs.Nodup)
    (s : κ' → Option ρ) (k : κ') :
    (grp k ∈ gs → gs.foldl (fun s g => run g s) s k = run (grp k) s k) ∧
      (grp k ∉ gs → gs.foldl (fun s g => run g s) s k = s k) := by
  induction gs generalizing s with
  | nil => simp
  | cons g gs ih =>
    obtain ⟨hg, hgs⟩ := nodup_cons.mp hgs
    obtain ⟨hin, hout⟩ := ih hgs (run g s)
    rw [foldl_cons]
    constructor
    · intro hmem
      by_cases hk : grp k = g
      · rw [hout (hk ▸ hg), hk]
      · have hmem : grp k ∈ gs := (mem_cons.mp hmem).resolve_left hk
        rw [hin hmem]
        exact hlocal _ _ _ _ (hframe g s k hk)
    · intro hmem
      obtain ⟨hk, hmem⟩ := not_or.mp (mt mem_cons.mpr hmem)
      rw [hout hmem, hframe g s k hk]

end

end OmniSense.Library
