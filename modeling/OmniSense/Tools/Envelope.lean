import Mathlib.Algebra.BigOperators.Group.List.Basic
import Mathlib.Algebra.GroupWithZero.Nat
import Mathlib.Algebra.Order.Ring.Int
import Mathlib.Tactic.Common

/-! The byte ceiling on a tool's output: items go from the tail until the serialised envelope fits,
and the envelope counts what went. -/

namespace OmniSense.Tools

open List

/-! ## Texts and their bytes -/

/-- `len(text.encode("utf-8"))`. -/
def byteSize (text : List Char) : ℕ := (text.map Char.utf8Size).sum

theorem byteSize_append (a b : List Char) : byteSize (a ++ b) = byteSize a + byteSize b := by
  unfold byteSize
  rw [map_append, sum_append]

theorem byteSize_cons (c : Char) (text : List Char) :
    byteSize (c :: text) = c.utf8Size + byteSize text := by
  unfold byteSize
  rw [map_cons, sum_cons]

theorem byteSize_pos {text : List Char} (h : text ≠ []) : 0 < byteSize text := by
  cases text with
  | nil => exact absurd rfl h
  | cons c text =>
    rw [byteSize_cons]
    exact Nat.add_pos_left (Char.utf8Size_pos c) _

def join (texts : List (List Char)) : List Char := [','].intercalate texts

theorem byteSize_join (texts : List (List Char)) :
    byteSize (join texts) = (texts.map fun text => byteSize text + 1).sum - 1 := by
  unfold join
  induction texts with
  | nil => rfl
  | cons text texts ih =>
    cases texts with
    | nil => simp
    | cons next texts =>
      have hcomma : byteSize [','] = 1 := by decide
      rw [intercalate_cons_cons, byteSize_append, byteSize_append, ih, hcomma]
      simp only [map_cons, sum_cons]
      omega

/-- `str(n)`. -/
def intText : ℤ → List Char
  | .ofNat n => Nat.toDigits 10 n
  | .negSucc n => '-' :: Nat.toDigits 10 (n + 1)

def boolText (b : Bool) : List Char := (if b then "true" else "false").toList

variable (n : ℕ)

theorem byteSize_digits : byteSize (Nat.toDigits 10 n) = (Nat.toDigits 10 n).length := by
  have hall : ∀ size ∈ (Nat.toDigits 10 n).map Char.utf8Size, size = 1 := by
    intro size hmem
    obtain ⟨c, hc, rfl⟩ := mem_map.mp hmem
    have hdigit := Nat.isDigit_of_mem_toDigits (by decide) (by decide) hc
    simp only [Char.isDigit, Bool.and_eq_true, decide_eq_true_eq] at hdigit
    exact Char.utf8Size_eq_one_iff.mpr (UInt32.le_trans hdigit.2 (by decide))
  unfold byteSize
  rw [eq_replicate_of_mem hall, sum_replicate_nat, length_map, Nat.mul_one]

theorem length_digits_succ_le :
    (Nat.toDigits 10 (n + 1)).length ≤ (Nat.toDigits 10 n).length + 1 := by
  have hlt := (Nat.length_toDigits_le_iff (n := n) (b := 10) (by decide)
    Nat.length_toDigits_pos).mp le_rfl
  rw [Nat.length_toDigits_le_iff (by decide) (Nat.succ_pos _), pow_succ]
  omega

theorem length_digits_le_succ : (Nat.toDigits 10 n).length ≤ (Nat.toDigits 10 (n + 1)).length := by
  have hlt := (Nat.length_toDigits_le_iff (n := n + 1) (b := 10) (by decide)
    Nat.length_toDigits_pos).mp le_rfl
  rw [Nat.length_toDigits_le_iff (by decide) Nat.length_toDigits_pos]
  omega

theorem byteSize_intText_succ (n : ℤ) : byteSize (intText (n + 1)) ≤ byteSize (intText n) + 1 := by
  obtain n | n := n
  · change byteSize (Nat.toDigits 10 (n + 1)) ≤ byteSize (Nat.toDigits 10 n) + 1
    rw [byteSize_digits, byteSize_digits]
    exact length_digits_succ_le n
  · have hold : byteSize (intText (.negSucc n)) = (Nat.toDigits 10 (n + 1)).length + 1 := by
      change byteSize ('-' :: Nat.toDigits 10 (n + 1)) = _
      rw [byteSize_cons, byteSize_digits, Nat.add_comm]
      rfl
    have hdigits := length_digits_le_succ n
    rw [hold]
    cases n with
    | zero =>
      have hzero : byteSize (intText (Int.negSucc 0 + 1)) = 1 := by decide
      omega
    | succ n =>
      change byteSize ('-' :: Nat.toDigits 10 (n + 1)) ≤ _
      rw [byteSize_cons, byteSize_digits, show Char.utf8Size '-' = 1 from rfl]
      omega

/-! ## Envelopes -/

structure Encoder (ι : Type*) where
  dumps : ι → List Char
  nonempty : ∀ item, dumps item ≠ []

/-- A tool's output. The members of its class stand before and after the list that
`ITEMS_FIELD` names, if it names one; theirs are texts already. -/
structure BoundedResult (ι : Type*) where
  truncated : Bool
  dropped : ℤ
  before : List (String × List Char)
  items : Option (String × List ι)
  after : List (String × List Char)

structure ToolExecutionError where
  message : String
  bytes : ℕ
  maxBytes : ℤ

/-- The name is as `repr` shows it. -/
def tooLarge (name : String) (maxBytes : ℤ) (bytes : ℕ) : ToolExecutionError where
  message := s!"tool {name} returned {bytes} bytes and cannot be shrunk below {maxBytes}"
  bytes
  maxBytes

variable {ι : Type*}

namespace BoundedResult

variable (r : BoundedResult ι)

/-- `None` where nothing can go. -/
def shrink : Option (BoundedResult ι) :=
  match r.items with
  | none => none
  | some (name, items) =>
    if items = [] then none
    else some { r with
      items := some (name, items.dropLast)
      dropped := r.dropped + 1
      truncated := true }

def members (enc : Encoder ι) (r : BoundedResult ι) : List (String × List Char) :=
  [("truncated", boolText r.truncated), ("dropped", intText r.dropped)] ++ r.before ++
    (r.items.map fun named =>
      (named.1, ['['] ++ join (named.2.map enc.dumps) ++ [']'])).toList ++ r.after

def modelDumpJson (enc : Encoder ι) (r : BoundedResult ι) : List Char :=
  ['\x7b'] ++ join ((r.members enc).map fun field =>
    ['"'] ++ field.1.toList ++ ['"', ':'] ++ field.2) ++ ['\x7d']

def size (enc : Encoder ι) (r : BoundedResult ι) : ℕ := byteSize (r.modelDumpJson enc)

def itemCount : ℕ := (r.items.map fun named => named.2.length).getD 0

/-- `while size > spec.max_bytes and output.shrink()`. -/
def shrinkLoop (enc : Encoder ι) (maxBytes : ℤ) :
    ℕ → BoundedResult ι → Bool → BoundedResult ι × Bool
  | 0, r, shrunk => (r, shrunk)
  | fuel + 1, r, shrunk =>
    if (r.size enc : ℤ) ≤ maxBytes then (r, shrunk)
    else
      match r.shrink with
      | none => (r, shrunk)
      | some smaller => shrinkLoop enc maxBytes fuel smaller true

def enforceSize (enc : Encoder ι) (name : String) (maxBytes : ℤ) (r : BoundedResult ι) :
    Except ToolExecutionError (BoundedResult ι × Bool × ℕ) :=
  let (output, shrunk) := r.shrinkLoop enc maxBytes r.itemCount false
  if (output.size enc : ℤ) ≤ maxBytes then .ok (output, shrunk, output.size enc)
  else .error (tooLarge name maxBytes (output.size enc))

/-! ## The longest prefix that fits -/

def keeping (name : String) (items : List ι) (j : ℕ) : BoundedResult ι :=
  { r with
    items := some (name, items.take j)
    dropped := r.dropped + (items.length - j : ℕ)
    truncated := r.truncated || decide (j < items.length) }

variable {enc : Encoder ι} {r : BoundedResult ι} {name : String} {items : List ι} {maxBytes : ℤ}
  {j fuel : ℕ} {shrunk : Bool}

theorem keeping_length (hitems : r.items = some (name, items)) :
    r.keeping name items items.length = r := by
  unfold keeping
  rw [take_length, ← hitems, Nat.sub_self, decide_eq_false (Nat.lt_irrefl _), Bool.or_false,
    Nat.cast_zero, Int.add_zero]

theorem shrink_keeping_zero : (r.keeping name items 0).shrink = none := by
  unfold shrink keeping
  rw [take_zero]
  exact if_pos rfl

theorem shrink_keeping_succ (hj : j < items.length) :
    (r.keeping name items (j + 1)).shrink = some (r.keeping name items j) := by
  have hne : items.take (j + 1) ≠ [] := by
    rw [Ne, take_eq_nil_iff]
    rintro (h | rfl)
    · exact Nat.succ_ne_zero j h
    · exact Nat.not_lt_zero j hj
  have hlast : (items.take (j + 1)).dropLast = items.take j := by
    rw [take_succ_eq_append_getElem hj, dropLast_concat]
  have hcount : r.dropped + (items.length - (j + 1) : ℕ) + 1 = r.dropped + (items.length - j : ℕ) := by
    omega
  unfold shrink keeping
  dsimp only
  rw [if_neg hne, hlast, hcount, decide_eq_true hj, Bool.or_true]

theorem size_eq (r : BoundedResult ι) : r.size enc =
    1 + ((r.members enc).map fun field =>
      byteSize (['"'] ++ field.1.toList ++ ['"', ':'] ++ field.2) + 1).sum := by
  have hpos : 0 < ((r.members enc).map fun field =>
      byteSize (['"'] ++ field.1.toList ++ ['"', ':'] ++ field.2) + 1).sum := by
    unfold members
    rw [cons_append, cons_append, cons_append, map_cons, sum_cons]
    omega
  have hopen : byteSize ['\x7b'] = 1 := by decide
  have hclose : byteSize ['\x7d'] = 1 := by decide
  unfold size modelDumpJson
  rw [byteSize_append, byteSize_append, byteSize_join, map_map, hopen, hclose]
  change 1 + (((r.members enc).map fun field =>
      byteSize (['"'] ++ field.1.toList ++ ['"', ':'] ++ field.2) + 1).sum - 1) + 1 = _
  omega

theorem byteSize_join_take (hj : j < items.length) :
    byteSize (join ((items.take j).map enc.dumps)) + 1 ≤
      byteSize (join ((items.take (j + 1)).map enc.dumps)) := by
  have hpos := byteSize_pos (enc.nonempty items[j])
  rw [byteSize_join, byteSize_join, take_succ_eq_append_getElem hj, map_append,
    map_append, sum_append]
  simp only [map_cons, map_nil, sum_cons, sum_nil]
  omega

theorem size_keeping_le (hj : j < items.length) :
    (r.keeping name items j).size enc ≤ (r.keeping name items (j + 1)).size enc := by
  have htruncated : byteSize (boolText (r.keeping name items j).truncated) ≤
      byteSize (boolText (r.keeping name items (j + 1)).truncated) := by
    unfold keeping
    dsimp only
    rw [decide_eq_true hj, Bool.or_true]
    cases r.truncated || decide (j + 1 < items.length) <;> decide
  have hdropped : byteSize (intText (r.keeping name items j).dropped) ≤
      byteSize (intText (r.keeping name items (j + 1)).dropped) + 1 := by
    have hcount : (r.keeping name items j).dropped = (r.keeping name items (j + 1)).dropped + 1 := by
      unfold keeping
      dsimp only
      omega
    rw [hcount]
    exact byteSize_intText_succ _
  have hitems : byteSize (join ((items.take j).map enc.dumps)) + 1 ≤
      byteSize (join ((items.take (j + 1)).map enc.dumps)) := byteSize_join_take hj
  rw [size_eq, size_eq]
  unfold members
  simp only [map_append, sum_append, map_cons, map_nil, sum_cons,
    sum_nil, byteSize_append]
  unfold keeping at *
  simp only [Option.map_some, Option.toList_some, map_cons, map_nil, sum_cons,
    sum_nil, byteSize_append] at *
  omega

theorem size_keeping_mono {i : ℕ} (hij : i ≤ j) (hj : j ≤ items.length) :
    (r.keeping name items i).size enc ≤ (r.keeping name items j).size enc := by
  induction j, hij using Nat.le_induction with
  | base => exact le_rfl
  | succ j _ ih => exact (ih (by omega)).trans (size_keeping_le hj)

theorem shrinkLoop_keeping (enc : Encoder ι) (maxBytes : ℤ) (r : BoundedResult ι) (name : String)
    (hj : j ≤ items.length) : ∃ k ≤ j,
    (∀ fuel shrunk, j ≤ fuel → (r.keeping name items j).shrinkLoop enc maxBytes fuel shrunk =
      (r.keeping name items k, shrunk || decide (k < j))) ∧
    (k = 0 ∨ ((r.keeping name items k).size enc : ℤ) ≤ maxBytes) ∧
    ∀ i, k < i → i ≤ j → maxBytes < (r.keeping name items i).size enc := by
  induction j with
  | zero =>
    refine ⟨0, le_rfl, fun fuel shrunk _ => ?_, .inl rfl, fun i hi hle => absurd hi (by omega)⟩
    cases fuel with
    | zero => simp [shrinkLoop]
    | succ fuel =>
      unfold shrinkLoop
      rw [shrink_keeping_zero]
      simp
  | succ j ih =>
    by_cases hfits : ((r.keeping name items (j + 1)).size enc : ℤ) ≤ maxBytes
    · refine ⟨j + 1, le_rfl, fun fuel shrunk hfuel => ?_, .inr hfits,
        fun i hi hle => absurd hi (by omega)⟩
      obtain ⟨fuel, rfl⟩ : ∃ rest, fuel = rest + 1 := ⟨fuel - 1, by omega⟩
      rw [shrinkLoop, if_pos hfits, decide_eq_false (Nat.lt_irrefl _), Bool.or_false]
    · obtain ⟨k, hk, hloop, hstop, habove⟩ := ih (by omega)
      refine ⟨k, by omega, fun fuel shrunk hfuel => ?_, hstop, fun i hi hle => ?_⟩
      · obtain ⟨fuel, rfl⟩ : ∃ rest, fuel = rest + 1 := ⟨fuel - 1, by omega⟩
        rw [shrinkLoop, if_neg hfits, shrink_keeping_succ hj]
        dsimp only
        rw [hloop fuel true (by omega), Bool.true_or, decide_eq_true (by omega : k < j + 1),
          Bool.or_true]
      · rcases Nat.of_le_succ hle with hle | rfl
        · exact habove i hi hle
        · exact not_le.mp hfits

/-- The ceiling keeps the longest prefix whose envelope fits, and refuses an output exactly when its
envelope without items does not. -/
theorem enforceSize_longest (enc : Encoder ι) (toolName : String) (maxBytes : ℤ)
    {r : BoundedResult ι} {name : String} {items : List ι} (hitems : r.items = some (name, items)) :
    (∀ fuel, items.length ≤ fuel → r.shrinkLoop enc maxBytes fuel false =
      r.shrinkLoop enc maxBytes items.length false) ∧
    ((∃ error, r.enforceSize enc toolName maxBytes = .error error) ↔
      maxBytes < (r.keeping name items 0).size enc) ∧
    ∀ output shrunk bytes, r.enforceSize enc toolName maxBytes = .ok (output, shrunk, bytes) →
      bytes = output.size enc ∧ (bytes : ℤ) ≤ maxBytes ∧ ∃ k ≤ items.length,
        output = r.keeping name items k ∧ (shrunk = true ↔ k < items.length) ∧
        ∀ i ≤ items.length, ((r.keeping name items i).size enc : ℤ) ≤ maxBytes → i ≤ k := by
  obtain ⟨k, hk, hloop, hstop, habove⟩ :=
    shrinkLoop_keeping enc maxBytes r name (le_refl items.length)
  rw [keeping_length hitems] at hloop
  have hcount : r.itemCount = items.length := by
    unfold itemCount
    rw [hitems, Option.map_some, Option.getD_some]
  have hrun : r.enforceSize enc toolName maxBytes =
      if ((r.keeping name items k).size enc : ℤ) ≤ maxBytes then
        .ok (r.keeping name items k, decide (k < items.length), (r.keeping name items k).size enc)
      else .error (tooLarge toolName maxBytes ((r.keeping name items k).size enc)) := by
    unfold enforceSize
    rw [hcount, hloop _ _ le_rfl, Bool.false_or]
  refine ⟨fun fuel hfuel => (hloop fuel false hfuel).trans (hloop _ false le_rfl).symm, ?_, ?_⟩
  · rw [hrun]
    split_ifs with hfits
    · -- What fits is no smaller than what no item is left of.
      have hzero : (r.keeping name items 0).size enc ≤ (r.keeping name items k).size enc :=
        size_keeping_mono (Nat.zero_le k) hk
      refine iff_of_false (fun h => ?_) (not_lt.mpr ((Int.ofNat_le.mpr hzero).trans hfits))
      obtain ⟨error, herror⟩ := h
      cases herror
    · obtain rfl : k = 0 := hstop.resolve_right hfits
      exact iff_of_true ⟨_, rfl⟩ (not_le.mp hfits)
  · intro output shrunk bytes hok
    rw [hrun] at hok
    split_ifs at hok with hfits
    cases hok
    refine ⟨rfl, hfits, k, hk, rfl, decide_eq_true_iff, fun i hi hle => ?_⟩
    by_contra hlt
    exact absurd hle (not_le.mpr (habove i (not_le.mp hlt) hi))

def sampleEncoder : Encoder ℕ := ⟨Nat.toDigits 10, fun _ => Nat.toDigits_ne_nil⟩

def sampleOutput : BoundedResult ℕ :=
  ⟨false, 9, [("query", "\"q\"".toList)], some ("hits", [7, 8]), []⟩

/-- With room for one of two hits, where the counter takes a second digit. -/
theorem enforceSize_sample :
    sampleOutput.size sampleEncoder = 56 ∧
      (¬∃ error, sampleOutput.enforceSize sampleEncoder "'search'" 54 = .error error) ∧
      ∃ error, sampleOutput.enforceSize sampleEncoder "'search'" 52 = .error error := by
  refine ⟨by decide +kernel, ?_, ?_⟩
  · rw [(enforceSize_longest sampleEncoder "'search'" 54 (r := sampleOutput) rfl).2.1]
    decide +kernel
  · rw [(enforceSize_longest sampleEncoder "'search'" 52 (r := sampleOutput) rfl).2.1]
    decide +kernel

end BoundedResult

end OmniSense.Tools
