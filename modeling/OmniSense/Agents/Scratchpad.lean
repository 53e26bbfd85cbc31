import Mathlib.Data.String.Basic
import OmniSense.Library.Dict
import OmniSense.Library.Runs

/-! `agents/memory/scratchpad.py`: many writers on one hash, a command of the store at a time. The
cap is read in one command and the write is another one. -/

namespace OmniSense.Agents.Scratchpad

open Library Option

/-- `json.dumps`, which may raise, `json.loads`, and the caps that all the writers share. -/
structure Settings (α β : Type*) where
  dumps : α → Option String
  loads : String → Option β
  maxValueBytes : ℕ
  maxEntries : ℕ

structure Write (α : Type*) where
  field : String
  value : α
  encoded : String

/-- The stored hash, the puts that are about to write, and the fields and values of the puts that
are over, written or refused, the last one first. -/
structure System (α : Type*) where
  hash : Dict String String
  pending : List (Write α)
  done : List (String × α)

inductive Event (α : Type*)
  | put (field : String) (value : α)
  | write (index : ℕ)
  | get (field : String)
  | drop (fields : List String)
  | clear

variable {α β : Type*}

def initial : System α := ⟨.empty, [], []⟩

variable (hash : Dict String String)

def hlen : ℕ := hash.values.length

def hdel (fields : List String) : Dict String String :=
  fields.foldl Dict.erase hash

def encode (cfg : Settings α β) (value : α) : Option String :=
  (cfg.dumps value).filter fun encoded => encoded.utf8ByteSize ≤ cfg.maxValueBytes

/-- `put` up to the number of entries; `none` for a put that is refused. -/
def admitted (cfg : Settings α β) (s : System α) (field : String) (value : α) : Option (Write α) :=
  (encode cfg value).bind fun encoded =>
    if cfg.maxEntries ≤ hlen s.hash then none else some ⟨field, value, encoded⟩

def get (cfg : Settings α β) (s : System α) (field : String) (default : β) : β :=
  match s.hash.get? field with
  | none => default
  | some raw => (cfg.loads raw).getD default

def step (cfg : Settings α β) (s : System α) : Event α → Option (System α)
  | .put field value =>
    some (match admitted cfg s field value with
      | some write => { s with pending := s.pending ++ [write] }
      | none => { s with done := (field, value) :: s.done })
  | .write index =>
    s.pending[index]?.map fun write =>
      { hash := s.hash.set write.field write.encoded
        pending := s.pending.eraseIdx index
        done := (write.field, write.value) :: s.done }
  | .get _ => some s
  | .drop fields => some { s with hash := hdel s.hash fields }
  | .clear => some { s with hash := .empty }

def lastPut (s : System α) (field : String) : Option α :=
  (s.done.find? fun put => put.1 = field).map Prod.snd

def Stored (s : System α) (field : String) : Prop := (s.hash.get? field).isSome

instance (s : System α) (field : String) : Decidable (Stored s field) :=
  inferInstanceAs (Decidable (_ = true))

/-- A put that is refused is one of a field that is not there, and a write is of one that is there or
finds room. -/
def Meets (cfg : Settings α β) (s : System α) : Event α → Prop
  | .put field value => admitted cfg s field value = none → ¬Stored s field
  | .write index =>
    ∀ write ∈ s.pending[index]?, Stored s write.field ∨ hlen s.hash < cfg.maxEntries
  | .get _ | .drop _ | .clear => True

/-! ## The hash -/

theorem hlen_set (field value : String) :
    hlen (hash.set field value) = hlen hash + if (hash.get? field).isSome then 0 else 1 := by
  unfold hlen
  obtain ⟨hnone, hvalues⟩ | ⟨old, before, after, hold, hbefore, hafter⟩ :=
    hash.values_set field value
  · rw [hvalues, hnone]
    simp
  · rw [hbefore, hafter, hold]
    simp

theorem hlen_erase_le (field : String) :
    hlen (hash.erase field) ≤ hlen hash :=
  ((List.filter_sublist).map Prod.snd).length_le

theorem hlen_hdel_le (fields : List String) (hash : Dict String String) :
    hlen (hdel hash fields) ≤ hlen hash := by
  induction fields generalizing hash with
  | nil => exact le_rfl
  | cons field fields ih => exact (ih (hash.erase field)).trans (hlen_erase_le hash field)

theorem get?_of_hdel {fields : List String} {hash : Dict String String} {field raw : String}
    (h : (hdel hash fields).get? field = some raw) : hash.get? field = some raw := by
  induction fields generalizing hash with
  | nil => exact h
  | cons dropped fields ih =>
    have herase := ih h
    rw [Dict.get?_erase] at herase
    split_ifs at herase with heq
    exact herase

/-! ## What a step under the condition keeps -/

variable {cfg : Settings α β} {s s' t : System α}

/-- What is stored was encoded from the last put of its field, and there is not too much of it. -/
structure Inv (cfg : Settings α β) (s : System α) : Prop where
  capped : hlen s.hash ≤ cfg.maxEntries
  pending : ∀ write ∈ s.pending, cfg.dumps write.value = some write.encoded
  current : ∀ field raw, s.hash.get? field = some raw →
    ∃ value, lastPut s field = some value ∧ cfg.dumps value = some raw

theorem lastPut_cons (pending : List (Write α)) (field field' : String)
    (value : α) (done : List (String × α)) :
    lastPut ⟨hash, pending, (field, value) :: done⟩ field' =
      if field' = field then some value else lastPut ⟨hash, pending, done⟩ field' := by
  unfold lastPut
  by_cases h : field = field'
  · rw [List.find?_cons_of_pos (by simpa using h), if_pos h.symm]
    rfl
  · rw [List.find?_cons_of_neg (by simpa using h), if_neg (Ne.symm h)]

theorem inv_initial : Inv cfg (initial : System α) :=
  ⟨Nat.zero_le _, fun _ h => absurd h List.not_mem_nil,
    fun _ _ h => by simp [initial, Dict.get?_empty] at h⟩

theorem dumps_of_admit {field : String} {value : α} {write : Write α}
    (h : admitted cfg s field value = some write) : cfg.dumps write.value = some write.encoded := by
  obtain ⟨encoded, hencoded, hwrite⟩ := bind_eq_some_iff.mp h
  split_ifs at hwrite
  cases hwrite
  exact (filter_eq_some_iff.mp hencoded).1

theorem inv_put {field : String} {value : α} (hs : Inv cfg s)
    (hmeets : Meets cfg s (.put field value)) (h : step cfg s (.put field value) = some s') :
    Inv cfg s' := by
  cases h
  cases hadmit : admitted cfg s field value with
  | some write =>
    refine ⟨hs.capped, fun write' hmem => ?_, hs.current⟩
    rcases List.mem_append.mp hmem with hold | hnew
    · exact hs.pending write' hold
    · obtain rfl := List.mem_singleton.mp hnew
      exact dumps_of_admit hadmit
  | none =>
    have hnew := hmeets hadmit
    refine ⟨hs.capped, hs.pending, fun field' raw hraw => ?_⟩
    -- A refused put is the last one of a field that has nothing stale to read.
    have hne : field' ≠ field := by
      rintro rfl
      exact hnew (isSome_of_eq_some hraw)
    rw [lastPut_cons, if_neg hne]
    exact hs.current field' raw hraw

theorem inv_write {index : ℕ} (hs : Inv cfg s) (hmeets : Meets cfg s (.write index))
    (h : step cfg s (.write index) = some s') : Inv cfg s' := by
  obtain ⟨write, hwrite, rfl⟩ := map_eq_some_iff.mp h
  refine ⟨?_, fun write' hmem => hs.pending write' (List.mem_of_mem_eraseIdx hmem), ?_⟩
  · have hcapped := hs.capped
    rw [hlen_set]
    rcases hmeets write hwrite with hstored | hroom
    · rw [if_pos (show (s.hash.get? write.field).isSome = true from hstored)]
      exact hcapped
    · split_ifs <;> omega
  · intro field raw hraw
    rw [lastPut_cons]
    rw [Dict.get?_set] at hraw
    split_ifs at hraw ⊢ with heq
    · cases hraw
      exact ⟨write.value, rfl, hs.pending write (List.mem_of_getElem? hwrite)⟩
    · exact hs.current field raw hraw

theorem inv_step {e : Event α} (hs : Inv cfg s) (hmeets : Meets cfg s e)
    (h : step cfg s e = some s') : Inv cfg s' := by
  cases e with
  | put field value => exact inv_put hs hmeets h
  | write index => exact inv_write hs hmeets h
  | get field =>
    cases h
    exact hs
  | drop fields =>
    cases h
    exact ⟨(hlen_hdel_le fields s.hash).trans hs.capped, hs.pending,
      fun field raw hraw => hs.current field raw (get?_of_hdel hraw)⟩
  | clear =>
    cases h
    exact ⟨Nat.zero_le _, hs.pending, fun field raw hraw => by simp [Dict.get?_empty] at hraw⟩

/-! ## Runs -/

def Updates (cfg : Settings α β) (s : System α) : Event α → Prop
  | .put field value =>
    (encode cfg value).isSome → Stored s field → (admitted cfg s field value).isSome
  | .write _ | .get _ | .drop _ | .clear => True

def Current (cfg : Settings α β) (s : System α) : Prop :=
  ∀ field default, get cfg s field default = default ∨
    ∃ value, lastPut s field = some value ∧
      (cfg.dumps value).bind cfg.loads = some (get cfg s field default)

theorem current_of_inv (hs : Inv cfg s) : Current cfg s := by
  intro field default
  unfold get
  cases hraw : s.hash.get? field with
  | none => exact .inl rfl
  | some raw =>
    obtain ⟨value, hlast, hdumps⟩ := hs.current field raw hraw
    cases hloads : cfg.loads raw with
    | none => exact .inl (by simp [hloads])
    | some decoded =>
      exact .inr ⟨value, hlast, by rw [hdumps, bind_some, hloads]; simp [hloads]⟩

/-- In a run whose refused puts are of fields that are not there, and whose writes are of fields that
are there or find room, the cap holds, updates are accepted and no read is stale. -/
theorem scratchpad_sound {es : List (Event α)}
    (hall : Along (step cfg) (Meets cfg) initial es) (hrun : runs (step cfg) initial es = some t) :
    hlen t.hash ≤ cfg.maxEntries ∧ Current cfg t ∧
      Along (step cfg) (Updates cfg) (initial : System α) es := by
  have hinv : Inv cfg t := runs_keeps (fun _ _ _ => inv_step) inv_initial hall hrun
  refine ⟨hinv.capped, current_of_inv hinv, ?_⟩
  rw [along_iff] at hall ⊢
  intro before e later u heq hbefore
  have hmeets := hall before e later u heq hbefore
  cases e with
  | put field value =>
    intro _ hstored
    by_contra hrefused
    exact hmeets (not_isSome_iff_eq_none.mp hrefused) hstored
  | write | get | drop | clear => trivial

def sampleSettings : Settings Bool Bool where
  dumps b := some (if b then "true" else "false")
  loads raw := if raw = "true" then some true else if raw = "false" then some false else none
  maxValueBytes := 256 * 1024
  maxEntries := 1

/-- A flag that is put once and read. -/
theorem scratchpad_once :
    ∃ t, runs (step sampleSettings) initial [.put "seen" true, .write 0, .get "seen"] = some t ∧
      (hlen t.hash ≤ 1 ∧ Current sampleSettings t ∧
        Along (step sampleSettings) (Updates sampleSettings) initial
          [.put "seen" true, .write 0, .get "seen"]) ∧
      get sampleSettings t "seen" false = true := by
  have hall : Along (step sampleSettings) (Meets sampleSettings) initial
      [.put "seen" true, .write 0, .get "seen"] := by
    refine ⟨fun h => absurd h (by decide +kernel), fun s hs => ⟨fun write _ => ?_, ?_⟩⟩
    · cases hs
      exact .inr (by decide +kernel)
    · exact fun s' _ => ⟨trivial, fun _ _ => trivial⟩
  exact ⟨_, rfl, scratchpad_sound hall rfl, rfl⟩

/-- Two puts that both find room for one; and an update at the cap, which is refused and leaves the
value before it to be read. -/
theorem scratchpad_races :
    (∃ t, runs (step sampleSettings) initial
        [.put "seen" true, .put "done" true, .write 0, .write 0] = some t ∧
      sampleSettings.maxEntries < hlen t.hash) ∧
    ∃ s t, runs (step sampleSettings) initial [.put "seen" true, .write 0] = some s ∧
      ¬Updates sampleSettings s (.put "seen" false) ∧
      step sampleSettings s (.put "seen" false) = some t ∧ ¬Current sampleSettings t := by
  refine ⟨⟨_, rfl, by decide +kernel⟩, _, _, rfl, fun h => ?_, rfl, fun h => ?_⟩
  · exact absurd (h (by decide +kernel) rfl) (by decide +kernel)
  · obtain hdefault | ⟨value, hlast, hread⟩ := h "seen" false
    · exact absurd hdefault (by decide +kernel)
    · obtain rfl : false = value := Option.some.inj hlast
      exact absurd hread (by decide +kernel)

end OmniSense.Agents.Scratchpad
