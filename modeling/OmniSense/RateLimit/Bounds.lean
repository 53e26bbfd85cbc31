import OmniSense.RateLimit.Limiters
import Mathlib.Tactic.FieldSimp
import Mathlib.Tactic.Positivity

/-! What the scripts guarantee over whole call sequences, and where the guarantee stops. -/

namespace OmniSense.RateLimit
open Library List

variable (p : BucketPolicy)

namespace BucketPolicy

theorem one_le_capacity_cast : (1 : ℚ) ≤ p.capacity := by exact_mod_cast p.one_le_capacity

theorem credit_add (a b : ℤ) : p.credit (a + b) = p.credit a + p.credit b := by
  simp only [credit, Int.cast_add]
  ring

@[simp] theorem credit_zero : p.credit 0 = 0 := by simp [credit]

theorem credit_nonneg {ms : ℤ} (h : 0 ≤ ms) : 0 ≤ p.credit ms := by
  have hr := p.refill_pos.le
  unfold credit
  positivity

theorem credit_mono {a b : ℤ} (h : a ≤ b) : p.credit a ≤ p.credit b := by
  have hd := p.credit_nonneg (sub_nonneg.mpr h)
  have hs := p.credit_add a (b - a)
  rw [add_sub_cancel] at hs
  linarith

end BucketPolicy

/-! ## One call on a bucket that holds both fields -/

/-- A key whose bucket was last written with `tokens` at `lastMs`. -/
def Key.written (tokens : ℚ) (lastMs : ℤ) (e : Option ℤ) : Key := ⟨⟨some tokens, some lastMs⟩, e⟩

theorem current_written (tokens : ℚ) (lastMs nowMs : ℤ) :
    (Bucket.mk (some tokens) (some lastMs)).current p nowMs =
      min (p.capacity : ℚ) (tokens + p.credit (max 0 (nowMs - lastMs))) := rfl

theorem current_absent (nowMs : ℤ) : Bucket.absent.current p nowMs = p.capacity := by
  simp [Bucket.current, Bucket.read, Bucket.absent]

variable {c : Call} {k : Key}

theorem acquireOne_of_not_liveAt (h : ¬k.LiveAt c.serverMs) :
    k.acquireOne p c = (⟨true, p.capacity - 1, 0⟩,
      .written (p.capacity - 1) c.nowMs (some (c.serverMs + p.ttlMs))) := by
  -- An evicted key cold-starts full, so the call that finds it gone is granted.
  simp only [Key.acquireOne, Key.fetch, if_neg h, acquireLua, current_absent, ge_iff_le,
    p.one_le_capacity_cast, if_true, Key.store, Key.written]

theorem acquireOne_granted {t : ℚ} (hl : k.LiveAt c.serverMs)
    (ht : k.hash.current p c.nowMs = t) (h : 1 ≤ t) :
    k.acquireOne p c = (⟨true, t - 1, 0⟩,
      .written (t - 1) c.nowMs (some (c.serverMs + p.ttlMs))) := by
  simp only [Key.acquireOne, Key.fetch, if_pos hl, acquireLua, ht, ge_iff_le, h, if_true,
    Key.store, Key.written]

theorem acquireOne_denied {t : ℚ} (hl : k.LiveAt c.serverMs)
    (ht : k.hash.current p c.nowMs = t) (h : t < 1) :
    k.acquireOne p c = (⟨false, t, ⌈(1 - t) / p.refillPerSecond * 1000⌉⟩,
      .written t c.nowMs (some (c.serverMs + p.ttlMs))) := by
  simp only [Key.acquireOne, Key.fetch, if_pos hl, acquireLua, ht, ge_iff_le, not_le.mpr h,
    if_false, Key.store, Key.written]

/-! ## Runs of acquires -/

def Survives : Option ℤ → List Call → Prop
  | _, [] => True
  | e, c :: cs => (∀ x ∈ e, c.serverMs < x) ∧ Survives (some (c.serverMs + p.ttlMs)) cs

instance Survives.decidable : (e : Option ℤ) → (cs : List Call) → Decidable (Survives p e cs)
  | _, [] => inferInstanceAs (Decidable True)
  | e, c :: cs =>
    have := Survives.decidable (some (c.serverMs + p.ttlMs)) cs
    have : Decidable (∀ x ∈ e, c.serverMs < x) := inferInstanceAs (Decidable (Key.LiveAt ⟨.absent, e⟩ _))
    inferInstanceAs (Decidable (_ ∧ _))

def allowedCount (grants : List Grant) : ℕ := grants.countP (·.allowed)

theorem acquireAll_cons (k : Key) (c : Call) (cs : List Call) :
    (k.acquireAll p (c :: cs)).1 =
      (k.acquireOne p c).1 :: ((k.acquireOne p c).2.acquireAll p cs).1 := by
  rw [Key.acquireAll]

theorem all_denied_iff {tokens : ℚ} (h : tokens < 1) (lastMs : ℤ) (e : Option ℤ) (cs : List Call) :
    (∀ g ∈ ((Key.written tokens lastMs e).acquireAll p cs).1, g.allowed = false) ↔
      Survives p e cs ∧ tokens + p.credit (ascent lastMs (cs.map Call.nowMs)) < 1 := by
  induction cs generalizing tokens lastMs e with
  | nil => simp [Key.acquireAll, Survives, ascent, h]
  | cons c cs ih =>
    rw [acquireAll_cons]
    simp only [forall_mem_cons, Survives, map_cons, ascent, p.credit_add]
    by_cases hl : (Key.written tokens lastMs e).LiveAt c.serverMs
    swap
    · rw [acquireOne_of_not_liveAt p hl]
      simp only [Bool.true_eq_false, false_and, false_iff, not_and]
      exact fun hs => absurd hs.1 hl
    have hcap := p.one_le_capacity_cast
    have htail := p.credit_nonneg (ascent_nonneg c.nowMs (cs.map Call.nowMs))
    have hcur := current_written p tokens lastMs c.nowMs
    rcases lt_or_ge (tokens + p.credit (max 0 (c.nowMs - lastMs))) 1 with hlow | hhigh
    · rw [min_eq_right (hlow.le.trans hcap)] at hcur
      rw [acquireOne_denied p hl hcur hlow]
      simp only [true_and, ih hlow, and_assoc, add_assoc]
      exact ⟨fun hs => ⟨hl, hs⟩, fun hs => hs.2⟩
    · rw [acquireOne_granted p hl hcur (le_min hcap hhigh)]
      simp only [Bool.true_eq_false, false_and, false_iff, not_and, not_lt]
      intro _
      linarith

theorem allowedCount_le {tokens : ℚ} (h : 0 ≤ tokens) (lastMs : ℤ) (e : Option ℤ)
    (cs : List Call) (hs : Survives p e cs) :
    (allowedCount ((Key.written tokens lastMs e).acquireAll p cs).1 : ℚ) ≤
      tokens + p.credit (ascent lastMs (cs.map Call.nowMs)) := by
  induction cs generalizing tokens lastMs e with
  | nil => simpa [Key.acquireAll, allowedCount, ascent] using h
  | cons c cs ih =>
    have hl : (Key.written tokens lastMs e).LiveAt c.serverMs := hs.1
    have hcur := current_written p tokens lastMs c.nowMs
    have hstep := p.credit_nonneg (le_max_left 0 (c.nowMs - lastMs))
    have hle := min_le_right (p.capacity : ℚ) (tokens + p.credit (max 0 (c.nowMs - lastMs)))
    have hnonneg : 0 ≤ min (p.capacity : ℚ) (tokens + p.credit (max 0 (c.nowMs - lastMs))) :=
      le_min (by linarith) (by linarith)
    rw [acquireAll_cons, map_cons, ascent, p.credit_add]
    rcases lt_or_ge (min (p.capacity : ℚ) (tokens + p.credit (max 0 (c.nowMs - lastMs)))) 1
      with hlow | hhigh
    · rw [acquireOne_denied p hl hcur hlow]
      have := ih hnonneg c.nowMs _ hs.2
      simp only [allowedCount, countP_cons, Bool.false_eq_true, if_false, add_zero] at this ⊢
      linarith
    · rw [acquireOne_granted p hl hcur hhigh]
      have := ih (sub_nonneg.mpr hhigh) c.nowMs _ hs.2
      simp only [allowedCount, countP_cons, if_true, Nat.cast_add, Nat.cast_one] at this ⊢
      linarith

/-! ## A parked bucket -/

def elapsed : List Call → ℤ
  | [] => 0
  | c :: cs => (cs.getLastD c).nowMs - c.nowMs

theorem observe_of_parks {serverMs : ℤ} {a : ObserveArgs} (h : a.Parks p (k.fetch serverMs)) :
    (k.observe p serverMs a).2 = .written (a.target p (k.fetch serverMs)) a.notBeforeMs
      (some (serverMs + a.ttlMs)) := by
  -- Parking writes the reset instant over the refill anchor.
  simp only [Key.observe, observeLua, h, not_true_eq_false, and_false, if_false, if_true,
    Key.store, Key.written]

theorem ascent_eq_elapsed {cs : List Call} (h : List.IsChain (· ≤ ·) ((c :: cs).map Call.nowMs)) :
    ascent c.nowMs (cs.map Call.nowMs) = elapsed (c :: cs) := by
  rw [map_cons] at h
  rw [ascent_of_chain h, elapsed]
  simp only [getLastD_eq_getLast?, List.getLast?_map, Option.getD_map]

/-- **A parked bucket refuses every call before the reset exactly when** the key outlives the
calls and the time between the first and the last of them does not refill a whole token. -/
theorem parked_stays_closed_iff (k : Key) (serverMs : ℤ) (a : ObserveArgs)
    (hpark : a.Parks p (k.fetch serverMs)) (cs : List Call)
    (hchain : List.IsChain (· ≤ ·) (cs.map Call.nowMs))
    (hbefore : ∀ c ∈ cs, c.nowMs < a.notBeforeMs) :
    (∀ g ∈ ((k.observe p serverMs a).2.acquireAll p cs).1, g.allowed = false) ↔
      Survives p (some (serverMs + a.ttlMs)) cs ∧
        a.target p (k.fetch serverMs) + p.credit (elapsed cs) < 1 := by
  rw [observe_of_parks p hpark, all_denied_iff p hpark.2]
  cases cs with
  | nil => simp [ascent, elapsed]
  | cons c cs =>
    -- The first call reads a future anchor, so only the steps after it earn credit.
    rw [← ascent_eq_elapsed hchain, map_cons,
      ascent_cons_of_le (hbefore c (mem_cons_self ..)).le]

def defaultBucketPolicy : BucketPolicy := ⟨10, 1, by decide, by decide⟩

/-- Two calls half a second apart do not reopen a default bucket parked for a minute. -/
theorem parked_stays_closed_half_second :
    (⟨0, 0, 60000, 80000⟩ : ObserveArgs).Parks defaultBucketPolicy (Key.cold.fetch 0) ∧
      ∀ g ∈ ((Key.cold.observe defaultBucketPolicy 0 ⟨0, 0, 60000, 80000⟩).2.acquireAll
        defaultBucketPolicy [⟨1000, 1000⟩, ⟨1500, 1500⟩]).1, g.allowed = false := by
  have hparks : (⟨0, 0, 60000, 80000⟩ : ObserveArgs).Parks defaultBucketPolicy
      (Key.cold.fetch 0) := by decide +kernel
  exact ⟨hparks, (parked_stays_closed_iff defaultBucketPolicy .cold 0 ⟨0, 0, 60000, 80000⟩ hparks
    [⟨1000, 1000⟩, ⟨1500, 1500⟩] (by decide) (by decide)).mpr (by decide +kernel)⟩

/-- An empty bucket parked for a minute at time zero grants a call two seconds later. -/
theorem parked_bucket_reopens :
    ¬∀ (p : BucketPolicy) (k : Key) (serverMs : ℤ) (a : ObserveArgs),
      a.Parks p (k.fetch serverMs) → ∀ cs : List Call,
        List.IsChain (· ≤ ·) (cs.map Call.nowMs) → (∀ c ∈ cs, c.nowMs < a.notBeforeMs) →
          ∀ g ∈ ((k.observe p serverMs a).2.acquireAll p cs).1, g.allowed = false := by
  intro h
  have := h defaultBucketPolicy .cold 0 ⟨0, 0, 60000, 80000⟩ (by decide +kernel)
    [⟨1000, 1000⟩, ⟨2000, 2000⟩] (by decide) (by decide)
  revert this
  decide +kernel

/-! ## Skewed callers -/

theorem acquireAll_cold (c : Call) (cs : List Call) :
    (Key.cold.acquireAll p (c :: cs)).1 = ⟨true, p.capacity - 1, 0⟩ ::
      ((Key.written (p.capacity - 1) c.nowMs (some (c.serverMs + p.ttlMs))).acquireAll p cs).1 := by
  have hl : Key.cold.LiveAt c.serverMs := by simp [Key.LiveAt, Key.cold]
  rw [acquireAll_cons, acquireOne_granted p hl (current_absent p c.nowMs) p.one_le_capacity_cast]

theorem allowedCount_cold_le (c : Call) (cs : List Call) (hs : Survives p none (c :: cs)) :
    (allowedCount (Key.cold.acquireAll p (c :: cs)).1 : ℚ) ≤
      p.capacity + p.credit (ascent c.nowMs (cs.map Call.nowMs)) := by
  have h := allowedCount_le p (sub_nonneg.mpr p.one_le_capacity_cast) c.nowMs _ cs hs.2
  rw [acquireAll_cold]
  simp only [allowedCount, countP_cons, if_true, Nat.cast_add, Nat.cast_one] at h ⊢
  linarith

/-- One token, refilled over `v` milliseconds. -/
def slowPolicy (v : ℤ) (h : 0 < v) : BucketPolicy where
  capacity := 1
  refillPerSecond := 1000 / v
  one_le_capacity := le_rfl
  refill_pos := by
    have : (0 : ℚ) < v := by exact_mod_cast h
    positivity

theorem slowPolicy_credit {v : ℤ} (h : 0 < v) (ms : ℤ) :
    (slowPolicy v h).credit ms = ms / v := by
  have : (v : ℚ) ≠ 0 := by exact_mod_cast h.ne'
  simp only [BucketPolicy.credit, slowPolicy]
  field_simp

theorem slowPolicy_ttlMs {v : ℤ} (h : 0 < v) : (slowPolicy v h).ttlMs = 2 * v := by
  have : (v : ℚ) ≠ 0 := by exact_mod_cast h.ne'
  have he : (slowPolicy v h).ttlSeconds * 1000 = ((2 * v : ℤ) : ℚ) := by
    simp only [BucketPolicy.ttlSeconds, slowPolicy]
    push_cast
    field_simp
  rw [BucketPolicy.ttlMs, he, Int.floor_intCast]

def burst (ts : List ℤ) : List Call := ts.map fun t => ⟨0, t⟩

theorem burst_nowMs (ts : List ℤ) : (burst ts).map Call.nowMs = ts := by
  simp [burst, Function.comp_def]

theorem burst_survives (ttl : 0 < p.ttlMs) (e : Option ℤ) (he : ∀ x ∈ e, 0 < x) (ts : List ℤ) :
    Survives p e (burst ts) := by
  induction ts generalizing e with
  | nil => trivial
  | cons t ts ih => exact ⟨he, ih _ (by simpa using ttl)⟩

theorem exists_overspend {t₀ : ℤ} {ts : List ℤ} (h : spread t₀ ts < ascent t₀ ts) :
    ∃ (p : BucketPolicy) (cs : List Call), cs.map Call.nowMs = t₀ :: ts ∧ Survives p none cs ∧
      p.capacity + p.credit (spread t₀ ts) < (allowedCount (Key.cold.acquireAll p cs).1 : ℚ) := by
  have hv : 0 < ascent t₀ ts := (spread_nonneg t₀ ts).trans_lt h
  have httl : 0 < (slowPolicy _ hv).ttlMs := by
    rw [slowPolicy_ttlMs]
    omega
  refine ⟨slowPolicy _ hv, burst (t₀ :: ts), burst_nowMs _,
    burst_survives _ httl _ (by simp) _, ?_⟩
  have hvq : (0 : ℚ) < ascent t₀ ts := by exact_mod_cast hv
  have hspread : (slowPolicy _ hv).credit (spread t₀ ts) < 1 := by
    rw [slowPolicy_credit, div_lt_one hvq]
    exact_mod_cast h
  have hagain : ∃ g ∈ ((Key.written ((slowPolicy _ hv).capacity - 1) t₀
      (some (0 + (slowPolicy _ hv).ttlMs))).acquireAll (slowPolicy _ hv) (burst ts)).1,
      g.allowed = true := by
    by_contra hnone
    push Not at hnone
    simp only [Bool.not_eq_true] at hnone
    have hc : ((slowPolicy _ hv).capacity : ℚ) - 1 = 0 := by simp [slowPolicy]
    rw [hc] at hnone
    have := ((all_denied_iff _ zero_lt_one _ _ _).mp hnone).2
    rw [burst_nowMs, slowPolicy_credit, div_self hvq.ne', zero_add] at this
    exact lt_irrefl _ this
  have hcount := countP_pos_iff.mpr hagain
  rw [show burst (t₀ :: ts) = ⟨0, t₀⟩ :: burst ts from rfl, acquireAll_cold]
  have hcap : ((slowPolicy _ hv).capacity : ℚ) = 1 := by simp [slowPolicy]
  have htwo : (2 : ℚ) ≤ allowedCount (⟨true, ((slowPolicy _ hv).capacity : ℚ) - 1, 0⟩ ::
      ((Key.written ((slowPolicy _ hv).capacity - 1) t₀
        (some (0 + (slowPolicy _ hv).ttlMs))).acquireAll (slowPolicy _ hv) (burst ts)).1) := by
    simp only [allowedCount, countP_cons, if_true]
    exact_mod_cast Nat.succ_le_succ hcount
  linarith

end OmniSense.RateLimit
