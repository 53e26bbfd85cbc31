import OmniSense.RateLimit.Bounds

/-! When `OBSERVE_LUA` only ever tightens: the whole refill curve after an observation, against the
curve without it. -/

namespace OmniSense.RateLimit

def Key.available (p : BucketPolicy) (k : Key) (c : Call) : ℚ :=
  (k.fetch c.serverMs).current p c.nowMs

namespace ObserveArgs

/-- The script's local `new_last`. -/
def anchor (a : ObserveArgs) (p : BucketPolicy) (b : Bucket) : ℤ :=
  if a.Parks p b then a.notBeforeMs else a.nowMs

def Writes (a : ObserveArgs) (p : BucketPolicy) (b : Bucket) : Prop :=
  ¬(a.target p b ≥ b.current p a.nowMs ∧ ¬a.Parks p b)

instance (a : ObserveArgs) (p : BucketPolicy) (b : Bucket) : Decidable (a.Writes p b) :=
  inferInstanceAs (Decidable ¬_)

end ObserveArgs

/-- A write leaves a park in place: the key does not expire earlier, and where the refill clock is
set back, no more is earned up to the old anchor than the observation took away. -/
structure KeepsPark (p : BucketPolicy) (k : Key) (serverMs : ℤ) (a : ObserveArgs) : Prop where
  expiry : ∃ e ∈ k.expiresAt, e ≤ serverMs + a.ttlMs
  anchor : ∀ tokens lastMs, k.hash = ⟨some tokens, some lastMs⟩ → a.anchor p k.hash < lastMs →
    a.target p k.hash + p.credit (lastMs - a.anchor p k.hash) ≤ tokens

variable (p : BucketPolicy)

/-! ## The refill curve -/

theorem current_le_capacity (b : Bucket) (nowMs : ℤ) : b.current p nowMs ≤ p.capacity :=
  min_le_left _ _

theorem current_mono (b : Bucket) {t t' : ℤ} (h : t ≤ t') : b.current p t ≤ b.current p t' := by
  obtain ⟨tokens, lastMs⟩ := b
  cases tokens with
  | none =>
    have hfull : ∀ t, (Bucket.mk none lastMs).current p t = p.capacity := by
      intro t
      simp [Bucket.current, Bucket.read]
    rw [hfull, hfull]
  | some tokens =>
    cases lastMs with
    | none =>
      have hfull : ∀ t, (Bucket.mk (some tokens) none).current p t = p.capacity := by
        intro t
        simp [Bucket.current, Bucket.read]
      rw [hfull, hfull]
    | some lastMs =>
      rw [current_written, current_written]
      have hcredit := p.credit_mono (max_le_max_left 0 (sub_le_sub_right h lastMs))
      exact min_le_min_left _ (by linarith)

variable {p} {k : Key} {serverMs : ℤ} {a : ObserveArgs}

theorem Key.LiveAt.earlier {s s' : ℤ} (h : k.LiveAt s') (hle : s ≤ s') : k.LiveAt s :=
  fun e he => hle.trans_lt (h e he)

variable {c : Call}

theorem available_of_not_liveAt (h : ¬k.LiveAt c.serverMs) : k.available p c = p.capacity := by
  unfold Key.available Key.fetch
  rw [if_neg h, current_absent]

theorem available_of_liveAt (h : k.LiveAt c.serverMs) :
    k.available p c = k.hash.current p c.nowMs := by
  unfold Key.available Key.fetch
  rw [if_pos h]

theorem available_le_capacity (c : Call) : k.available p c ≤ p.capacity :=
  current_le_capacity p _ _

theorem available_mono {c c' : Call} (hs : c.serverMs ≤ c'.serverMs) (hn : c.nowMs ≤ c'.nowMs) :
    k.available p c ≤ k.available p c' := by
  by_cases hlive : k.LiveAt c'.serverMs
  · rw [available_of_liveAt hlive, available_of_liveAt (hlive.earlier hs)]
    exact current_mono p k.hash hn
  · rw [available_of_not_liveAt hlive]
    exact available_le_capacity c

/-! ## One observation -/

theorem target_le_current (a : ObserveArgs) (b : Bucket) : a.target p b ≤ b.current p a.nowMs := by
  unfold ObserveArgs.target
  split_ifs with hlower
  · exact hlower.2.le
  · exact le_refl _

theorem nowMs_le_anchor (a : ObserveArgs) (b : Bucket) : a.nowMs ≤ a.anchor p b := by
  unfold ObserveArgs.anchor
  split_ifs with hparks
  · exact hparks.1.le
  · exact le_refl _

theorem observe_of_writes (h : a.Writes p (k.fetch serverMs)) : (k.observe p serverMs a).2 =
    .written (a.target p (k.fetch serverMs)) (a.anchor p (k.fetch serverMs))
      (some (serverMs + a.ttlMs)) := by
  unfold Key.observe observeLua
  rw [if_neg h]
  rfl

theorem observe_of_not_writes (h : ¬a.Writes p (k.fetch serverMs)) :
    (k.observe p serverMs a).2 = k := by
  unfold Key.observe observeLua
  rw [if_pos (not_not.mp h)]

theorem written_of_not_full {b : Bucket} {nowMs : ℤ} (h : b.current p nowMs < p.capacity) :
    ∃ tokens lastMs, b = ⟨some tokens, some lastMs⟩ := by
  obtain ⟨tokens, lastMs⟩ := b
  cases tokens with
  | none => exact absurd h (by simp [Bucket.current, Bucket.read])
  | some tokens =>
    cases lastMs with
    | none => exact absurd h (by simp [Bucket.current, Bucket.read])
    | some lastMs => exact ⟨tokens, lastMs, rfl⟩

theorem KeepsPark.tightens (h : KeepsPark p k serverMs a) (hlive : k.LiveAt serverMs)
    (hwrites : a.Writes p (k.fetch serverMs)) (hnotfull : k.hash.current p a.nowMs < p.capacity)
    (hn : a.nowMs ≤ c.nowMs) :
    (k.observe p serverMs a).2.available p c ≤ k.available p c := by
  have hfetch : k.fetch serverMs = k.hash := if_pos hlive
  rw [observe_of_writes hwrites, hfetch]
  by_cases hgone : k.LiveAt c.serverMs
  swap
  · rw [available_of_not_liveAt hgone]
    exact available_le_capacity c
  have hstays : (Key.written (a.target p k.hash) (a.anchor p k.hash)
      (some (serverMs + a.ttlMs))).LiveAt c.serverMs := by
    obtain ⟨e, he, hle⟩ := h.expiry
    rintro _ ⟨⟩
    exact (hgone e he).trans_le hle
  obtain ⟨tokens, lastMs, hhash⟩ := written_of_not_full hnotfull
  have hanchor := nowMs_le_anchor (p := p) a k.hash
  have htarget := target_le_current (p := p) a k.hash
  rw [available_of_liveAt hgone, available_of_liveAt hstays]
  unfold Key.written
  rw [current_written]
  have hkeeps := h.anchor tokens lastMs hhash
  generalize a.anchor p k.hash = n at *
  generalize a.target p k.hash = target at *
  rw [hhash, current_written] at htarget ⊢
  refine min_le_min_left _ ?_
  rcases le_or_gt lastMs n with hle | hlt
  · -- What was refilled up to now is counted in the target.
    have hrefilled : target ≤ tokens + p.credit (max 0 (a.nowMs - lastMs)) :=
      htarget.trans (min_le_right _ _)
    have hsum := p.credit_add (max 0 (a.nowMs - lastMs)) (max 0 (c.nowMs - n))
    have hcredit : p.credit (max 0 (a.nowMs - lastMs) + max 0 (c.nowMs - n)) ≤
        p.credit (max 0 (c.nowMs - lastMs)) := p.credit_mono (by omega)
    linarith
  · -- The refill clock is set back from `lastMs` to `n`.
    have hsum := p.credit_add (lastMs - n) (max 0 (c.nowMs - lastMs))
    have hcredit : p.credit (max 0 (c.nowMs - n)) ≤
        p.credit ((lastMs - n) + max 0 (c.nowMs - lastMs)) := p.credit_mono (by omega)
    have hearned := hkeeps hlt
    linarith

theorem keepsPark_of_tightens (hlive : k.LiveAt serverMs)
    (hwrites : a.Writes p (k.fetch serverMs)) (hnotfull : k.hash.current p a.nowMs < p.capacity)
    (h : ∀ c : Call, serverMs ≤ c.serverMs → a.nowMs ≤ c.nowMs →
      (k.observe p serverMs a).2.available p c ≤ k.available p c) : KeepsPark p k serverMs a := by
  have hfetch : k.fetch serverMs = k.hash := if_pos hlive
  rw [observe_of_writes hwrites, hfetch] at h
  have hexpiry : ∃ e ∈ k.expiresAt, e ≤ serverMs + a.ttlMs := by
    by_contra hlater
    push Not at hlater
    -- When the new key is gone, the old one would still be there.
    have hstill : k.LiveAt (max serverMs (serverMs + a.ttlMs)) := fun e he =>
      max_lt (hlive e he) (hlater e he)
    have hexpired : ¬(Key.written (a.target p k.hash) (a.anchor p k.hash)
        (some (serverMs + a.ttlMs))).LiveAt (max serverMs (serverMs + a.ttlMs)) := fun halive =>
      absurd (halive _ rfl) (not_lt.mpr (le_max_right _ _))
    have hreopened := h ⟨max serverMs (serverMs + a.ttlMs), a.nowMs⟩ (le_max_left _ _) (le_refl _)
    rw [available_of_not_liveAt hexpired, available_of_liveAt hstill] at hreopened
    exact absurd hreopened (not_le.mpr hnotfull)
  refine ⟨hexpiry, fun tokens lastMs hhash hlt => ?_⟩
  obtain ⟨e, he, hle⟩ := hexpiry
  have hstays : (Key.written (a.target p k.hash) (a.anchor p k.hash)
      (some (serverMs + a.ttlMs))).LiveAt serverMs := by
    rintro _ ⟨⟩
    exact (hlive e he).trans_le hle
  have hanchor := nowMs_le_anchor (p := p) a k.hash
  have hcurve := h ⟨serverMs, lastMs⟩ (le_refl _) (hanchor.trans hlt.le)
  rw [available_of_liveAt hstays, available_of_liveAt hlive] at hcurve
  unfold Key.written at hcurve
  rw [current_written] at hcurve
  generalize a.anchor p k.hash = n at *
  generalize a.target p k.hash = target at *
  rw [hhash, current_written] at hcurve hnotfull
  have hold : max 0 (lastMs - lastMs) = 0 := by omega
  have hparked : max 0 (a.nowMs - lastMs) = 0 := by omega
  have hback : max 0 (lastMs - n) = lastMs - n := by omega
  rw [hparked, p.credit_zero, add_zero] at hnotfull
  rw [hold, hback, p.credit_zero, add_zero] at hcurve
  have htokens : tokens < p.capacity := by
    rcases min_lt_iff.mp hnotfull with hcap | htokens
    · exact absurd hcap (lt_irrefl _)
    · exact htokens
  rw [min_eq_right htokens.le] at hcurve
  rcases min_le_iff.mp hcurve with hcap | hearned
  · exact absurd hcap (not_le.mpr htokens)
  · exact hearned

/-- **An observation only tightens exactly when** the bucket was full, nothing is written, or the
write leaves a park in place. -/
theorem observe_tightens_iff (p : BucketPolicy) (k : Key) (serverMs : ℤ) (a : ObserveArgs) :
    (∀ c : Call, serverMs ≤ c.serverMs → a.nowMs ≤ c.nowMs →
      (k.observe p serverMs a).2.available p c ≤ k.available p c) ↔
    k.available p ⟨serverMs, a.nowMs⟩ = p.capacity ∨ ¬a.Writes p (k.fetch serverMs) ∨
      KeepsPark p k serverMs a := by
  by_cases hfull : k.available p ⟨serverMs, a.nowMs⟩ = p.capacity
  · refine iff_of_true (fun c hs hn => ?_) (.inl hfull)
    have hlater := available_mono (p := p) (k := k) (c := ⟨serverMs, a.nowMs⟩) hs hn
    rw [hfull] at hlater
    exact (available_le_capacity c).trans hlater
  by_cases hwrites : a.Writes p (k.fetch serverMs)
  swap
  · refine iff_of_true (fun c _ _ => ?_) (.inr (.inl hwrites))
    rw [observe_of_not_writes hwrites]
  have hnotfull : k.available p ⟨serverMs, a.nowMs⟩ < p.capacity :=
    lt_of_le_of_ne (available_le_capacity _) hfull
  have hlive : k.LiveAt serverMs := by
    by_contra hgone
    exact hfull (available_of_not_liveAt hgone)
  rw [available_of_liveAt hlive] at hnotfull
  constructor
  · exact fun h => .inr (.inr (keepsPark_of_tightens hlive hwrites hnotfull h))
  · rintro (hfull' | hsilent | hkeeps) c _ hn
    · exact absurd hfull' hfull
    · exact absurd hwrites hsilent
    · exact hkeeps.tightens hlive hwrites hnotfull hn

/-- A bucket parked for a minute, and told a second later that ten are enough. -/
theorem earlier_reset_reopens : ¬∀ (p : BucketPolicy) (k : Key) (serverMs : ℤ) (a : ObserveArgs)
    (c : Call), serverMs ≤ c.serverMs → a.nowMs ≤ c.nowMs →
      (k.observe p serverMs a).2.available p c ≤ k.available p c := by
  intro h
  have hreopened := h defaultBucketPolicy
    (Key.cold.observe defaultBucketPolicy 0 ⟨0, 0, 60000, 80000⟩).2 1000 ⟨1000, 0, 11000, 30000⟩
    ⟨20000, 20000⟩ (by decide) (by decide)
  exact absurd hreopened (by decide +kernel)

end OmniSense.RateLimit
