import OmniSense.RateLimit.Bounds
import Mathlib.Tactic.NormNum

/-! Both limiters keep the same levels: tokens that refill, are taken from all keys or from none,
and are clamped. They part only where a key is evicted at the moment it is written. -/

namespace OmniSense.RateLimit

open Library List

variable {p : BucketPolicy} {r : PolicyResolver} {ms : ℕ} {level : ℚ}

/-! ## What a bucket shows -/

namespace BucketPolicy

def Outlives (p : BucketPolicy) : Prop := p.refillPerSecond ≤ 2000 * p.capacity

instance (p : BucketPolicy) : Decidable p.Outlives := inferInstanceAs (Decidable (_ ≤ _))

theorem one_le_ttlMs_iff : 1 ≤ p.ttlMs ↔ p.Outlives := by
  unfold ttlMs ttlSeconds Outlives
  rw [Int.le_floor, div_mul_eq_mul_div, Int.cast_one, le_div_iff₀ p.refill_pos, one_mul]
  constructor <;> intro h <;> linarith

theorem capacity_le_credit (h : p.Outlives) {ms : ℤ} (hms : p.ttlMs ≤ ms) :
    (p.capacity : ℚ) ≤ p.credit ms := by
  -- A bucket that was empty when its key was written is full by the time the key expires.
  have hone := one_le_ttlMs_iff.mpr h
  have hfloor : p.ttlSeconds * 1000 < p.ttlMs + 1 := Int.lt_floor_add_one _
  have hdouble : p.ttlSeconds * 1000 ≤ 2 * p.ttlMs := by
    have hcast : (1 : ℚ) ≤ p.ttlMs := by exact_mod_cast hone
    linarith
  have hcredit : (p.capacity : ℚ) ≤ p.credit p.ttlMs := by
    have hr := p.refill_pos
    have httl : p.ttlSeconds * p.refillPerSecond = 2 * p.capacity := by
      exact div_mul_cancel₀ _ hr.ne'
    have hscaled := mul_le_mul_of_nonneg_right hdouble hr.le
    unfold credit
    linarith
  exact hcredit.trans (p.credit_mono hms)

end BucketPolicy

/-- From `ms` on, the key has the tokens of a bucket that is at this level now. -/
def KeyShows (p : BucketPolicy) (ms : ℕ) (k : Key) (level : ℚ) : Prop :=
  ∀ later : ℕ, ms ≤ later →
    (k.fetch later).current p later = refill (p.capacity : ℚ) (p.credit (later - ms)) level

def BucketShows (p : BucketPolicy) (ms : ℕ) (bucket : Option (ℚ × ℚ)) (level : ℚ) : Prop :=
  ∀ later : ℕ, ms ≤ later →
    InMemoryLimiter.refilled (later / 1000) p bucket =
      refill (p.capacity : ℚ) (p.credit (later - ms)) level

/-- What a script has written at `ms`. -/
def Key.fresh (p : BucketPolicy) (ms : ℕ) (tokens : ℚ) : Key :=
  .store ⟨some tokens, some ms⟩ ms p.ttlMs

theorem credit_now : refill (p.capacity : ℚ) (p.credit ((ms : ℤ) - ms)) level =
    min (p.capacity : ℚ) level := by
  rw [sub_self, p.credit_zero, refill, add_zero]

theorem credit_later_nonneg (p : BucketPolicy) {later : ℕ} (h : ms ≤ later) :
    0 ≤ p.credit (later - ms) :=
  p.credit_nonneg (sub_nonneg.mpr (by exact_mod_cast h))

theorem fresh_shows (h : p.Outlives) (hlevel : 0 ≤ level) :
    KeyShows p ms (.fresh p ms level) level := by
  intro later hlater
  have hle : (ms : ℤ) ≤ later := by exact_mod_cast hlater
  unfold Key.fetch
  split_ifs with hlive
  · change (Bucket.mk (some level) (some (ms : ℤ))).current p later = _
    rw [current_written, max_eq_right (sub_nonneg.mpr hle)]
    rfl
  · rw [current_absent]
    have hexpired : p.ttlMs ≤ later - ms := by
      by_contra hlt
      refine hlive fun e he => ?_
      cases he
      linarith [not_le.mp hlt]
    exact (refill_full (BucketPolicy.capacity_le_credit h hexpired) hlevel).symm

theorem bucket_shows : BucketShows p ms (some (level, (ms : ℚ) / 1000)) level := by
  intro later hlater
  have hle : ((ms : ℚ)) / 1000 ≤ later / 1000 := by
    have hcast : (ms : ℚ) ≤ later := by exact_mod_cast hlater
    linarith
  have hcredit : ((later : ℚ) / 1000 - ms / 1000) * p.refillPerSecond = p.credit (later - ms) := by
    unfold BucketPolicy.credit
    push_cast
    ring
  change min (p.capacity : ℚ) (level + max 0 ((later : ℚ) / 1000 - ms / 1000) *
    p.refillPerSecond) = _
  rw [max_eq_right (sub_nonneg.mpr hle), hcredit]
  rfl

theorem cold_key_shows : KeyShows p ms .cold p.capacity := by
  intro later hlater
  have hcold : Key.cold.fetch later = .absent := if_pos nofun
  rw [hcold, current_absent, refill, min_eq_left]
  have hcredit := credit_later_nonneg p hlater
  linarith

theorem cold_bucket_shows : BucketShows p ms none p.capacity := by
  intro later hlater
  have hcredit := credit_later_nonneg p hlater
  have hfull : InMemoryLimiter.refilled ((later : ℚ) / 1000) p none = p.capacity := by
    change min (p.capacity : ℚ) (p.capacity + max 0 ((later : ℚ) / 1000 - later / 1000) *
      p.refillPerSecond) = _
    rw [sub_self, max_self, zero_mul, add_zero, min_self]
  rw [hfull, refill, min_eq_left]
  linarith

section

variable {k : Key} {bucket : Option (ℚ × ℚ)} {since : ℕ}

theorem KeyShows.later (h : KeyShows p since k level) (hlater : since ≤ ms) :
    KeyShows p ms k (refill (p.capacity : ℚ) (p.credit (ms - since)) level) := by
  intro t ht
  rw [h t (hlater.trans ht), refill_refill (credit_later_nonneg p ht), ← p.credit_add,
    sub_add_sub_cancel']

theorem BucketShows.later (h : BucketShows p since bucket level) (hlater : since ≤ ms) :
    BucketShows p ms bucket (refill (p.capacity : ℚ) (p.credit (ms - since)) level) := by
  intro t ht
  rw [h t (hlater.trans ht), refill_refill (credit_later_nonneg p ht), ← p.credit_add,
    sub_add_sub_cancel']

theorem KeyShows.now (h : KeyShows p ms k level) (hcap : level ≤ p.capacity) :
    (k.fetch ms).current p ms = level := by
  rw [h ms le_rfl, credit_now, min_eq_right hcap]

theorem BucketShows.now (h : BucketShows p ms bucket level) (hcap : level ≤ p.capacity) :
    InMemoryLimiter.refilled ((ms : ℚ) / 1000) p bucket = level := by
  rw [h ms le_rfl, credit_now, min_eq_right hcap]

end

/-! ## `acquire` -/

theorem truncate_ms (ms : ℕ) : truncate ((ms : ℚ) / 1000 * 1000) = ms := by
  have hms : (ms : ℚ) / 1000 * 1000 = ms := by ring
  rw [hms, truncate, if_pos (Nat.cast_nonneg ms)]
  exact Int.floor_natCast ms

def Within (r : PolicyResolver) (level : String → ℚ) : Prop :=
  ∀ key, 0 ≤ level key ∧ level key ≤ (r.policyFor key).capacity

section

variable {levels : String → ℚ}

theorem acquireOne_fresh {k : Key} (h : KeyShows p ms k level) (hcap : level ≤ p.capacity)
    (hone : 1 ≤ level) :
    k.acquireOne p ⟨ms, ms⟩ = (⟨true, level - 1, 0⟩, .fresh p ms (level - 1)) := by
  simp only [Key.acquireOne, acquireLua, h.now hcap, ge_iff_le, hone, if_true]
  rfl

theorem acquireOne_refused {k : Key} (h : KeyShows p ms k level) (hcap : level ≤ p.capacity)
    (hone : level < 1) :
    k.acquireOne p ⟨ms, ms⟩ =
      (⟨false, level, ⌈(1 - level) / p.refillPerSecond * 1000⌉⟩, .fresh p ms level) := by
  simp only [Key.acquireOne, acquireLua, h.now hcap, ge_iff_le, not_le.mpr hone, if_false]
  rfl

theorem release_fresh (h : p.Outlives) (hcap : level ≤ p.capacity) :
    (Key.fresh p ms (level - 1)).release p ms = .fresh p ms level := by
  have hone := BucketPolicy.one_le_ttlMs_iff.mpr h
  have hlive : (Key.fresh p ms (level - 1)).fetch ms = ⟨some (level - 1), some ms⟩ := by
    refine if_pos fun e he => ?_
    cases he
    linarith
  simp only [Key.release, hlive, releaseLua, sub_add_cancel, min_eq_right hcap]
  rfl

theorem key_pays (hwithin : Within r levels) :
    Pays (fun key => (r.policyFor key).Outlives) 1 levels
      (TokenBucketLimiter.takeOne r ((ms : ℚ) / 1000) ms)
      (fun key k => k.release (r.policyFor key) ms)
      (fun key tokens => .fresh (r.policyFor key) ms tokens)
      (fun key k level => KeyShows (r.policyFor key) ms k level) where
  granted := by
    intro key k _ hshows hone
    dsimp only [TokenBucketLimiter.takeOne]
    rw [truncate_ms, acquireOne_fresh hshows (hwithin key).2 hone]
    rfl
  refused := by
    intro key k h hshows hone
    dsimp only [TokenBucketLimiter.takeOne]
    rw [truncate_ms, acquireOne_refused hshows (hwithin key).2 hone]
    exact ⟨rfl, fresh_shows h (hwithin key).1⟩
  paid := fun key h hone => fresh_shows h (sub_nonneg.mpr hone)
  given := by
    intro key h hone
    rw [release_fresh h (hwithin key).2]
    exact fresh_shows h (hwithin key).1

theorem bucket_pays (hwithin : Within r levels) :
    Pays (fun _ => True) 1 levels
      (InMemoryLimiter.takeOne r ((ms : ℚ) / 1000)) (InMemoryLimiter.giveBack r)
      (fun _ tokens => some (tokens, (ms : ℚ) / 1000))
      (fun key bucket level => BucketShows (r.policyFor key) ms bucket level) where
  granted := by
    intro key bucket _ hshows hone
    dsimp only [InMemoryLimiter.takeOne]
    rw [hshows.now (hwithin key).2, if_pos hone]
  refused := by
    intro key bucket _ hshows hone
    dsimp only [InMemoryLimiter.takeOne]
    rw [hshows.now (hwithin key).2, if_neg (not_le.mpr hone)]
    exact ⟨rfl, hshows⟩
  paid := fun _ _ _ => bucket_shows
  given := by
    intro key _ hone
    dsimp only [InMemoryLimiter.giveBack, Option.map_some]
    rw [sub_add_cancel, min_eq_right (hwithin key).2]
    exact bucket_shows

theorem nodup_eraseDups {α : Type} [DecidableEq α] (xs : List α) : xs.eraseDups.Nodup := by
  -- The tail is filtered before its own repeats go, so that the induction is on the length.
  induction hn : xs.length using Nat.strong_induction_on generalizing xs with
  | _ n ih =>
    cases xs with
    | nil => exact nodup_nil
    | cons x xs =>
      rw [eraseDups_cons, nodup_cons]
      constructor
      · rw [mem_eraseDups, mem_filter]
        simp
      · refine ih _ ?_ _ rfl
        rw [← hn]
        exact Nat.lt_succ_of_le (length_filter_le _ _)

theorem orderedUnique_nodup (keys : List String) : (orderedUnique keys).Nodup := nodup_eraseDups _

def serveLevels (r : PolicyResolver) (request : Request) (levels : String → ℚ) :
    Option String × (String → ℚ) :=
  match request with
  | .acquire keys => payAll 1 (orderedUnique keys) levels
  | .observe keys n =>
    (none, fun key => if key ∈ orderedUnique keys then
      min (levels key) (min ((max 0 n : ℤ) : ℚ) (r.policyFor key).capacity) else levels key)

theorem serveLevels_within (hwithin : Within r levels) (request : Request) :
    Within r (serveLevels r request levels).2 := by
  intro key
  obtain ⟨hzero, hcap⟩ := hwithin key
  cases request with
  | acquire keys =>
    unfold serveLevels payAll
    dsimp only
    split
    · exact ⟨hzero, hcap⟩
    · next hfind =>
      dsimp only
      split_ifs with hkey
      · have hone : 1 ≤ levels key := by
          simpa using List.find?_eq_none.mp hfind key hkey
        exact ⟨by linarith, by linarith⟩
      · exact ⟨hzero, hcap⟩
  | observe keys n =>
    dsimp only [serveLevels]
    split_ifs
    · have hobserved : (0 : ℚ) ≤ ((max 0 n : ℤ) : ℚ) := by exact_mod_cast le_max_left 0 n
      exact ⟨le_min hzero (le_min hobserved (Nat.cast_nonneg _)), (min_le_left _ _).trans hcap⟩
    · exact ⟨hzero, hcap⟩

theorem serveLevels_blocked {request : Request}
    (h : (serveLevels r request levels).1.isSome = true) :
    (serveLevels r request levels).2 = levels := by
  cases request with
  | acquire keys =>
    unfold serveLevels payAll at h ⊢
    dsimp only at h ⊢
    split at h
    · rfl
    · cases h
  | observe keys n => cases h

/-! ## `observe` -/

theorem observe_key_shows (h : p.Outlives) {k : Key} (hshows : KeyShows p ms k level)
    (hcap : level ≤ p.capacity) (n : ℤ) :
    KeyShows p ms
      (TokenBucketLimiter.observeKey ((ms : ℚ) / 1000) p ms ⟨some n, none, none, none⟩ k)
      (min level (min ((max 0 n : ℤ) : ℚ) p.capacity)) := by
  change KeyShows p ms (k.observe p ms ⟨truncate ((ms : ℚ) / 1000 * 1000), max 0 n, 0,
    truncate (p.ttlSeconds * 1000)⟩).2 _
  have httl : truncate (p.ttlSeconds * 1000) = p.ttlMs := by
    refine if_pos ?_
    have hseconds : 0 ≤ p.ttlSeconds :=
      div_nonneg (mul_nonneg zero_le_two (Nat.cast_nonneg _)) p.refill_pos.le
    linarith
  rw [truncate_ms, httl]
  have hcurrent := hshows.now hcap
  have hobserved : (0 : ℤ) ≤ max 0 n := le_max_left 0 n
  have hunparked : ¬(ObserveArgs.Parks ⟨ms, max 0 n, 0, p.ttlMs⟩ p (k.fetch ms)) := by
    rintro ⟨hpark, -⟩
    exact absurd hpark (not_lt.mpr (Nat.cast_nonneg ms))
  unfold Key.observe observeLua
  by_cases hlower : min ((max 0 n : ℤ) : ℚ) (p.capacity : ℚ) < level
  · have htarget : ObserveArgs.target ⟨ms, max 0 n, 0, p.ttlMs⟩ p (k.fetch ms) =
        min ((max 0 n : ℤ) : ℚ) p.capacity := by
      unfold ObserveArgs.target
      rw [hcurrent, if_pos ⟨hobserved, hlower⟩]
    rw [htarget, hcurrent, if_neg fun hkeep => absurd hlower (not_lt.mpr hkeep.1),
      if_neg hunparked, min_eq_right hlower.le]
    refine fresh_shows h (le_min ?_ (Nat.cast_nonneg _))
    exact_mod_cast hobserved
  · have htarget : ObserveArgs.target ⟨ms, max 0 n, 0, p.ttlMs⟩ p (k.fetch ms) = level := by
      unfold ObserveArgs.target
      rw [hcurrent, if_neg fun hboth => hlower hboth.2]
    rw [htarget, hcurrent, if_pos ⟨le_rfl, hunparked⟩, min_eq_left (not_lt.mp hlower)]
    exact hshows

theorem observe_bucket_shows {bucket : Option (ℚ × ℚ)} (hshows : BucketShows p ms bucket level)
    (hcap : level ≤ p.capacity) (n : ℤ) :
    BucketShows p ms (InMemoryLimiter.clamp ((ms : ℚ) / 1000) p n bucket)
      (min level (min ((max 0 n : ℤ) : ℚ) p.capacity)) := by
  dsimp only [InMemoryLimiter.clamp]
  rw [hshows.now hcap]
  split_ifs with hlower
  · rw [min_eq_right hlower.le]
    exact bucket_shows
  · rw [min_eq_left (not_lt.mp hlower)]
    exact hshows

/-! ## One request -/

def TokenBucketLimiter.Shows (r : PolicyResolver) (ms : ℕ) (s : Store) (levels : String → ℚ) : Prop :=
  ∀ key, KeyShows (r.policyFor key) ms (s key) (levels key)

def InMemoryLimiter.Shows (r : PolicyResolver) (ms : ℕ) (s : Buckets) (levels : String → ℚ) : Prop :=
  ∀ key, BucketShows (r.policyFor key) ms (s key) (levels key)

def blockedKey : Except QuotaError Unit → Option String
  | .ok () => none
  | .error err => some err.bucket

theorem blockedKey_failFast {σ : Type} (now : ℚ) (answer : Option (String × ℚ) × σ) :
    blockedKey (failFast now answer).1 = answer.1.map Prod.fst ∧
      (failFast now answer).2 = answer.2 := by
  rcases answer with ⟨_ | ⟨key, retryAfter⟩, s⟩ <;> exact ⟨rfl, rfl⟩

variable {key : String}

theorem mem_orderedUnique {keys : List String} (h : key ∈ orderedUnique keys) : key ≠ "" := by
  have hkept := (mem_filter.mp (mem_eraseDups.mp h)).2
  simpa using hkept

theorem payAll_nil : payAll 1 [] levels = (none, levels) := by
  unfold payAll
  simp

section

variable {σ : Type} {S : String → Prop} {take : String → σ → Option ℚ × σ} {give : String → σ → σ}
  {fresh : String → ℚ → σ} {Shows : String → σ → ℚ → Prop} {s : String → σ}

theorem acquire_shows (hpays : Pays S 1 levels take give fresh Shows) {keys : List String}
    (hkeys : ∀ key ∈ orderedUnique keys, S key) (hshows : ∀ key, Shows key (s key) (levels key))
    (now : ℚ) {answer : Except QuotaError Unit × (String → σ)}
    (hanswer : answer = if (orderedUnique keys).isEmpty then (.ok (), s)
      else failFast now (takeAll take give (orderedUnique keys) s)) :
    blockedKey answer.1 = (payAll 1 (orderedUnique keys) levels).1 ∧
      ∀ key, Shows key (answer.2 key) ((payAll 1 (orderedUnique keys) levels).2 key) := by
  subst hanswer
  split_ifs with hempty
  · rw [isEmpty_iff.mp hempty, payAll_nil]
    exact ⟨rfl, hshows⟩
  · rw [(blockedKey_failFast _ _).1, (blockedKey_failFast _ _).2]
    exact takeAll_spec hpays hkeys (orderedUnique_nodup keys) hshows

theorem observe_shows {keys : List String} {lower : String → σ → σ} {lowered : String → ℚ}
    (hshows : ∀ key, Shows key (s key) (levels key))
    (hlower : ∀ key ∈ orderedUnique keys, Shows key (lower key (s key)) (lowered key)) (key : String) :
    Shows key ((orderedUnique keys).foldl (fun s key => Function.update s key (lower key (s key))) s
        key) (if key ∈ orderedUnique keys then lowered key else levels key) := by
  rw [foldl_update (orderedUnique_nodup keys)]
  split_ifs with hkey
  · exact hlower key hkey
  · exact hshows key

end

theorem TokenBucketLimiter.serve_shows (hall : ∀ key ≠ "", (r.policyFor key).Outlives) {s : Store}
    (hwithin : Within r levels) {c : TimedRequest} (hshows : Shows r c.ms s levels) :
    blockedKey (serve r c s).1 = (serveLevels r c.request levels).1 ∧
      Shows r c.ms (serve r c s).2 (serveLevels r c.request levels).2 := by
  rcases c with ⟨ms, request⟩
  cases request with
  | acquire keys =>
    exact acquire_shows (key_pays hwithin) (fun key hkey => hall key (mem_orderedUnique hkey)) hshows
      ((ms : ℚ) / 1000) rfl
  | observe keys n =>
    exact ⟨rfl, observe_shows hshows fun key hkey =>
      observe_key_shows (hall key (mem_orderedUnique hkey)) (hshows key) (hwithin key).2 n⟩

theorem InMemoryLimiter.serve_shows {s : Buckets} (hwithin : Within r levels) {c : TimedRequest}
    (hshows : Shows r c.ms s levels) :
    blockedKey (serve r c s).1 = (serveLevels r c.request levels).1 ∧
      Shows r c.ms (serve r c s).2 (serveLevels r c.request levels).2 := by
  rcases c with ⟨ms, request⟩
  cases request with
  | acquire keys =>
    exact acquire_shows (bucket_pays hwithin) (fun _ _ => trivial) hshows ((ms : ℚ) / 1000) rfl
  | observe keys n =>
    exact ⟨rfl, observe_shows hshows fun key _ =>
      observe_bucket_shows (hshows key) (hwithin key).2 n⟩

/-! ## Runs -/

theorem serveAll_shows (hall : ∀ key ≠ "", (r.policyFor key).Outlives) {calls : List TimedRequest}
    {since ending : ℕ} {s : TokenBucketLimiter.Store} {buckets : InMemoryLimiter.Buckets}
    (hordered : calls.Pairwise fun a b => a.ms ≤ b.ms) (hsince : ∀ c ∈ calls, since ≤ c.ms)
    (hending : ∀ c ∈ calls, c.ms ≤ ending) (hle : since ≤ ending) (hwithin : Within r levels)
    (hs : TokenBucketLimiter.Shows r since s levels)
    (hbuckets : InMemoryLimiter.Shows r since buckets levels) :
    (serveAll (TokenBucketLimiter.serve r) calls s).1.map blockedKey =
        (serveAll (InMemoryLimiter.serve r) calls buckets).1.map blockedKey ∧
      ∃ levels', Within r levels' ∧
        TokenBucketLimiter.Shows r ending (serveAll (TokenBucketLimiter.serve r) calls s).2 levels' ∧
        InMemoryLimiter.Shows r ending (serveAll (InMemoryLimiter.serve r) calls buckets).2 levels' := by
  have hlater : ∀ ms, since ≤ ms → Within r fun key =>
      refill ((r.policyFor key).capacity : ℚ) ((r.policyFor key).credit (ms - since))
        (levels key) := by
    intro ms hms key
    exact ⟨refill_nonneg (Nat.cast_nonneg _) (hwithin key).1 (credit_later_nonneg _ hms),
      refill_le⟩
  induction calls generalizing since levels s buckets with
  | nil =>
    exact ⟨rfl, _, hlater ending hle, fun key => (hs key).later hle,
      fun key => (hbuckets key).later hle⟩
  | cons c calls ih =>
    obtain ⟨hfirst, hordered⟩ := pairwise_cons.mp hordered
    obtain ⟨hc, hending'⟩ := forall_mem_cons.mp hending
    have hsince' := hsince c mem_cons_self
    obtain ⟨hanswer, hs'⟩ := TokenBucketLimiter.serve_shows hall (hlater c.ms hsince')
      fun key => (hs key).later hsince'
    obtain ⟨hanswer', hbuckets'⟩ := InMemoryLimiter.serve_shows (hlater c.ms hsince')
      fun key => (hbuckets key).later hsince'
    have hwithin' := serveLevels_within (hlater c.ms hsince') c.request
    obtain ⟨hrest, hend⟩ := ih hordered hfirst hending' hc hwithin' hs' hbuckets' fun ms hms key =>
      ⟨refill_nonneg (Nat.cast_nonneg _) (hwithin' key).1 (credit_later_nonneg _ hms), refill_le⟩
    refine ⟨?_, hend⟩
    simp only [serveAll, map_cons]
    rw [hanswer, hanswer', hrest]

structure StandsIn (r : PolicyResolver) (calls : List TimedRequest) : Prop where
  answers : (serveAll (TokenBucketLimiter.serve r) calls fun _ => .cold).1.map blockedKey =
    (serveAll (InMemoryLimiter.serve r) calls fun _ => none).1.map blockedKey
  available : ∀ key ms, (∀ c ∈ calls, c.ms ≤ ms) →
    TokenBucketLimiter.available r
        (serveAll (TokenBucketLimiter.serve r) calls fun _ => .cold).2 key ms =
      InMemoryLimiter.available r
        (serveAll (InMemoryLimiter.serve r) calls fun _ => none).2 key ms
  -- A call that is refused next leaves both as they were.
  refusal : ∀ next : TimedRequest, (∀ c ∈ calls, c.ms ≤ next.ms) → ∀ key ms, next.ms ≤ ms →
    let s := (serveAll (TokenBucketLimiter.serve r) calls fun _ => .cold).2
    let buckets := (serveAll (InMemoryLimiter.serve r) calls fun _ => none).2
    ((blockedKey (TokenBucketLimiter.serve r next s).1).isSome = true →
      TokenBucketLimiter.available r (TokenBucketLimiter.serve r next s).2 key ms =
        TokenBucketLimiter.available r s key ms) ∧
    ((blockedKey (InMemoryLimiter.serve r next buckets).1).isSome = true →
      InMemoryLimiter.available r (InMemoryLimiter.serve r next buckets).2 key ms =
        InMemoryLimiter.available r buckets key ms)

theorem cold_within : Within r fun key => (r.policyFor key).capacity :=
  fun _ => ⟨Nat.cast_nonneg _, le_rfl⟩

theorem stands_in (hall : ∀ key ≠ "", (r.policyFor key).Outlives) {calls : List TimedRequest}
    (hordered : calls.Pairwise fun a b => a.ms ≤ b.ms) : StandsIn r calls := by
  have hrun : ∀ ending, (∀ c ∈ calls, c.ms ≤ ending) → _ := fun ending hending =>
    serveAll_shows hall hordered (fun c _ => Nat.zero_le c.ms) hending (Nat.zero_le ending)
      cold_within (fun _ => cold_key_shows) fun _ => cold_bucket_shows
  refine ⟨?_, fun key ms hms => ?_, fun next hnext key ms hms => ⟨fun hblocked => ?_,
    fun hblocked => ?_⟩⟩
  · have hbound : ∀ c ∈ calls, c.ms ≤ (calls.map TimedRequest.ms).sum :=
      fun c hc => le_sum_of_mem (mem_map_of_mem hc)
    exact (hrun _ hbound).1
  · obtain ⟨levels, -, hs, hbuckets⟩ := (hrun ms hms).2
    exact (hs key ms le_rfl).trans (hbuckets key ms le_rfl).symm
  · obtain ⟨levels, hwithin, hs, -⟩ := (hrun next.ms hnext).2
    obtain ⟨hanswer, hs'⟩ := TokenBucketLimiter.serve_shows hall hwithin hs
    rw [hanswer] at hblocked
    rw [serveLevels_blocked hblocked] at hs'
    exact (hs' key ms hms).trans (hs key ms hms).symm
  · obtain ⟨levels, hwithin, -, hbuckets⟩ := (hrun next.ms hnext).2
    obtain ⟨hanswer, hbuckets'⟩ := InMemoryLimiter.serve_shows hwithin hbuckets
    rw [hanswer] at hblocked
    rw [serveLevels_blocked hblocked] at hbuckets'
    exact (hbuckets' key ms hms).trans (hbuckets key ms hms).symm

/-! ## Keys that do not outlive the moment -/

theorem orderedUnique_single (h : key ≠ "") : orderedUnique [key] = [key] := by
  have hkept : [key].filter (· ≠ "") = [key] := by simp [h]
  unfold orderedUnique
  rw [hkept, eraseDups_cons, filter_nil, eraseDups_nil]

theorem evicted_available (hkey : key ≠ "") (h : ¬(r.policyFor key).Outlives) :
    TokenBucketLimiter.available r
        (TokenBucketLimiter.serve r ⟨0, .acquire [key]⟩ fun _ => .cold).2 key 0 =
      (r.policyFor key).capacity := by
  -- The key is evicted with the write, and the bucket is full again.
  have hgrant := @acquireOne_fresh (r.policyFor key) 0 _ .cold cold_key_shows le_rfl
    (r.policyFor key).one_le_capacity_cast
  have hafter : (TokenBucketLimiter.serve r ⟨0, .acquire [key]⟩ fun _ => .cold).2 key =
      .fresh (r.policyFor key) 0 ((r.policyFor key).capacity - 1) := by
    have htruncate := truncate_ms 0
    simp only [TokenBucketLimiter.serve, TokenBucketLimiter.acquire, orderedUnique_single hkey,
      isEmpty_cons, TokenBucketLimiter.attempt, TokenBucketLimiter.takeOne,
      TimedRequest.seconds, htruncate, takeAll, takeEach, hgrant, failFast]
    simp
  unfold TokenBucketLimiter.available
  rw [hafter]
  have hgone : (Key.fresh (r.policyFor key) 0 ((r.policyFor key).capacity - 1)).fetch ((0 : ℕ) : ℤ) =
      .absent := by
    refine if_neg fun hlive => h (BucketPolicy.one_le_ttlMs_iff.mp ?_)
    have hexpiry := hlive _ rfl
    linarith
  rw [hgone, current_absent]

/-- The limiters stand in for one another over all sequences of calls exactly when no key that can
be asked for is evicted in the millisecond of its write. -/
theorem limiters_agree_iff (r : PolicyResolver) :
    (∀ calls : List TimedRequest, (calls.Pairwise fun a b => a.ms ≤ b.ms) → StandsIn r calls) ↔
      ∀ key ≠ "", (r.policyFor key).refillPerSecond ≤ 2000 * (r.policyFor key).capacity := by
  constructor
  · intro hagree key hkey
    by_contra hevicted
    have havailable := (hagree [⟨0, .acquire [key]⟩] (pairwise_singleton _ _)).available key 0
      fun c hc => by rw [mem_singleton.mp hc]
    dsimp only [serveAll] at havailable
    rw [evicted_available hkey hevicted] at havailable
    have hshows := (InMemoryLimiter.serve_shows (c := ⟨0, .acquire [key]⟩) (cold_within (r := r))
      fun _ => cold_bucket_shows).2 key 0 le_rfl
    have hlevel : (serveLevels r (.acquire [key]) fun key => (r.policyFor key).capacity).2 key =
        (r.policyFor key).capacity - 1 := by
      have hnonzero : (r.policyFor key).capacity ≠ 0 :=
        Nat.one_le_iff_ne_zero.mp (r.policyFor key).one_le_capacity
      simp [serveLevels, payAll, orderedUnique_single hkey, hnonzero]
    rw [hlevel, credit_now] at hshows
    have hless := havailable.trans hshows
    rw [min_eq_right (by linarith)] at hless
    linarith
  · intro hall calls hordered
    exact stands_in hall hordered

theorem one_le_two_tokens : 1 ≤ 2 := by decide

def fastPolicy : BucketPolicy := ⟨2, 5000, one_le_two_tokens, by decide⟩

/-- The third call in one millisecond is refused in the process, and granted over Redis. -/
theorem evicted_bucket_granted :
    ¬ StandsIn ⟨fastPolicy, []⟩ (List.replicate 3 ⟨0, .acquire ["os:rl:host:a"]⟩) := by
  intro h
  have hanswers := h.answers
  revert hanswers
  decide +kernel

end

end OmniSense.RateLimit
