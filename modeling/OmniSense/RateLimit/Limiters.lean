import Mathlib.Algebra.Order.Floor.Ring
import Mathlib.Data.Rat.Floor
import OmniSense.Library.Meters

/-! The shared token bucket and its limiters. -/

namespace OmniSense.RateLimit

/-! The shared token bucket: the three Lua scripts and the arguments the limiter hands them.
Token counts are exact rationals, clock readings are whole milliseconds. -/

/-- Capacity and refill rate for one bucket key; `__post_init__` rejects anything else. -/
structure BucketPolicy where
  capacity : ℕ
  refillPerSecond : ℚ
  one_le_capacity : 1 ≤ capacity
  refill_pos : 0 < refillPerSecond

namespace BucketPolicy

def ttlSeconds (p : BucketPolicy) : ℚ := 2 * p.capacity / p.refillPerSecond

def ttlMs (p : BucketPolicy) : ℤ := ⌊p.ttlSeconds * 1000⌋

/-- Tokens gained in `ms` milliseconds, before the capacity is applied. -/
def credit (p : BucketPolicy) (ms : ℤ) : ℚ := ms / 1000 * p.refillPerSecond

end BucketPolicy

/-- The bucket hash. A missing field is what `HMGET` reports as nil. -/
structure Bucket where
  tokens : Option ℚ
  lastRefillMs : Option ℤ
  deriving DecidableEq

def Bucket.absent : Bucket := ⟨none, none⟩

def Bucket.read (b : Bucket) (p : BucketPolicy) (nowMs : ℤ) : ℚ × ℤ :=
  match b.tokens, b.lastRefillMs with
  | some tokens, some lastMs => (tokens, lastMs)
  | _, _ => (p.capacity, nowMs)

/-- Tokens in the bucket at `nowMs`, with the negative-elapsed guard. -/
def Bucket.current (b : Bucket) (p : BucketPolicy) (nowMs : ℤ) : ℚ :=
  let (tokens, lastMs) := b.read p nowMs
  min (p.capacity : ℚ) (tokens + p.credit (max 0 (nowMs - lastMs)))

structure Grant where
  allowed : Bool
  tokens : ℚ
  retryAfterMs : ℤ
  deriving DecidableEq

/-- `ACQUIRE_LUA` on the hash; the `PEXPIRE` is applied by `Key.acquire`. -/
def acquireLua (p : BucketPolicy) (nowMs : ℤ) (cost : ℚ) (b : Bucket) : Grant × Bucket :=
  let tokens := b.current p nowMs
  if tokens ≥ cost then
    (⟨true, tokens - cost, 0⟩, ⟨some (tokens - cost), some nowMs⟩)
  else
    (⟨false, tokens, ⌈(cost - tokens) / p.refillPerSecond * 1000⌉⟩, ⟨some tokens, some nowMs⟩)

/-- `RELEASE_LUA`. An absent bucket has nothing to give back. -/
def releaseLua (p : BucketPolicy) (amount : ℚ) (b : Bucket) : Option ℚ × Bucket :=
  match b.tokens with
  | none => (none, b)
  | some tokens =>
    let credited := min (p.capacity : ℚ) (tokens + amount)
    (some credited, { b with tokens := some credited })

/-- `ARGV` of `OBSERVE_LUA`; `observed` is -1 when unknown and `notBeforeMs` 0 when absent. -/
structure ObserveArgs where
  nowMs : ℤ
  observed : ℤ
  notBeforeMs : ℤ
  ttlMs : ℤ
  deriving DecidableEq

namespace ObserveArgs

def target (a : ObserveArgs) (p : BucketPolicy) (b : Bucket) : ℚ :=
  if a.observed ≥ 0 ∧ min (a.observed : ℚ) p.capacity < b.current p a.nowMs then
    min (a.observed : ℚ) p.capacity
  else b.current p a.nowMs

/-- The script's local `park`. -/
def Parks (a : ObserveArgs) (p : BucketPolicy) (b : Bucket) : Prop :=
  a.notBeforeMs > a.nowMs ∧ a.target p b < 1

instance (a : ObserveArgs) (p : BucketPolicy) (b : Bucket) : Decidable (a.Parks p b) :=
  inferInstanceAs (Decidable (_ ∧ _))

end ObserveArgs

/-- `OBSERVE_LUA`. The second component is `none` when the script returns without a write. -/
def observeLua (p : BucketPolicy) (a : ObserveArgs) (b : Bucket) : ℚ × Option Bucket :=
  if a.target p b ≥ b.current p a.nowMs ∧ ¬a.Parks p b then (b.current p a.nowMs, none)
  else
    (a.target p b,
      some ⟨some (a.target p b), some (if a.Parks p b then a.notBeforeMs else a.nowMs)⟩)

/-! ## Keys that expire -/

structure Key where
  hash : Bucket
  expiresAt : Option ℤ
  deriving DecidableEq

namespace Key

def cold : Key := ⟨.absent, none⟩

/-- Whether the key is still there at server time `serverMs`. -/
def LiveAt (k : Key) (serverMs : ℤ) : Prop := ∀ e ∈ k.expiresAt, serverMs < e

instance (k : Key) (serverMs : ℤ) : Decidable (k.LiveAt serverMs) :=
  decidable_of_iff (k.expiresAt.all fun e => decide (serverMs < e)) (by
    cases h : k.expiresAt <;> simp [LiveAt, h])

def fetch (k : Key) (serverMs : ℤ) : Bucket := if k.LiveAt serverMs then k.hash else .absent

/-- `HSET` followed by `PEXPIRE`. -/
def store (b : Bucket) (serverMs ttlMs : ℤ) : Key := ⟨b, some (serverMs + ttlMs)⟩

end Key

/-- One `EVALSHA`: when the server runs it and what the calling host's clock says. -/
structure Call where
  serverMs : ℤ
  nowMs : ℤ
  deriving DecidableEq

/-- `_acquire_one`: `ACQUIRE_LUA` with a cost of one and the policy's own TTL. -/
def Key.acquireOne (p : BucketPolicy) (k : Key) (c : Call) : Grant × Key :=
  let (grant, b) := acquireLua p c.nowMs 1 (k.fetch c.serverMs)
  (grant, .store b c.serverMs p.ttlMs)

/-- A sequence of `_acquire_one` calls on one key, with everything they were told. -/
def Key.acquireAll (p : BucketPolicy) : Key → List Call → List Grant × Key
  | k, [] => ([], k)
  | k, c :: cs =>
    let (grant, k₁) := k.acquireOne p c
    let (grants, k₂) := k₁.acquireAll p cs
    (grant :: grants, k₂)

def Key.observe (p : BucketPolicy) (k : Key) (serverMs : ℤ) (a : ObserveArgs) : ℚ × Key :=
  match observeLua p a (k.fetch serverMs) with
  | (tokens, none) => (tokens, k)
  | (tokens, some b) => (tokens, .store b serverMs a.ttlMs)

/-! ## The arguments `observe` computes from a provider's headers -/

structure RateLimitHint where
  remaining : Option ℤ
  limit : Option ℤ
  resetAt : Option ℚ
  retryAfterSeconds : Option ℚ

def maxParkSeconds : ℚ := 3600

def epochThresholdSeconds : ℚ := 1000000000

def truthy : Option ℚ → Option ℚ
  | some q => if q = 0 then none else some q
  | none => none

/-- `_not_before`: the instant the provider says our budget returns, as UNIX seconds. -/
def notBefore (h : RateLimitHint) (now : ℚ) : Option ℚ :=
  match truthy h.retryAfterSeconds with
  | some wait => some (now + min wait maxParkSeconds)
  | none =>
    match truthy h.resetAt with
    | none => none
    | some reset =>
      if reset ≤ 0 then none
      else
        let moment := if reset ≥ epochThresholdSeconds then reset else now + reset
        if moment ≤ now then none else some (min moment (now + maxParkSeconds))

/-- Python's `int()` on a float: truncation towards zero. -/
def truncate (q : ℚ) : ℤ := if 0 ≤ q then ⌊q⌋ else ⌈q⌉

/-- `TokenBucketLimiter.observe` for one key; `none` when the hint says nothing. -/
def observeArgs (p : BucketPolicy) (h : RateLimitHint) (now : ℚ) : Option ObserveArgs :=
  let remaining := match h.remaining, truthy h.retryAfterSeconds with
    | none, some _ => some 0
    | r, _ => r
  match remaining, notBefore h now with
  | none, none => none
  | r, nb =>
    let ttl := match nb with
      | none => p.ttlSeconds
      | some instant => p.ttlSeconds + max 0 (instant - now)
    some
      { nowMs := truncate (now * 1000)
        observed := match r with | none => -1 | some n => max 0 n
        notBeforeMs := match nb with | none => 0 | some instant => truncate (instant * 1000)
        ttlMs := truncate (ttl * 1000) }

/-! `TokenBucketLimiter` over the scripts and `InMemoryLimiter`, for the calls that do not wait.
A call reads its clock at one instant, `now` in seconds; the server has its own milliseconds. -/

section

open Library

structure QuotaError where
  bucket : String
  retryAfterSeconds : ℚ
  resetAt : ℚ
  deriving DecidableEq

structure PolicyResolver where
  defaultPolicy : BucketPolicy
  policies : List (String × BucketPolicy)

def PolicyResolver.policyFor (r : PolicyResolver) (key : String) : BucketPolicy :=
  (r.policies.lookup key).getD r.defaultPolicy

def orderedUnique (keys : List String) : List String := (keys.filter (· ≠ "")).eraseDups

/-- `RELEASE_LUA` on a key, for one token. -/
def Key.release (p : BucketPolicy) (k : Key) (serverMs : ℤ) : Key :=
  match releaseLua p 1 (k.fetch serverMs) with
  | (none, _) => k
  | (some _, b) => .store b serverMs p.ttlMs

/-- The end of an `acquire` with no timeout: it returns, or raises for the bucket that blocks. -/
def failFast {σ : Type} (now : ℚ) : Option (String × ℚ) × σ → Except QuotaError Unit × σ
  | (none, s) => (.ok (), s)
  | (some (key, retryAfter), s) => (.error ⟨key, retryAfter, now + retryAfter⟩, s)

variable (r : PolicyResolver) (now : ℚ)

namespace TokenBucketLimiter

abbrev Store := String → Key

variable (serverMs : ℤ)

/-- `_acquire_one` on the bucket of a key: the wait it asks for when it refuses. -/
def takeOne (key : String) (k : Key) : Option ℚ × Key :=
  let (grant, k') := k.acquireOne (r.policyFor key) ⟨serverMs, truncate (now * 1000)⟩
  (if grant.allowed then none else some (grant.retryAfterMs / 1000), k')

/-- One round of the loop of `acquire`. -/
def attempt (ordered : List String) (s : Store) : Option (String × ℚ) × Store :=
  takeAll (takeOne r now serverMs) (fun key k => k.release (r.policyFor key) serverMs) ordered s

/-- `acquire(keys, timeout_seconds=None)`. -/
def acquire (keys : List String) (s : Store) : Except QuotaError Unit × Store :=
  let ordered := orderedUnique keys
  if ordered.isEmpty then (.ok (), s) else failFast now (attempt r now serverMs ordered s)

def observeKey (p : BucketPolicy) (serverMs : ℤ) (hint : RateLimitHint) (k : Key) : Key :=
  match observeArgs p hint now with
  | none => k
  | some args => (k.observe p serverMs args).2

def observe (keys : List String) (hint : RateLimitHint) (s : Store) : Store :=
  (orderedUnique keys).foldl
    (fun s key =>
      Function.update s key (observeKey now (r.policyFor key) serverMs hint (s key))) s

end TokenBucketLimiter

namespace InMemoryLimiter

abbrev Buckets := String → Option (ℚ × ℚ)

/-- `_refilled`: absent buckets cold-start full. -/
def refilled (p : BucketPolicy) (bucket : Option (ℚ × ℚ)) : ℚ :=
  let (tokens, last) := bucket.getD (p.capacity, now)
  min (p.capacity : ℚ) (tokens + max 0 (now - last) * p.refillPerSecond)

def takeOne (key : String) (bucket : Option (ℚ × ℚ)) : Option ℚ × Option (ℚ × ℚ) :=
  let tokens := refilled now (r.policyFor key) bucket
  if tokens ≥ 1 then (none, some (tokens - 1, now))
  else (some ((1 - tokens) / (r.policyFor key).refillPerSecond), bucket)

def giveBack (key : String) (bucket : Option (ℚ × ℚ)) : Option (ℚ × ℚ) :=
  bucket.map fun (tokens, last) => (min ((r.policyFor key).capacity : ℚ) (tokens + 1), last)

/-- One round of the loop of `acquire`. -/
def attempt (ordered : List String) (s : Buckets) : Option (String × ℚ) × Buckets :=
  takeAll (takeOne r now) (giveBack r) ordered s

/-- `acquire(keys, timeout_seconds=None)`. -/
def acquire (keys : List String) (s : Buckets) : Except QuotaError Unit × Buckets :=
  let ordered := orderedUnique keys
  if ordered.isEmpty then (.ok (), s) else failFast now (attempt r now ordered s)

/-- The clamp of `observe` on one bucket. -/
def clamp (p : BucketPolicy) (remaining : ℤ) (bucket : Option (ℚ × ℚ)) : Option (ℚ × ℚ) :=
  let target := min ((max 0 remaining : ℤ) : ℚ) p.capacity
  if target < refilled now p bucket then some (target, now) else bucket

def observe (keys : List String) (hint : RateLimitHint) (s : Buckets) : Buckets :=
  let remaining := match hint.remaining, truthy hint.retryAfterSeconds with
    | none, some _ => some 0
    | remaining, _ => remaining
  match remaining with
  | none => s
  | some n =>
    (orderedUnique keys).foldl
      (fun s key => Function.update s key (clamp now (r.policyFor key) n (s key))) s

end InMemoryLimiter

/-! ## Sequential calls -/

inductive Request
  | acquire (keys : List String)
  -- With a hint that has `remaining` and nothing else.
  | observe (keys : List String) (remaining : ℤ)

structure TimedRequest where
  ms : ℕ
  request : Request

variable (c : TimedRequest)

def TimedRequest.seconds : ℚ := c.ms / 1000

def TokenBucketLimiter.serve (s : Store) : Except QuotaError Unit × Store :=
  match c.request with
  | .acquire keys => acquire r c.seconds c.ms keys s
  | .observe keys remaining =>
    (.ok (), observe r c.seconds c.ms keys ⟨some remaining, none, none, none⟩ s)

def InMemoryLimiter.serve (s : Buckets) : Except QuotaError Unit × Buckets :=
  match c.request with
  | .acquire keys => acquire r c.seconds keys s
  | .observe keys remaining =>
    (.ok (), observe r c.seconds keys ⟨some remaining, none, none, none⟩ s)

def serveAll {σ β : Type} (serve : TimedRequest → σ → β × σ) : List TimedRequest → σ → List β × σ
  | [], s => ([], s)
  | c :: cs, s =>
    let answer := serve c s
    let rest := serveAll serve cs answer.2
    (answer.1 :: rest.1, rest.2)

def TokenBucketLimiter.available (s : Store) (key : String) (ms : ℕ) : ℚ :=
  ((s key).fetch ms).current (r.policyFor key) ms

def InMemoryLimiter.available (s : Buckets) (key : String) (ms : ℕ) : ℚ :=
  refilled (ms / 1000) (r.policyFor key) (s key)

end

end OmniSense.RateLimit
