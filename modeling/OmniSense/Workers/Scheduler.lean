import Mathlib.Algebra.Order.Field.Rat
import Mathlib.Algebra.Order.Ring.Abs
import Mathlib.Tactic.NormNum
import OmniSense.Library.Blocks
import OmniSense.Library.Dict
import OmniSense.Library.Runs

/-! The scheduler of the connectors: when a connector runs next, which ones a tick claims, and how
failures are counted between claims. Times are seconds, and their arithmetic is exact. -/

namespace OmniSense.Workers.Scheduler

open Library List

def MAX_BACKOFF_SECONDS : ℚ := 6 * 60 * 60

def JITTER_FRACTION : ℚ := 1 / 10

/-- `datetime` ends with the year 9999. -/
def lastInstant : ℚ := 253402300800

inductive SchedulerError
  | value (message : String)
  | overflow
  deriving DecidableEq

variable (intervalSeconds : ℚ)

variable (consecutiveFailures : ℕ)

def baseSeconds : ℚ :=
  if 0 < consecutiveFailures then
    min (intervalSeconds * 2 ^ min consecutiveFailures 16) MAX_BACKOFF_SECONDS
  else intervalSeconds

def waitSeconds (jitter : ℚ) : ℚ :=
  max 1 (baseSeconds intervalSeconds consecutiveFailures * (1 + jitter))

def nextRunAt (now jitter : ℚ) :
    Except SchedulerError ℚ :=
  if intervalSeconds ≤ 0 then
    .error (.value s!"interval_seconds must be positive, got {intervalSeconds}")
  else
    let scheduled := now + waitSeconds intervalSeconds consecutiveFailures jitter
    if scheduled < lastInstant then .ok scheduled else .error .overflow

/-! ## The schedule -/

/-- A schedule row, of which the repository has no class; a count may be `NULL`. -/
structure ScheduleRow where
  enabled : Bool
  nextRunAt : ℚ
  intervalSeconds : ℚ
  consecutiveFailures : Option ℕ
  lastDispatchedAt : Option ℚ
  lastErrorAt : Option ℚ
  deriving DecidableEq

abbrev Table := Dict String ScheduleRow

/-- `UPDATE .. WHERE slug = ..`. -/
def updateRow (table : Table) (slug : String) (change : ScheduleRow → ScheduleRow) : Table :=
  match table.get? slug with
  | none => table
  | some row => table.set slug (change row)

/-- The rows that a claim selects: due, enabled, not locked by another transaction, and the longest
due of these. -/
def due (table : Table) (limit : ℕ) (now : ℚ) (locked : List String) :
    List (String × ScheduleRow) :=
  (sortedBy (fun item : String × ScheduleRow => item.2.nextRunAt) (table.items.filter fun item =>
    item.2.enabled ∧ item.2.nextRunAt ≤ now ∧ item.1 ∉ locked)).take limit

def claimRow (now : ℚ) (jitter : String → ℚ) (table : Table) (item : String × ScheduleRow) :
    Except SchedulerError Table := do
  let scheduled ← nextRunAt item.2.intervalSeconds (item.2.consecutiveFailures.getD 0) now
    (jitter item.1)
  return updateRow table item.1 fun row =>
    { row with nextRunAt := scheduled, lastDispatchedAt := some now }

/-- `_claim_due`, as one transaction. -/
def claimDue (table : Table) (limit : ℕ) (now : ℚ) (locked : List String) (jitter : String → ℚ) :
    Except SchedulerError Table :=
  (due table limit now locked).foldlM (claimRow now jitter) table

/-- What an outcome makes of a count: `NULL + 1` is `NULL`. -/
def counted (count : Option ℕ) (raised : Bool) : Option ℕ :=
  if raised then count.map (· + 1) else some 0

def updateFailures (table : Table) (slug : String) (reset : Bool) (now : ℚ) : Table :=
  updateRow table slug fun row =>
    { row with
      consecutiveFailures := counted row.consecutiveFailures !reset
      lastErrorAt := if reset then none else some now }

/-! ## Replicas -/

/-- The table with what its replicas have under way: the connectors that are claimed and not yet
dispatched, and the outcomes whose transaction has not committed; and, for each connector, how many
of its dispatches have failed since the last success. -/
structure Schedule where
  table : Table
  claimed : List String := []
  outcomes : List (String × Bool) := []
  failed : String → ℕ

inductive Event
  | claim (limit : ℕ) (now : ℚ) (locked : List String) (jitter : String → ℚ)
  -- The dispatch of the `i`th of the claimed connectors ends.
  | dispatch (i : ℕ) (raised : Bool)
  -- The `i`th of the outcomes is recorded.
  | record (i : ℕ) (now : ℚ)
  -- The process dies before it is, or the transaction fails.
  | lose (i : ℕ)

namespace Schedule

def step (s : Schedule) : Event → Option Schedule
  | .claim limit now locked jitter =>
    match claimDue s.table limit now locked jitter with
    | .error _ => some s
    | .ok table =>
      some
        { s with
          table := table
          claimed := s.claimed ++ (due s.table limit now locked).map Prod.fst }
  | .dispatch i raised =>
    (s.claimed[i]?).map fun slug =>
      { s with
        claimed := s.claimed.eraseIdx i
        outcomes := s.outcomes ++ [(slug, raised)]
        failed := Function.update s.failed slug (if raised then s.failed slug + 1 else 0) }
  | .record i now =>
    (s.outcomes[i]?).map fun outcome =>
      { s with
        table := updateFailures s.table outcome.1 (!outcome.2) now
        outcomes := s.outcomes.eraseIdx i }
  | .lose i =>
    (s.outcomes[i]?).map fun _ => { s with outcomes := s.outcomes.eraseIdx i }

structure Settled (s : Schedule) : Prop where
  outcomes : s.outcomes = []
  counts : ∀ slug row, s.table.get? slug = some row → row.consecutiveFailures = some (s.failed slug)

def Prompt (s : Schedule) : Event → Prop
  | .claim limit now locked _ =>
    ∀ item ∈ due s.table limit now locked, ∀ outcome ∈ s.outcomes, outcome.1 ≠ item.1
  | .record i _ => ∀ outcome ∈ s.outcomes[i]?, ∀ earlier ∈ s.outcomes.take i, earlier.1 ≠ outcome.1
  | .lose _ => False
  | .dispatch _ _ => True

instance (s : Schedule) : (e : Event) → Decidable (s.Prompt e)
  | .claim limit now locked _ => inferInstanceAs (Decidable
      (∀ item ∈ due s.table limit now locked, ∀ outcome ∈ s.outcomes, outcome.1 ≠ item.1))
  | .record i _ => inferInstanceAs (Decidable
      (∀ outcome ∈ s.outcomes[i]?, ∀ earlier ∈ s.outcomes.take i, earlier.1 ≠ outcome.1))
  | .lose _ => .isFalse id
  | .dispatch _ _ => .isTrue trivial

def CountsFailures (s : Schedule) : Event → Prop
  | .claim limit now locked _ => ∀ item ∈ due s.table limit now locked,
      item.2.consecutiveFailures.getD 0 = s.failed item.1
  | _ => True

end Schedule

/-! ## The order of the waits -/

section

variable {intervalSeconds now jitter : ℚ} {m n : ℕ}

theorem baseSeconds_zero : baseSeconds intervalSeconds 0 = intervalSeconds := rfl

theorem baseSeconds_pos (hn : 0 < n) : baseSeconds intervalSeconds n =
    min (intervalSeconds * 2 ^ min n 16) MAX_BACKOFF_SECONDS := if_pos hn

theorem baseSeconds_mono (hinterval : 0 < intervalSeconds) (hle : m ≤ n)
    (hcap : m = 0 → 0 < n → intervalSeconds ≤ MAX_BACKOFF_SECONDS) :
    baseSeconds intervalSeconds m ≤ baseSeconds intervalSeconds n := by
  have hpow : ∀ {i j : ℕ}, i ≤ j → intervalSeconds * 2 ^ i ≤ intervalSeconds * 2 ^ j :=
    fun h => mul_le_mul_of_nonneg_left (pow_le_pow_right₀ one_le_two h) hinterval.le
  rcases Nat.eq_zero_or_pos m with rfl | hm
  · rcases Nat.eq_zero_or_pos n with rfl | hn
    · exact le_rfl
    · rw [baseSeconds_zero, baseSeconds_pos hn]
      refine le_min ?_ (hcap rfl hn)
      have hone := hpow (Nat.zero_le (min n 16))
      rwa [pow_zero, mul_one] at hone
  · rw [baseSeconds_pos hm, baseSeconds_pos (hm.trans_le hle)]
    exact min_le_min_right _ (hpow (min_le_min_right 16 hle))

theorem baseSeconds_le_max (n : ℕ) :
    baseSeconds intervalSeconds n ≤ max intervalSeconds MAX_BACKOFF_SECONDS := by
  rcases Nat.eq_zero_or_pos n with rfl | hn
  · exact le_max_left ..
  · rw [baseSeconds_pos hn]
    exact (min_le_right ..).trans (le_max_right ..)

theorem one_lt_cap (hjitter : |jitter| ≤ JITTER_FRACTION) :
    1 < MAX_BACKOFF_SECONDS * (1 + jitter) := by
  have hlow := (abs_le.mp hjitter).1
  unfold JITTER_FRACTION at hlow
  unfold MAX_BACKOFF_SECONDS
  linarith

theorem factor_pos (hjitter : |jitter| ≤ JITTER_FRACTION) : 0 < 1 + jitter := by
  have hlow := (abs_le.mp hjitter).1
  unfold JITTER_FRACTION at hlow
  linarith

theorem waitSeconds_le_iff (hinterval : 0 < intervalSeconds) (hjitter : |jitter| ≤ JITTER_FRACTION)
    (hle : m ≤ n) : waitSeconds intervalSeconds m jitter ≤ waitSeconds intervalSeconds n jitter ↔
      ¬(m = 0 ∧ 0 < n ∧ MAX_BACKOFF_SECONDS < intervalSeconds) := by
  have hfactor := factor_pos hjitter
  constructor
  · rintro hwait ⟨rfl, hn, hlong⟩
    have hone := one_lt_cap hjitter
    have hcapped : baseSeconds intervalSeconds n * (1 + jitter) ≤
        MAX_BACKOFF_SECONDS * (1 + jitter) := by
      rw [baseSeconds_pos hn]
      exact mul_le_mul_of_nonneg_right (min_le_right ..) hfactor.le
    have hlonger : MAX_BACKOFF_SECONDS * (1 + jitter) < intervalSeconds * (1 + jitter) :=
      mul_lt_mul_of_pos_right hlong hfactor
    have hsooner := (le_max_right ..).trans (hwait.trans (max_le hone.le hcapped))
    rw [baseSeconds_zero] at hsooner
    exact absurd hsooner (not_le.mpr hlonger)
  · intro hnot
    refine max_le_max_left 1 (mul_le_mul_of_nonneg_right ?_ hfactor.le)
    refine baseSeconds_mono hinterval hle fun hm hn => ?_
    by_contra hlong
    exact hnot ⟨hm, hn, not_le.mp hlong⟩

theorem waitSeconds_le (hjitter : |jitter| ≤ JITTER_FRACTION) (n : ℕ) :
    waitSeconds intervalSeconds n jitter ≤
      max intervalSeconds MAX_BACKOFF_SECONDS * (1 + jitter) := by
  have hfactor := factor_pos hjitter
  refine max_le ((one_lt_cap hjitter).le.trans ?_) ?_
  · exact mul_le_mul_of_nonneg_right (le_max_right ..) hfactor.le
  · exact mul_le_mul_of_nonneg_right (baseSeconds_le_max n) hfactor.le

theorem nextRunAt_eq_ok {scheduled : ℚ}
    (h : nextRunAt intervalSeconds n now jitter = .ok scheduled) :
    0 < intervalSeconds ∧ scheduled = now + waitSeconds intervalSeconds n jitter := by
  unfold nextRunAt at h
  split_ifs at h with hinterval
  dsimp only at h
  split_ifs at h
  exact ⟨not_le.mp hinterval, (Except.ok.inj h).symm⟩

end

/-! ## The counts -/

section

variable {table table' : Table} {slug : String} {now : ℚ}

theorem get?_updateRow (table : Table) (slug k : String) (change : ScheduleRow → ScheduleRow) :
    (updateRow table slug change).get? k =
      if k = slug then (table.get? slug).map change else table.get? k := by
  unfold updateRow
  cases hrow : table.get? slug with
  | none =>
    split_ifs with hk
    · rw [hk, hrow]
      rfl
    · rfl
  | some row =>
    rw [Dict.get?_set]
    rfl

def countOf (table : Table) (slug : String) : Option (Option ℕ) :=
  (table.get? slug).map ScheduleRow.consecutiveFailures

theorem countOf_claimDue {limit : ℕ} {locked : List String} {jitter : String → ℚ}
    (h : claimDue table limit now locked jitter = .ok table') (k : String) :
    countOf table' k = countOf table k := by
  have hfold : ∀ (rows : List (String × ScheduleRow)) (before : Table),
      rows.foldlM (claimRow now jitter) before = .ok table' → countOf table' k = countOf before k := by
    intro rows
    induction rows with
    | nil =>
      intro before hrows
      cases hrows
      rfl
    | cons item rows ih =>
      intro before hrows
      rw [foldlM_cons] at hrows
      unfold claimRow at hrows
      cases hscheduled : nextRunAt item.2.intervalSeconds (item.2.consecutiveFailures.getD 0) now
          (jitter item.1) with
      | error error =>
        rw [hscheduled] at hrows
        cases hrows
      | ok scheduled =>
        rw [hscheduled] at hrows
        have hrest := ih _ hrows
        rw [hrest]
        unfold countOf
        rw [get?_updateRow]
        split_ifs with hk
        · rw [hk, Option.map_map]
          rfl
        · rfl
  exact hfold _ _ h

theorem countOf_updateFailures (table : Table) (slug : String) (reset : Bool) (now : ℚ)
    (k : String) : countOf (updateFailures table slug reset now) k =
      if k = slug then (countOf table k).map (counted · !reset) else countOf table k := by
  unfold countOf updateFailures
  rw [get?_updateRow]
  by_cases hk : k = slug
  · rw [if_pos hk, if_pos hk, hk, Option.map_map, Option.map_map]
    rfl
  · rw [if_neg hk, if_neg hk]

theorem mem_due {limit : ℕ} {locked : List String} {item : String × ScheduleRow}
    (h : item ∈ due table limit now locked) : table.get? item.1 = some item.2 :=
  Dict.mem_items_iff.mp (mem_filter.mp
    ((sortedBy_perm _ _).mem_iff.mp (mem_of_mem_take h))).1

end

namespace Schedule

variable {s s' : Schedule} {e : Event} {slug : String}

def unrecorded (s : Schedule) (slug : String) : List Bool :=
  (s.outcomes.filter fun outcome => outcome.1 = slug).map Prod.snd

def Accounts (s : Schedule) : Prop :=
  ∀ slug count, countOf s.table slug = some count →
    (s.unrecorded slug).foldl counted count = some (s.failed slug)

theorem Settled.accounts (h : s.Settled) : s.Accounts := by
  intro slug count hcount
  obtain ⟨row, hrow, rfl⟩ := Option.map_eq_some_iff.mp hcount
  unfold unrecorded
  rw [h.outcomes]
  exact h.counts slug row hrow

theorem unrecorded_eraseIdx {i : ℕ} {outcome : String × Bool}
    (houtcome : s.outcomes[i]? = some outcome)
    (hfirst : ∀ earlier ∈ s.outcomes.take i, earlier.1 ≠ outcome.1) (slug : String) :
    s.unrecorded slug =
      (if slug = outcome.1 then [outcome.2] else []) ++
        ((s.outcomes.eraseIdx i).filter fun outcome => outcome.1 = slug).map Prod.snd := by
  obtain ⟨hi, rfl⟩ := List.getElem?_eq_some_iff.mp houtcome
  have hsplit : s.outcomes = s.outcomes.take i ++ s.outcomes[i] :: s.outcomes.drop (i + 1) := by
    rw [getElem_cons_drop, take_append_drop]
  unfold unrecorded
  rw [eraseIdx_eq_take_drop_succ]
  nth_rewrite 1 [hsplit]
  by_cases hslug : slug = s.outcomes[i].1
  · have hnone : (s.outcomes.take i).filter (fun outcome => outcome.1 = slug) = [] :=
      filter_eq_nil_iff.mpr fun earlier hearlier => by
        simpa [hslug] using hfirst earlier hearlier
    rw [filter_append, hnone, filter_cons_of_pos (by simp [hslug]), filter_append,
      hnone, if_pos hslug]
    rfl
  · rw [filter_append, filter_cons_of_neg (by simpa using Ne.symm hslug),
      filter_append, if_neg hslug]
    rfl

theorem step_accounts (h : s.Accounts) (hprompt : s.Prompt e) (hstep : s.step e = some s') :
    s'.Accounts := by
  cases e with
  | claim limit now locked jitter =>
    unfold step at hstep
    dsimp only at hstep
    cases htable : claimDue s.table limit now locked jitter with
    | error error =>
      rw [htable] at hstep
      cases hstep
      exact h
    | ok table =>
      rw [htable] at hstep
      cases hstep
      intro slug count hcount
      exact h slug count (by rwa [← countOf_claimDue htable])
  | dispatch i raised =>
    obtain ⟨slug, hslug, rfl⟩ := Option.map_eq_some_iff.mp hstep
    intro k count hcount
    have hbefore := h k count hcount
    unfold unrecorded
    dsimp only
    by_cases hk : k = slug
    · subst hk
      rw [filter_append, map_append, foldl_append, Function.update_self]
      unfold unrecorded at hbefore
      rw [hbefore, filter_cons_of_pos (by simp)]
      cases raised <;> rfl
    · rw [filter_append, Function.update_of_ne hk,
        filter_cons_of_neg (by simpa using Ne.symm hk), filter_nil, append_nil]
      exact hbefore
  | record i now =>
    obtain ⟨outcome, houtcome, rfl⟩ := Option.map_eq_some_iff.mp hstep
    intro k count hcount
    have hunrecorded := unrecorded_eraseIdx houtcome (hprompt outcome houtcome) k
    rw [countOf_updateFailures, Bool.not_not] at hcount
    split_ifs at hcount with hk
    · obtain ⟨before, hheld, rfl⟩ := Option.map_eq_some_iff.mp hcount
      have hbefore := h k before hheld
      rw [hunrecorded, if_pos hk] at hbefore
      exact hbefore
    · have hbefore := h k count hcount
      rw [hunrecorded, if_neg hk] at hbefore
      exact hbefore
  | lose i => exact absurd hprompt id

theorem Accounts.counts (h : s.Accounts) (hprompt : s.Prompt e) : s.CountsFailures e := by
  cases e with
  | claim limit now locked jitter =>
    intro item hitem
    have hcount := h item.1 item.2.consecutiveFailures (by
      unfold countOf
      rw [mem_due hitem]
      rfl)
    have hnone : s.unrecorded item.1 = [] := by
      unfold unrecorded
      rw [filter_eq_nil_iff.mpr fun outcome houtcome => by
        simpa using hprompt item hitem outcome houtcome]
      rfl
    rw [hnone] at hcount
    change item.2.consecutiveFailures = some (s.failed item.1) at hcount
    rw [hcount]
    rfl
  | _ => trivial

theorem counts_along {events : List Event} (h : s.Accounts) (hprompt : Along step Prompt s events) :
    Along step CountsFailures s events := by
  induction events generalizing s with
  | nil => trivial
  | cons e events ih =>
    obtain ⟨hnow, hlater⟩ := hprompt
    exact ⟨h.counts hnow, fun s' hs' => ih (step_accounts h hnow hs') (hlater s' hs')⟩

end Schedule

/-! ## Backing off -/

/-- **Backing off slows a connector down**, unless the cap is below its interval: then the first
failure brings it forward. Up to the cap it is never later than the bound; and along every run that
records its outcomes promptly, each claim uses the number of failures since the last success. -/
theorem backing_off (s : Schedule) (events : List Event) :
    (∀ (intervalSeconds now jitter : ℚ) (m n : ℕ) (healthy failing : ℚ),
      |jitter| ≤ JITTER_FRACTION → m ≤ n →
      nextRunAt intervalSeconds m now jitter = .ok healthy →
      nextRunAt intervalSeconds n now jitter = .ok failing →
        (healthy ≤ failing ↔ ¬(m = 0 ∧ 0 < n ∧ MAX_BACKOFF_SECONDS < intervalSeconds)) ∧
          failing ≤ now + max intervalSeconds MAX_BACKOFF_SECONDS * (1 + jitter)) ∧
      (s.Settled → Along Schedule.step Schedule.Prompt s events →
        Along Schedule.step Schedule.CountsFailures s events) := by
  refine ⟨?_, fun hsettled hprompt => Schedule.counts_along hsettled.accounts hprompt⟩
  intro intervalSeconds now jitter m n healthy failing hjitter hle hhealthy hfailing
  obtain ⟨hinterval, rfl⟩ := nextRunAt_eq_ok hhealthy
  obtain ⟨-, rfl⟩ := nextRunAt_eq_ok hfailing
  refine ⟨?_, add_le_add_right (waitSeconds_le hjitter n) now⟩
  rw [add_le_add_iff_left]
  exact waitSeconds_le_iff hinterval hjitter hle

/-- A daily connector that has failed once runs again after six hours, one that has not after a
day. -/
theorem daily_connector_sooner : ∃ healthy failing, nextRunAt 86400 0 0 0 = .ok healthy ∧
    nextRunAt 86400 1 0 0 = .ok failing ∧ failing < healthy :=
  ⟨86400, 21600, by decide +kernel⟩

def quarterly : Schedule where
  table := .ofList [("feed", ⟨true, 0, 900, some 0, none, none⟩)]
  failed _ := 0

theorem quarterly_settled : quarterly.Settled where
  outcomes := rfl
  counts slug row hrow := by
    have hitem := mem_singleton.mp (Dict.mem_items_iff.mpr hrow)
    exact congrArg (fun item : String × ScheduleRow => item.2.consecutiveFailures) hitem

def quarterlyRun : List Event :=
  [.claim 10 0 [] fun _ => 0, .dispatch 0 true, .record 0 1, .claim 10 900 [] fun _ => 0]

/-- It backs off from one failure to three, and its first failure is counted. -/
theorem quarterly_backs_off : (1800 : ℚ) ≤ 7200 ∧
    Along Schedule.step Schedule.CountsFailures quarterly quarterlyRun := by
  have hall := backing_off quarterly quarterlyRun
  have horder := (hall.1 900 0 0 1 3 1800 7200 (by decide +kernel) (by decide)
    (by decide +kernel) (by decide +kernel)).1
  exact ⟨horder.mpr fun h => absurd h.1 (by decide),
    hall.2 quarterly_settled (by decide +kernel)⟩

end OmniSense.Workers.Scheduler
