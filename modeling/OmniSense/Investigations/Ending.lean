import OmniSense.Investigations.Progress

/-! When the timeline of a driven run ends: the last number handed over must be above all others,
and only a run that returns, or that raises before it has shown anything, keeps to that. -/

namespace OmniSense.Investigations

open Agents Library OmniSense.Stream List

variable {σ δ : Type} {r : Readers σ δ}

/-! ## What is handed over -/

/-- `_execute` returns. -/
def Drive.returns (r : Readers σ δ) (d : Drive σ δ) (state : σ) : Bool :=
  r.describesAll state d.yields && d.ending.isOk && d.finished.isOk

theorem execute_returns {d : Drive σ δ} {state : σ} {seq : ℕ} (h : d.returns r state = true) :
    ∃ (notice : Notice) (next : ℕ), notice.isTerminal = true ∧
      execute r d state seq = ((stream r seq state d.yields).1 ++
        [(seq + (stream r seq state d.yields).1.length, notice)], .ok next) := by
  unfold Drive.returns at h
  rw [Bool.and_eq_true, Bool.and_eq_true, ← @stream_ok_iff _ _ r seq] at h
  obtain ⟨⟨hstream, hending⟩, hfinished⟩ := h
  obtain ⟨-, -, hnext⟩ := stream_spec (r := r) seq state d.yields
  unfold execute
  dsimp only
  cases hs : (stream r seq state d.yields).2 with
  | error raised =>
    rw [hs] at hstream
    cases hstream
  | ok reached =>
    cases he : d.ending with
    | error raised =>
      rw [he] at hending
      cases hending
    | ok _ =>
      cases hf : d.finished with
      | error raised =>
        rw [hf] at hfinished
        cases hfinished
      | ok _ =>
        rw [hs] at hnext
        have hseq : reached.1 = seq + (stream r seq state d.yields).1.length := hnext reached rfl
        refine ⟨_, _, ?_, by rw [← hseq]⟩
        split_ifs <;> rfl

theorem execute_raises {d : Drive σ δ} {state : σ} {seq : ℕ} (h : d.returns r state = false) :
    ∃ raised, execute r d state seq = ((stream r seq state d.yields).1, .error raised) := by
  unfold execute
  dsimp only
  cases hs : (stream r seq state d.yields).2 with
  | error raised => exact ⟨raised, rfl⟩
  | ok reached =>
    cases he : d.ending with
    | error raised => exact ⟨raised, rfl⟩
    | ok _ =>
      cases hf : d.finished with
      | error raised => exact ⟨raised, rfl⟩
      | ok _ =>
        have hstream : (stream r seq state d.yields).2.isOk = true := by rw [hs]; rfl
        unfold Drive.returns at h
        rw [stream_ok_iff.mp hstream, he, hf] at h
        cases h

/-- The run is loaded, and it returns, or raises before it has shown anything and its failure can
be written down. -/
def Drive.EndsWell (r : Readers σ δ) (d : Drive σ δ) : Prop :=
  ∃ state ∈ d.state.toOption, d.returns r state = true ∨
    r.describesFirst state d.yields = false ∧ d.failed.isOk = true

def EndsAt (handed : List (ℕ × Notice)) : Prop :=
  (handed.map Prod.fst).Pairwise (· < ·) ∧
    ∃ front last, handed = front ++ [last] ∧ last.2.isTerminal = true ∧
      ∀ entry ∈ front, entry.2.isTerminal = false

theorem not_endsAt_of_open {handed : List (ℕ × Notice)}
    (h : ∀ entry ∈ handed, entry.2.isTerminal = false) : ¬EndsAt handed := by
  rintro ⟨-, front, last, rfl, hlast, -⟩
  rw [h last (mem_append_right _ (mem_singleton_self _))] at hlast
  cases hlast

theorem drive_ends_iff (d : Drive σ δ) : EndsAt (drive r d) ↔ d.EndsWell r := by
  unfold Drive.EndsWell drive
  cases hstate : d.state with
  | error raised =>
    refine ⟨fun h => ?_, ?_⟩
    · exact absurd h (not_endsAt_of_open fun entry h => absurd h not_mem_nil)
    · rintro ⟨state, hs, -⟩
      cases hs
  | ok state =>
    obtain ⟨hnumbers, hopen, -⟩ := @stream_spec _ _ r 1 state d.yields
    have hshown : ∀ entry ∈ (0, Notice.started "planner") :: (stream r 1 state d.yields).1,
        entry.2.isTerminal = false := by
      intro entry h
      rcases mem_cons.mp h with rfl | h
      · rfl
      · exact hopen entry h
    have hmem : (∃ s ∈ (Except.ok state : Except Raised σ).toOption, d.returns r s = true ∨
        r.describesFirst s d.yields = false ∧ d.failed.isOk = true) ↔
        (d.returns r state = true ∨
          r.describesFirst state d.yields = false ∧ d.failed.isOk = true) := by
      refine ⟨?_, fun h => ⟨state, rfl, h⟩⟩
      rintro ⟨_, ⟨⟩, h⟩
      exact h
    rw [hmem]
    dsimp only
    rw [Nat.zero_add, singleton_append]
    cases hreturns : d.returns r state with
    | true =>
      obtain ⟨notice, next, hterminal, hexecute⟩ := @execute_returns _ _ r d state 1 hreturns
      rw [hexecute]
      rw [append_nil, ← cons_append]
      refine ⟨fun _ => .inl rfl, fun _ => ⟨?_, _, _, rfl, hterminal, hshown⟩⟩
      -- The numbers are 0, 1, 2, ... without a gap.
      have hall : (((0, Notice.started "planner") :: (stream r 1 state d.yields).1 ++
          [(1 + (stream r 1 state d.yields).1.length, notice)]).map Prod.fst) =
          List.range' 0 ((stream r 1 state d.yields).1.length + 1 + 1) := by
        rw [map_append, map_cons, hnumbers, List.range'_succ, List.range'_concat]
        simp
      rw [hall]
      exact pairwise_lt_range'
    | false =>
      obtain ⟨raised, hexecute⟩ := @execute_raises _ _ r d state 1 hreturns
      rw [hexecute]
      cases hfailed : d.failed with
      | error err =>
        rw [append_nil]
        refine ⟨fun h => absurd h (not_endsAt_of_open hshown), ?_⟩
        rintro (h | ⟨-, h⟩) <;> cases h
      | ok _ =>
        constructor
        · rintro ⟨hascending, -⟩
          have hnil : (stream r 1 state d.yields).1 = [] := by
            -- The first number of the stream is the one that the error comes with.
            by_contra hne
            rw [map_append, map_cons, hnumbers, map_singleton] at hascending
            have hfirst : 1 ∈ 0 :: List.range' 1 (stream r 1 state d.yields).1.length := by
              refine mem_cons_of_mem _ (mem_range'_1.mpr ⟨Nat.le_refl 1, ?_⟩)
              have := length_pos_of_ne_nil hne
              omega
            have hlt := (pairwise_append.mp hascending).2.2 1 hfirst 1 (mem_singleton_self 1)
            exact absurd hlt (Nat.lt_irrefl 1)
          exact .inr ⟨stream_nil_iff.mp hnil, rfl⟩
        · rintro (h | ⟨hquiet, -⟩)
          · cases h
          rw [stream_nil_iff.mpr hquiet]
          refine ⟨pairwise_pair.mpr Nat.zero_lt_one, [(0, .started "planner")],
            (1, .error raised), rfl, rfl, ?_⟩
          intro entry hentry
          obtain rfl := mem_singleton.mp hentry
          rfl

/-! ## What the hub answers -/

def IsForeign (investigationId : String) : Act Payload → Prop
  | .publish e _ _ => e.investigationId ≠ investigationId
  | _ => True

def Below (investigationId : String) (seq : ℕ) (hub : Hub Payload) : Prop :=
  ∀ now, (hub.channel investigationId now).lastSeq < seq

section

variable {investigationId : String} {seq : ℕ} {hub : Hub Payload} {s : System Payload}

theorem Below.of_channel_eq (h : Below investigationId seq hub) {hub' : Hub Payload}
    (heq : ∀ now, (hub'.channel investigationId now).lastSeq =
      (hub.channel investigationId now).lastSeq) : Below investigationId seq hub' :=
  fun now => heq now ▸ h now

theorem Below.store (h : Below investigationId seq hub) {id : String} {channel : Channel Payload}
    (hchannel : id = investigationId → channel.lastSeq < seq) :
    Below investigationId seq (hub.store id channel) := by
  intro now
  by_cases hid : investigationId = id
  · subst hid
    rw [Hub.channel_store_self]
    exact hchannel rfl
  · rw [Hub.channel_store_of_ne hid]
    exact h now

theorem Below.unsubscribe (h : Below investigationId seq hub) (id : String) (i : ℕ) (now : ℚ) :
    Below investigationId seq (hub.unsubscribe id i now) :=
  h.of_channel_eq fun now' => (Hub.channel_unsubscribe hub id i now investigationId now').2.1

theorem Below.prune (h : Below investigationId seq hub) (cfg : HubConfig) (now : ℚ) :
    Below investigationId seq (hub.prune cfg now) := by
  intro now'
  have hold := h now'
  unfold Hub.channel at hold ⊢
  rcases Hub.prune_channels cfg hub now investigationId with hkept | hgone
  · rw [hkept]
    exact hold
  · rw [hgone]
    exact lt_of_lt_of_le neg_one_lt_zero (Int.natCast_nonneg seq)

theorem below_close (h : Below investigationId seq s.hub) (i : ℕ) (now : ℚ) :
    Below investigationId seq (s.close i now).hub := by
  unfold System.close
  cases s.connections[i]? with
  | none => exact h
  | some c =>
    dsimp only
    split_ifs
    · exact h
    · exact h.unsubscribe c.subscription.investigationId i now

theorem below_publish (h : Below investigationId seq s.hub) {seq' : ℕ} (hle : seq ≤ seq')
    {cfg : HubConfig} {e : TimelineEvent Payload}
    (he : e.investigationId = investigationId → e.seq < seq') (now swept : ℚ) :
    Below investigationId seq' (s.publish cfg e now swept).hub := by
  have hbelow : Below investigationId seq' s.hub :=
    fun now => (h now).trans_le (Int.ofNat_le.mpr hle)
  unfold System.publish
  dsimp only
  split_ifs
  · refine hbelow.store ?_
    rintro rfl
    exact hbelow now
  · exact (hbelow.store he).prune cfg swept

theorem below_step (sys : Setup Payload) (h : Below investigationId seq s.hub) {act : Act Payload}
    (hforeign : IsForeign investigationId act) : Below investigationId seq (sys.step s act).hub := by
  cases act with
  | publish e now swept => exact below_publish h le_rfl (fun heq => absurd heq hforeign) now swept
  | subscribe id afterSeq requestId now =>
    have hchannel : id = investigationId → (s.hub.channel id now).lastSeq < seq := by
      rintro rfl
      exact h now
    dsimp only [Setup.step]
    unfold System.subscribe
    dsimp only
    split_ifs
    · exact h.store hchannel
    · exact h.store hchannel
  | resume i now =>
    dsimp only [Setup.step]
    unfold System.resume
    cases s.connections[i]? with
    | none => exact h
    | some c =>
      dsimp only
      split_ifs
      · exact h
      · have hset : Below investigationId seq
            { s with connections := s.connections.set i (c.resume sys.codec) }.hub := h
        exact below_close hset i now
      · exact h
  | cancel i now =>
    dsimp only [Setup.step]
    unfold System.cancel
    cases s.connections[i]? with
    | none => exact h
    | some c =>
      dsimp only
      have hset : Below investigationId seq
          { s with connections := s.connections.set i { c with point := .finished } }.hub := h
      split
      · exact h
      · exact h
      · exact below_close hset i now
  | disconnect i now => exact below_close h i now

theorem below_steps (sys : Setup Payload) (h : Below investigationId seq s.hub)
    {acts : List (Act Payload)} (hforeign : ∀ act ∈ acts, IsForeign investigationId act) :
    Below investigationId seq (acts.foldl sys.step s).hub := by
  induction acts generalizing s with
  | nil => exact h
  | cons act acts ih =>
    refine ih (below_step sys h (hforeign act (mem_cons_self ..))) fun act' hact' => ?_
    exact hforeign act' (mem_cons_of_mem _ hact')

end

section

variable {sys : Setup Payload} {investigationId : String} {hnamed : investigationId ≠ ""}
  {moments : ℕ → Moment}

theorem deliver_map (k : ℕ) (s : System Payload) (handed : List (ℕ × Notice)) :
    (deliver sys hnamed moments k s handed).map (fun entry => (entry.1.seq, entry.1.isTerminal)) =
      handed.map fun entry => ((entry.1 : ℤ), entry.2.isTerminal) := by
  induction handed generalizing k s with
  | nil => rfl
  | cons entry handed ih =>
    obtain ⟨seq, notice⟩ := entry
    unfold deliver
    rw [map_cons, map_cons, ih]
    rfl

theorem deliver_accepts (hforeign : ∀ k, ∀ act ∈ (moments k).before, IsForeign investigationId act)
    {k : ℕ} {s : System Payload} {handed : List (ℕ × Notice)}
    (hascending : (handed.map Prod.fst).Pairwise (· < ·))
    (hbelow : ∀ entry ∈ handed.head?, Below investigationId entry.1 s.hub) :
    ∀ entry ∈ deliver sys hnamed moments k s handed, entry.2 = true := by
  induction handed generalizing k s with
  | nil => exact fun entry h => absurd h not_mem_nil
  | cons first handed ih =>
    obtain ⟨seq, notice⟩ := first
    obtain ⟨hless, hascending⟩ := pairwise_cons.mp (map_cons .. ▸ hascending)
    have hready := below_steps sys (hbelow _ rfl) (hforeign k)
    intro entry hentry
    rcases mem_cons.mp hentry with rfl | hentry
    · exact decide_eq_true (hready (moments k).now)
    · refine ih hascending (fun next hnext => ?_) entry hentry
      have hlt : seq < next.1 := by
        refine hless next.1 (mem_map_of_mem ?_)
        exact mem_of_mem_head? hnext
      have hseq : (notice.event hnamed seq (moments k).ts).seq < (next.1 : ℤ) :=
        Int.ofNat_lt.mpr hlt
      exact below_publish hready hlt.le (fun _ => hseq) (moments k).now (moments k).swept

theorem ends_deliver_iff (hforeign : ∀ k, ∀ act ∈ (moments k).before, IsForeign investigationId act)
    {lastPrune : ℚ} {handed : List (ℕ × Notice)} :
    Ends (deliver sys hnamed moments 0 (System.fresh lastPrune) handed) ↔ EndsAt handed := by
  have hmap := @deliver_map sys investigationId hnamed moments 0 (System.fresh lastPrune) handed
  have hseqs := congrArg (List.map Prod.fst) hmap
  rw [map_map, map_map] at hseqs
  have hascending : ((deliver sys hnamed moments 0 (System.fresh lastPrune) handed).map
      fun entry => entry.1.seq).Pairwise (· < ·) ↔ (handed.map Prod.fst).Pairwise (· < ·) := by
    have hcast : (handed.map fun entry => (entry.1 : ℤ)) =
        (handed.map Prod.fst).map ((↑) : ℕ → ℤ) := by
      rw [map_map]
      rfl
    rw [show ((deliver sys hnamed moments 0 (System.fresh lastPrune) handed).map
      fun entry => entry.1.seq) = handed.map fun entry => (entry.1 : ℤ) from hseqs, hcast,
      pairwise_map]
    simp only [Int.ofNat_lt]
  constructor
  · rintro ⟨hpairwise, front, last, hdeliver, hlast, hfront⟩
    refine ⟨hascending.mp hpairwise, ?_⟩
    rw [hdeliver, map_append] at hmap
    obtain ⟨front', rest, rfl, hmapfront, hmaprest⟩ := map_eq_append_iff.mp hmap.symm
    obtain ⟨last', rfl, hmaplast⟩ := map_eq_singleton_iff.mp hmaprest
    refine ⟨front', last', rfl, (congrArg Prod.snd hmaplast).trans hlast, fun entry hentry => ?_⟩
    have hmem := mem_map_of_mem (f := fun entry : ℕ × Notice =>
      ((entry.1 : ℤ), entry.2.isTerminal)) hentry
    rw [hmapfront] at hmem
    obtain ⟨original, horiginal, heq⟩ := mem_map.mp hmem
    exact (congrArg Prod.snd heq).symm.trans (hfront original horiginal)
  · rintro ⟨hpairwise, front, last, rfl, hlast, hfront⟩
    refine ⟨hascending.mpr hpairwise, ?_⟩
    have haccepted : ∀ entry ∈ deliver sys hnamed moments 0 (System.fresh lastPrune)
        (front ++ [last]), entry.2 = true := by
      refine deliver_accepts hforeign hpairwise fun entry _ now => ?_
      exact lt_of_lt_of_le neg_one_lt_zero (Int.natCast_nonneg _)
    rw [map_append] at hmap
    obtain ⟨front', rest, hdeliver, hmapfront, hmaprest⟩ := map_eq_append_iff.mp hmap
    obtain ⟨last', rfl, hmaplast⟩ := map_eq_singleton_iff.mp hmaprest
    rw [hdeliver] at haccepted ⊢
    obtain ⟨event, answer⟩ := last'
    obtain rfl : answer = true :=
      haccepted _ (mem_append_right _ (mem_singleton_self _))
    refine ⟨front', event, rfl, (congrArg Prod.snd hmaplast).trans hlast, fun entry hentry => ?_⟩
    have hmem := mem_map_of_mem (f := fun entry : TimelineEvent Payload × Bool =>
      (entry.1.seq, entry.1.isTerminal)) hentry
    rw [hmapfront] at hmem
    obtain ⟨original, horiginal, heq⟩ := mem_map.mp hmem
    exact (congrArg Prod.snd heq).symm.trans (hfront original horiginal)

/-- The timeline ends if and only if the run returns, or raises before it has shown anything. -/
theorem timeline_ends_iff (sys : Setup Payload) (hnamed : investigationId ≠ "")
    (moments : ℕ → Moment)
    (hforeign : ∀ k, ∀ act ∈ (moments k).before, IsForeign investigationId act) (lastPrune : ℚ)
    (r : Readers σ δ) (d : Drive σ δ) :
    Ends (timeline sys hnamed moments r lastPrune d) ↔ d.EndsWell r :=
  (ends_deliver_iff hforeign).trans (drive_ends_iff d)

end

def plainReaders : Readers Unit String where
  update _ _ := ()
  message _ delta := .ok delta
  counts _ := .ok ⟨0, 0, 0⟩
  hasGaps _ := false
  confidence _ := .num 1

def plannedDrive (ending : Except Raised Unit) : Drive Unit String where
  state := .ok ()
  yields := [("planner", some "Planned 0 steps across 0 questions")]
  ending := ending
  stored := none
  finished := .ok ()
  failed := .ok ()

def plainHub : Setup Payload where
  cfg := ⟨8, 8, 900, 4, by decide, by decide⟩
  codec := ⟨fun _ => "1970-01-01T00:00:00Z", fun _ => .ok ""⟩

def atOnce : ℕ → Moment := fun _ => ⟨[], 0, 0, 0⟩

theorem inv_named : "inv" ≠ "" := by decide

theorem timeline_ends_planned :
    Ends (timeline plainHub inv_named atOnce plainReaders 0 (plannedDrive (.ok ()))) :=
  (timeline_ends_iff plainHub inv_named atOnce
    (fun _ _ h => absurd h not_mem_nil) 0 plainReaders (plannedDrive (.ok ()))).mpr
    ⟨(), rfl, .inl rfl⟩

/-- The graph raises after the Planner's step was shown. -/
theorem error_reuses_number :
    (timeline plainHub inv_named atOnce plainReaders 0
      (plannedDrive (.error ⟨"RuntimeError", "boom"⟩))).map
        (fun entry => (entry.1.seq, entry.1.type, entry.2)) =
      [(0, "step.started", true), (1, "step.completed", true), (2, "step.started", true),
        (1, "error", false)] ∧
    ¬Ends (timeline plainHub inv_named atOnce plainReaders 0
      (plannedDrive (.error ⟨"RuntimeError", "boom"⟩))) := by
  have hascending : ¬((timeline plainHub inv_named atOnce plainReaders 0
      (plannedDrive (.error ⟨"RuntimeError", "boom"⟩))).map
        fun entry => entry.1.seq).Pairwise (· < ·) := by
    decide
  exact ⟨by decide +kernel, fun h => hascending h.1⟩

end OmniSense.Investigations
