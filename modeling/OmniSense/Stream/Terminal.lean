import OmniSense.Library.Runs
import OmniSense.Stream.Order

/-! Terminal events in the mailboxes: a full queue evicts its head, and what no eviction hits stays
until the generator takes it. -/

namespace OmniSense.Stream
open Library List

variable {Value : Type}

/-! ## The queue of one connection -/

namespace Connection

variable {codec : Codec Value} {c : Connection Value} {e : TimelineEvent Value}

theorem queue_send (point : Point Value) :
    (c.send codec e point).subscription.queue = c.subscription.queue := by
  unfold send
  cases render codec c.requestId c.subscription.investigationId e <;> rfl

theorem queue_pull (queue : List (TimelineEvent Value)) :
    (c.pull codec queue).subscription.queue <:+ queue := by
  induction queue with
  | nil => exact suffix_rfl
  | cons e rest ih =>
    unfold pull Subscription.takeGap
    cases c.subscription.drops with
    | none =>
      split_ifs
      · exact ih.trans (suffix_cons e rest)
      · rw [queue_send]
        exact suffix_cons e rest
    | some d => exact suffix_cons e rest

theorem queue_replayLoop (rest : List (TimelineEvent Value)) :
    (c.replayLoop codec rest).subscription.queue <:+ c.subscription.queue := by
  cases rest with
  | nil => exact queue_pull c.subscription.queue
  | cons e rest => exact ⟨[], queue_send (.replayed e rest)⟩

theorem queue_resume : (c.resume codec).subscription.queue <:+ c.subscription.queue := by
  unfold resume
  cases c.point with
  | start | finished => exact suffix_rfl
  | opened =>
    cases c.subscription.resumeGap with
    | none => exact queue_replayLoop c.subscription.replay
    | some gap => exact suffix_rfl
  | resumed => exact queue_replayLoop c.subscription.replay
  | replayed e rest =>
    dsimp only
    split_ifs
    · exact suffix_rfl
    · exact queue_replayLoop
        (c := { c with point := .replayed e rest, lastSeq := max c.lastSeq e.seq }) rest
  | waiting => exact queue_pull c.subscription.queue
  | gapped e =>
    dsimp only
    split_ifs
    · exact queue_pull c.subscription.queue
    · exact ⟨[], queue_send (.lived e)⟩
  | lived e =>
    dsimp only
    split_ifs
    · exact suffix_rfl
    · exact queue_pull (c := { c with point := .lived e, lastSeq := e.seq }) c.subscription.queue

end Connection

namespace Subscription

variable {sub : Subscription Value} {e x : TimelineEvent Value}

def evicts (sub : Subscription Value) : Option (TimelineEvent Value) :=
  if sub.closed then none else if sub.Full then sub.queue.head? else none

theorem mem_offer_self (hopen : sub.closed = false) : e ∈ (sub.offer e).queue := by
  unfold offer
  rw [hopen, if_neg Bool.false_ne_true]
  split_ifs
  · cases sub.queue with
    | nil => exact mem_singleton_self e
    | cons evicted rest => exact mem_concat_self
  · exact mem_concat_self

theorem mem_offer (hx : x ∈ sub.queue) (hkept : x ∉ sub.evicts) : x ∈ (sub.offer e).queue := by
  unfold evicts at hkept
  unfold offer
  split_ifs with hclosed hfull
  · exact hx
  · rw [if_neg hclosed, if_pos hfull] at hkept
    cases hqueue : sub.queue with
    | nil =>
      rw [hqueue] at hx
      cases hx
    | cons evicted rest =>
      rw [hqueue] at hx hkept
      rcases mem_cons.mp hx with rfl | hx
      · exact absurd rfl hkept
      · exact mem_append_left _ hx
  · exact mem_append_left _ hx

end Subscription

/-! ## The queues in the process -/

namespace System

def queueOf (s : System Value) (i : ℕ) : List (TimelineEvent Value) :=
  (s.connections[i]?.map fun c => c.subscription.queue).getD []

variable {s : System Value} {i j : ℕ} {c : Connection Value}

theorem queueOf_of_some (h : s.connections[i]? = some c) : s.queueOf i = c.subscription.queue := by
  rw [queueOf, h]
  rfl

theorem queueOf_set {hub : Hub Value} {accepted : List (TimelineEvent Value)}
    (h : s.connections[j]? = some c) {c' : Connection Value} :
    (System.mk hub (s.connections.set j c') accepted).queueOf i =
      if j = i then c'.subscription.queue else s.queueOf i := by
  unfold queueOf
  rw [List.getElem?_set]
  split_ifs with hij hlt
  · rfl
  · exact absurd (List.getElem?_eq_some_iff.mp h).1 hlt
  · rfl

theorem queueOf_set_same {hub : Hub Value} {accepted : List (TimelineEvent Value)}
    (h : s.connections[j]? = some c) {c' : Connection Value}
    (hqueue : c'.subscription.queue = c.subscription.queue) :
    (System.mk hub (s.connections.set j c') accepted).queueOf i = s.queueOf i := by
  rw [queueOf_set h]
  split_ifs with hij
  · rw [← hij, queueOf_of_some h, hqueue]
  · rfl

theorem queueOf_close (s : System Value) (j : ℕ) (now : ℚ) (i : ℕ) :
    (s.close j now).queueOf i = s.queueOf i := by
  unfold close
  cases hj : s.connections[j]? with
  | none => rfl
  | some c =>
    dsimp only
    split_ifs
    · rfl
    · exact queueOf_set_same hj rfl

theorem queueOf_cancel (s : System Value) (j : ℕ) (now : ℚ) (i : ℕ) :
    (s.cancel j now).queueOf i = s.queueOf i := by
  unfold cancel
  cases hj : s.connections[j]? with
  | none => rfl
  | some c =>
    dsimp only
    have hended : ∀ i, (System.mk s.hub (s.connections.set j { c with point := .finished })
        s.accepted).queueOf i = s.queueOf i := fun _ => queueOf_set_same hj rfl
    cases c.point with
    | finished => rfl
    | start => exact hended i
    | _ => exact (queueOf_close _ j now i).trans (hended i)

theorem queueOf_subscribe (cfg : HubConfig) (s : System Value) (id : String) (afterSeq : Option ℤ)
    (requestId : String) (now : ℚ) (i : ℕ) :
    (s.subscribe cfg id afterSeq requestId now).queueOf i = s.queueOf i := by
  unfold subscribe
  dsimp only
  split_ifs
  · rfl
  · unfold queueOf
    -- The new connection starts with an empty queue.
    rcases Nat.lt_trichotomy i s.connections.length with hlt | rfl | hgt
    · rw [List.getElem?_append_left hlt]
    · rw [List.getElem?_concat_length, List.getElem?_eq_none le_rfl]
      rfl
    · rw [List.getElem?_eq_none (by simp; omega), List.getElem?_eq_none hgt.le]

theorem queueOf_resume (codec : Codec Value) (s : System Value) (j : ℕ) (now : ℚ) (i : ℕ) :
    (s.resume codec j now).queueOf i = s.queueOf i ∨
      j = i ∧ (s.resume codec j now).queueOf i <:+ s.queueOf i := by
  unfold resume
  cases hj : s.connections[j]? with
  | none => exact .inl rfl
  | some c =>
    dsimp only
    split_ifs
    · exact .inl rfl
    · rw [queueOf_close, queueOf_set hj]
      split_ifs with hij
      · rw [← hij, queueOf_of_some hj]
        exact .inr ⟨rfl, Connection.queue_resume⟩
      · exact .inl rfl
    · rw [queueOf_set hj]
      split_ifs with hij
      · rw [← hij, queueOf_of_some hj]
        exact .inr ⟨rfl, Connection.queue_resume⟩
      · exact .inl rfl

end System

/-! ## Runs -/

namespace Setup

variable (sys : Setup Value)

def SparesTerminal (s : System Value) : Act Value → Prop
  | .publish e now _ => (s.hub.channel e.investigationId now).lastSeq < e.seq →
    ∀ i ∈ (s.hub.channel e.investigationId now).subscribers, ∀ c ∈ s.connections[i]?,
      ∀ x ∈ c.subscription.evicts, x.isTerminal = false
  | _ => True

instance decidableSparesTerminal (s : System Value) : ∀ act, Decidable (SparesTerminal s act)
  | .publish _ _ _ => inferInstanceAs (Decidable (_ → _))
  | .subscribe _ _ _ _ | .resume _ _ | .cancel _ _ | .disconnect _ _ => isTrue trivial

def takenIn (i : ℕ) (s : System Value) : Act Value → List (TimelineEvent Value)
  | .resume j now =>
    if j = i then
      (s.queueOf i).take ((s.queueOf i).length - ((s.resume sys.codec j now).queueOf i).length)
    else []
  | _ => []

def taken (i : ℕ) : System Value → List (Act Value) → List (TimelineEvent Value)
  | _, [] => []
  | s, act :: acts => sys.takenIn i s act ++ taken i (sys.step s act) acts

def KeepsTerminal (lastPrune : ℚ) (acts : List (Act Value)) : Prop :=
  ∀ before e now swept later, before ++ .publish e now swept :: later <+: acts →
    e.isTerminal = true →
    ((sys.run lastPrune before).hub.channel e.investigationId now).lastSeq < e.seq →
    ∀ i ∈ ((sys.run lastPrune before).hub.channel e.investigationId now).subscribers,
      ∀ c, (sys.run lastPrune before).connections[i]? = some c → c.subscription.closed = false →
        e ∈ sys.taken i (sys.run lastPrune (before ++ [.publish e now swept])) later ∨
          e ∈ (sys.run lastPrune (before ++ .publish e now swept :: later)).queueOf i

variable {sys} {s : System Value} {i : ℕ} {e : TimelineEvent Value} {now swept : ℚ}

theorem queueOf_publish (hseq : (s.hub.channel e.investigationId now).lastSeq < e.seq) :
    (s.publish sys.cfg e now swept).queueOf i =
      ((s.connections[i]?.map fun c =>
        if i ∈ (s.hub.channel e.investigationId now).subscribers then c.offered e else c).map
          fun c => c.subscription.queue).getD [] := by
  have hoffers : (s.fanOut sys.cfg e now).connections[i]? = _ := System.fanOut_getElem?
  rw [System.publish, if_neg (not_le.mpr hseq), ← hoffers]
  rfl

theorem step_keeps {act : Act Value} (hspares : SparesTerminal s act) (hmem : e ∈ s.queueOf i)
    (hterminal : e.isTerminal = true) :
    e ∈ sys.takenIn i s act ∨ e ∈ (sys.step s act).queueOf i := by
  cases act with
  | publish x now swept =>
    refine .inr ?_
    change e ∈ (s.publish sys.cfg x now swept).queueOf i
    by_cases hseq : (s.hub.channel x.investigationId now).lastSeq < x.seq
    · rw [queueOf_publish hseq]
      cases hc : s.connections[i]? with
      | none =>
        rw [System.queueOf, hc] at hmem
        cases hmem
      | some c =>
        rw [System.queueOf_of_some hc] at hmem
        split_ifs with hsub
        · refine Subscription.mem_offer hmem fun hevicted => ?_
          exact absurd hterminal (by simp [hspares hseq i hsub c hc e hevicted])
        · exact hmem
    · rw [System.publish, if_pos (not_lt.mp hseq)]
      exact hmem
  | subscribe id afterSeq requestId now =>
    refine .inr ?_
    change e ∈ (s.subscribe sys.cfg id afterSeq requestId now).queueOf i
    rwa [System.queueOf_subscribe]
  | resume j now =>
    change e ∈ (if j = i then _ else []) ∨ e ∈ (s.resume sys.codec j now).queueOf i
    rcases System.queueOf_resume sys.codec s j now i with hsame | ⟨rfl, taken, htaken⟩
    · rw [hsame]
      exact .inr hmem
    · rw [if_pos rfl, ← htaken, length_append, Nat.add_sub_cancel, take_left]
      rw [← htaken] at hmem
      exact mem_append.mp hmem
  | cancel j now =>
    refine .inr ?_
    change e ∈ (s.cancel j now).queueOf i
    rwa [System.queueOf_cancel]
  | disconnect j now =>
    refine .inr ?_
    change e ∈ (s.close j now).queueOf i
    rwa [System.queueOf_close]

theorem run_keeps {acts : List (Act Value)}
    (hspares : Along (fun s act => some (sys.step s act)) SparesTerminal s acts)
    (hmem : e ∈ s.queueOf i) (hterminal : e.isTerminal = true) :
    e ∈ sys.taken i s acts ∨ e ∈ (acts.foldl sys.step s).queueOf i := by
  induction acts generalizing s with
  | nil => exact .inr hmem
  | cons act acts ih =>
    rw [taken, mem_append, or_assoc]
    rcases step_keeps hspares.1 hmem hterminal with htaken | hkept
    · exact .inl htaken
    · exact .inr (ih (hspares.2 _ rfl) hkept)

/-- Where no accepted event evicts a terminal one, terminal events stay until they are taken. -/
theorem terminal_kept (sys : Setup Value) (lastPrune : ℚ) (acts : List (Act Value))
    (hspares : Along (fun s act => some (sys.step s act)) SparesTerminal (System.fresh lastPrune)
      acts) : sys.KeepsTerminal lastPrune acts := by
  intro before e now swept later hstart hterminal hseq i hi c hc hopen
  obtain ⟨rest, rfl⟩ := hstart
  have hsteps := (along_total.mp (along_total.mp hspares).1).2
  have hoffered : e ∈ (sys.run lastPrune (before ++ [.publish e now swept])).queueOf i := by
    rw [run, foldl_concat]
    change e ∈ (System.publish sys.cfg (sys.run lastPrune before) e now swept).queueOf i
    rw [queueOf_publish hseq, hc]
    dsimp only [Option.map_some, Option.getD_some]
    rw [if_pos hi]
    exact Subscription.mem_offer_self hopen
  have hrun : sys.run lastPrune (before ++ .publish e now swept :: later) =
      later.foldl sys.step (sys.run lastPrune (before ++ [.publish e now swept])) := by
    rw [run, run, foldl_append, foldl_append]
    rfl
  rw [hrun]
  refine run_keeps ?_ hoffered hterminal
  rw [run, foldl_concat]
  exact hsteps.2 _ rfl

end Setup

theorem done_typed : "done" ≠ "" ∧ ∀ ch ∈ "done".toList, ch ≠ '\r' ∧ ch ≠ '\n' :=
  ⟨by decide, by simp⟩

def doneEvent (seq : ℕ) : TimelineEvent Empty :=
  { bareEvent seq with type := "done", typed := done_typed }

def endsLast : List (Act Empty) :=
  [.subscribe "inv" none "req" 0, .publish (bareEvent 0) 1 1, .publish (doneEvent 1) 2 2,
    .resume 0 3]

theorem terminal_kept_last : smallQueue.KeepsTerminal 0 endsLast :=
  Setup.terminal_kept smallQueue 0 endsLast (by decide +kernel)

def endsEarly : List (Act Empty) :=
  [.subscribe "inv" none "req" 0, .publish (doneEvent 0) 1 1, .publish (bareEvent 1) 2 2]

/-- The end is dropped, and the client never took it. -/
theorem terminal_evicted : ¬smallQueue.KeepsTerminal 0 endsEarly := by
  intro h
  have hoffered : ((smallQueue.run 0 (endsEarly.take 1)).hub.channel "inv" 1).lastSeq < 0 ∧
      0 ∈ ((smallQueue.run 0 (endsEarly.take 1)).hub.channel "inv" 1).subscribers ∧
      (smallQueue.run 0 (endsEarly.take 1)).connections.map
        (fun c => c.subscription.closed) = [false] := by
    decide +kernel
  have hqueue : ((smallQueue.run 0 endsEarly).queueOf 0).map TimelineEvent.seq = [1] := by
    decide +kernel
  obtain ⟨hseq, hsubscribed, hclosed⟩ := hoffered
  obtain ⟨c, hc, hopen⟩ := map_eq_singleton_iff.mp hclosed
  have hfirst : (smallQueue.run 0 (endsEarly.take 1)).connections[0]? = some c := by
    rw [hc]
    rfl
  rcases h (endsEarly.take 1) (doneEvent 0) 1 1 [.publish (bareEvent 1) 2 2] prefix_rfl
    (by decide) hseq 0 hsubscribed c hfirst hopen with htaken | hkept
  · cases htaken
  · have hmem := mem_map_of_mem (f := TimelineEvent.seq) hkept
    change (0 : ℤ) ∈ ((smallQueue.run 0 endsEarly).queueOf 0).map TimelineEvent.seq at hmem
    rw [hqueue] at hmem
    revert hmem
    decide

end OmniSense.Stream
