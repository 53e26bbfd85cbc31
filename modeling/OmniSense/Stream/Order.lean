import OmniSense.Stream.Feeds
import Mathlib.Data.List.Pairwise

/-! Over any interleaving, the frames of a connection with a resume point are in order, and an event
is yielded only after every accepted one between, or after a gap that names it. -/

namespace OmniSense.Stream
open Library List Option

variable {Value : Type}

/-! ## What the ring retains -/

structure Channel.Retains (channel : Channel Value) (accepted : List (TimelineEvent Value)) :
    Prop where
  retained : ∃ evicted, accepted = evicted ++ channel.history
  nonempty : channel.history = [] → accepted = []
  ascending : accepted.Pairwise fun a b => a.seq < b.seq
  le_last : ∀ a ∈ accepted, a.seq ≤ channel.lastSeq
  neg_one_le : -1 ≤ channel.lastSeq

namespace Channel

variable {cfg : HubConfig} {codec : Codec Value} {channel : Channel Value}
  {accepted : List (TimelineEvent Value)} {e : TimelineEvent Value}

theorem retains_fresh (now : ℚ) : (fresh now : Channel Value).Retains [] where
  retained := ⟨[], rfl⟩
  nonempty := fun _ => rfl
  ascending := List.Pairwise.nil
  le_last := fun _ ha => absurd ha not_mem_nil
  neg_one_le := le_rfl

theorem Retains.record (h : channel.Retains accepted) (hseq : channel.lastSeq < e.seq)
    (now : ℚ) : (channel.record cfg e now).Retains (accepted ++ [e]) := by
  obtain ⟨evicted, hevicted⟩ := h.retained
  obtain ⟨dropped, hdropped⟩ := exists_ringAppend cfg.replayEvents channel.history e
  have hlt : ∀ a ∈ accepted, a.seq < e.seq := fun a ha => (h.le_last a ha).trans_lt hseq
  constructor
  · refine ⟨evicted ++ dropped, ?_⟩
    rw [hevicted, append_assoc, hdropped, append_assoc]
    rfl
  · intro hnil
    exact absurd hnil (ringAppend_ne_nil cfg.replayEvents_pos channel.history e)
  · rw [pairwise_append]
    refine ⟨h.ascending, pairwise_singleton _ _, fun a ha b hb => ?_⟩
    rw [mem_singleton.mp hb]
    exact hlt a ha
  · intro a ha
    rcases mem_append.mp ha with hold | hnew
    · exact le_of_lt (hlt a hold)
    · rw [mem_singleton.mp hnew]
      exact le_rfl
  · exact h.neg_one_le.trans (le_of_lt hseq)

theorem Retains.eq_of_seq (h : channel.Retains accepted) {a b : TimelineEvent Value}
    (ha : a ∈ accepted) (hb : b ∈ accepted) (hseq : a.seq = b.seq) : a = b := by
  have hinj : accepted.Pairwise fun a b => a.seq ≠ b.seq := h.ascending.imp ne_of_lt
  have hsymm : Std.Symm fun a b : TimelineEvent Value => a.seq ≠ b.seq := ⟨fun _ _ h => h.symm⟩
  by_contra hne
  exact hinj.forall ha hb hne hseq

theorem Retains.snapshot (h : channel.Retains accepted) {r : ℤ} {a : TimelineEvent Value}
    (ha : a ∈ accepted) (hr : r < a.seq) :
    a ∈ channel.history ∨ ∃ gap, channel.resumeGap r = some gap ∧ gap.Covers a.seq := by
  obtain ⟨evicted, hevicted⟩ := h.retained
  rw [hevicted] at ha
  rcases mem_append.mp ha with hgone | hkept
  · cases hhistory : channel.history with
    | nil =>
      have hnil := h.nonempty hhistory
      rw [hevicted, hhistory, append_nil] at hnil
      rw [hnil] at hgone
      exact absurd hgone not_mem_nil
    | cons oldest later =>
      have hascending := h.ascending
      rw [hevicted, pairwise_append] at hascending
      have hlt : a.seq < oldest.seq :=
        hascending.2.2 a hgone oldest (hhistory ▸ mem_cons_self)
      have hnot : ¬oldest.seq ≤ r + 1 := by omega
      refine Or.inr ⟨⟨r + 1, oldest.seq - 1, "replay_buffer_evicted"⟩, ?_, ?_⟩
      · unfold resumeGap
        rw [hhistory]
        exact if_neg hnot
      · exact ⟨hr, Int.le_sub_one_of_lt hlt⟩
  · exact Or.inl hkept

end Channel

/-- The seqs a connection that resumes after `r` has to account for. -/
def Owed (accepted : List (TimelineEvent Value)) (r n : ℤ) : Prop :=
  r < n ∧ ∃ a ∈ accepted, a.seq = n

structure Connection.Tracks (codec : Codec Value) (accepted : List (TimelineEvent Value)) (top : ℤ)
    (c : Connection Value) : Prop where
  reads : ∀ r, c.afterSeq = some r → c.Reads (Owed accepted r) top
  genuine : c.Genuine codec (· ∈ accepted)

namespace Connection

variable {cfg : HubConfig} {codec : Codec Value} {c : Connection Value} {channel : Channel Value}
  {accepted : List (TimelineEvent Value)} {e : TimelineEvent Value} {top : ℤ}

theorem reads_opening (h : channel.Retains accepted) (investigationId requestId : String) (r : ℤ) :
    (opening cfg channel investigationId (some r) requestId).Reads (Owed accepted r)
      channel.lastSeq := by
  obtain ⟨evicted, hevicted⟩ := h.retained
  have hsub : channel.history.Sublist accepted := hevicted ▸ sublist_append_right _ _
  have hmem : ∀ x ∈ (channel.history.filter fun e => r < e.seq).map TimelineEvent.seq,
      ∃ a ∈ accepted, a.seq = x := by
    intro x hx
    obtain ⟨a, ha, hax⟩ := mem_map.mp hx
    exact ⟨a, hsub.subset (mem_of_mem_filter ha), hax⟩
  have hcoming : ((opening cfg channel investigationId (some r) requestId).feed (-1)).coming =
      (channel.history.filter fun e => r < e.seq).map TimelineEvent.seq := append_nil _
  refine ⟨-1, ?_⟩
  constructor
  · rw [hcoming, pairwise_map]
    exact (h.ascending.sublist hsub).filter _
  · rw [hcoming]
    intro x hx
    obtain ⟨a, _, rfl⟩ := hmem x hx
    exact a.seq_nonneg
  · rw [hcoming]
    intro x hx
    obtain ⟨a, ha, rfl⟩ := hmem x hx
    exact h.le_last a ha
  · exact h.neg_one_le
  · exact fun a ha => absurd ha not_mem_nil
  · exact fun d hd => absurd hd (not_mem_none d)
  · exact fun d hd => absurd hd (not_mem_none d)
  · exact fun d hd => absurd hd (not_mem_none d)
  · exact Honest.nil _
  · intro n hn
    obtain ⟨hr, a, ha, rfl⟩ := hn
    rcases h.snapshot ha hr with hkept | ⟨gap, hgap, hcovers⟩
    · refine Or.inr (Or.inr (Or.inr (Or.inl ?_)))
      rw [hcoming]
      exact mem_map_of_mem (mem_filter.mpr ⟨hkept, decide_eq_true hr⟩)
    · refine Or.inr (Or.inl ⟨gap.range, ?_, hcovers⟩)
      exact congrArg (Option.map SeqGap.range) hgap

theorem tracks_opening (h : channel.Retains accepted) (investigationId requestId : String)
    (afterSeq : Option ℤ) :
    (opening cfg channel investigationId afterSeq requestId).Tracks codec accepted
      channel.lastSeq := by
  obtain ⟨evicted, hevicted⟩ := h.retained
  have hsub : ∀ x ∈ channel.history, x ∈ accepted := by
    intro x hx
    rw [hevicted]
    exact mem_append_right evicted hx
  constructor
  · intro r hr
    obtain rfl : afterSeq = some r := hr
    exact reads_opening h investigationId requestId r
  · constructor
    · intro x hx
      cases afterSeq with
      | none => exact hsub x hx
      | some r => exact hsub x (mem_of_mem_filter hx)
    · exact fun x hx => absurd hx not_mem_nil
    · exact fun x hx => absurd hx not_mem_nil
    · exact fun frame hframe => absurd hframe not_mem_nil

theorem Tracks.offered (h : c.Tracks codec accepted top) (htop : top < e.seq) :
    (c.offered e).Tracks codec (accepted ++ [e]) e.seq := by
  constructor
  · intro r hr
    refine (h.reads r hr).offered htop fun n hn => ?_
    obtain ⟨hlt, a, ha, rfl⟩ := hn
    rcases mem_append.mp ha with hold | hnew
    · exact Or.inl ⟨hlt, a, hold, rfl⟩
    · exact Or.inr (mem_singleton.mp hnew ▸ rfl)
  · have hlater : c.Genuine codec (· ∈ accepted ++ [e]) :=
      h.genuine.mono fun x hx => mem_append_left [e] hx
    exact hlater.offered (mem_append_right accepted (mem_singleton_self e))

theorem Tracks.closed (h : c.Tracks codec accepted top) : c.closed.Tracks codec accepted top where
  reads := fun r hr => (h.reads r hr).closed
  genuine := { h.genuine with }

theorem Tracks.resume (h : c.Tracks codec accepted top) :
    (c.resume codec).Tracks codec accepted top where
  reads := fun r hr => by
    have hlabel : (c.resume codec).label = c.label := label_resume
    have hafter : (c.resume codec).afterSeq = c.afterSeq := congrArg (fun l => l.2.2) hlabel
    exact (h.reads r (hafter ▸ hr)).resume
  genuine := h.genuine.resume

theorem Tracks.finish (h : c.Tracks codec accepted top) :
    ({ c with point := .finished } : Connection Value).Tracks codec accepted top where
  reads := fun r hr => (h.reads r hr).finish
  genuine := { h.genuine with point := fun _ hx => absurd hx not_mem_nil }

end Connection

/-! ## The hub around it -/

def System.entries (s : System Value) (investigationId : String) : List (TimelineEvent Value) :=
  s.accepted.filter fun e => e.investigationId = investigationId

structure Channel.Agrees (channel channel' : Channel Value) : Prop where
  history : channel.history = channel'.history
  lastSeq : channel.lastSeq = channel'.lastSeq
  subscribers : channel.subscribers = channel'.subscribers

theorem Channel.Retains.congr {channel channel' : Channel Value}
    {accepted : List (TimelineEvent Value)} (h : channel'.Retains accepted)
    (hhistory : channel.history = channel'.history) (hlast : channel.lastSeq = channel'.lastSeq) :
    channel.Retains accepted where
  retained := hhistory ▸ h.retained
  nonempty := hhistory ▸ h.nonempty
  ascending := h.ascending
  le_last := hlast ▸ h.le_last
  neg_one_le := hlast ▸ h.neg_one_le

namespace Hub

variable {hub : Hub Value} {channel : Channel Value} {id k : String}

theorem channel_store_self (now : ℚ) : (hub.store id channel).channel id now = channel := by
  unfold Hub.channel
  rw [store_self]
  rfl

theorem channel_store_of_ne (h : k ≠ id) (now : ℚ) :
    (hub.store id channel).channel k now = hub.channel k now := by
  unfold Hub.channel
  rw [store_of_ne hub h]

theorem channel_agrees (hub : Hub Value) (k : String) (now now' : ℚ) :
    (hub.channel k now).Agrees (hub.channel k now') := by
  unfold Hub.channel
  cases hub.channels k with
  | none | some => exact ⟨rfl, rfl, rfl⟩

theorem channel_unsubscribe (hub : Hub Value) (id : String) (i : ℕ) (now : ℚ) (k : String)
    (now' : ℚ) :
    ((hub.unsubscribe id i now).channel k now').history = (hub.channel k now').history ∧
      ((hub.unsubscribe id i now).channel k now').lastSeq = (hub.channel k now').lastSeq ∧
      ((hub.unsubscribe id i now).channel k now').subscribers =
        if k = id then (hub.channel k now').subscribers.erase i
        else (hub.channel k now').subscribers := by
  unfold unsubscribe
  by_cases hk : k = id
  · rw [if_pos hk, hk]
    cases hchannel : hub.channels id with
    | none =>
      have hempty : (hub.channel id now').subscribers = ∅ := by
        unfold Hub.channel
        rw [hchannel]
        rfl
      refine ⟨rfl, rfl, ?_⟩
      rw [hempty, Finset.erase_empty]
    | some channel =>
      have hold : hub.channel id now' = channel := by
        unfold Hub.channel
        rw [hchannel]
        rfl
      rw [channel_store_self, hold]
      exact ⟨rfl, rfl, rfl⟩
  · rw [if_neg hk]
    cases hub.channels id with
    | none => exact ⟨rfl, rfl, rfl⟩
    | some channel =>
      rw [channel_store_of_ne hk]
      exact ⟨rfl, rfl, rfl⟩

end Hub

namespace System

variable {cfg : HubConfig} {codec : Codec Value} {k : String} {s : System Value}

/-- What holds in every state of a run that does not prune the channel `k`. -/
structure Sound (codec : Codec Value) (k : String) (s : System Value) : Prop where
  retains : ∀ now, (s.hub.channel k now).Retains (s.entries k)
  subscribed : ∀ i c, s.connections[i]? = some c → c.subscription.investigationId = k →
    c.subscription.closed = false → ∀ now, i ∈ (s.hub.channel k now).subscribers
  owned : ∀ id now, ∀ i ∈ (s.hub.channel id now).subscribers,
    ∃ c, s.connections[i]? = some c ∧ c.subscription.investigationId = id
  tracked : ∀ c ∈ s.connections, c.subscription.investigationId = k →
    ∀ now, c.Tracks codec (s.entries k) (s.hub.channel k now).lastSeq

theorem sound_fresh (lastPrune : ℚ) : (fresh lastPrune : System Value).Sound codec k where
  retains := fun now => Channel.retains_fresh now
  subscribed := fun i c hc => absurd hc (by simp [fresh])
  owned := fun id now i hi => absurd hi (Finset.notMem_empty i)
  tracked := fun c hc => absurd hc not_mem_nil

theorem Sound.rehub (h : s.Sound codec k) {hub : Hub Value}
    (hhistory : ∀ now, (hub.channel k now).history = (s.hub.channel k now).history)
    (hlast : ∀ now, (hub.channel k now).lastSeq = (s.hub.channel k now).lastSeq)
    (hkept : ∀ i c, s.connections[i]? = some c → c.subscription.closed = false →
      ∀ now, i ∈ (s.hub.channel k now).subscribers → i ∈ (hub.channel k now).subscribers)
    (howned : ∀ id now, ∀ i ∈ (hub.channel id now).subscribers,
      i ∈ (s.hub.channel id now).subscribers) :
    ({ s with hub := hub } : System Value).Sound codec k where
  retains := fun now => (h.retains now).congr (hhistory now) (hlast now)
  subscribed := fun i c hc hid hopen now =>
    hkept i c hc hopen now (h.subscribed i c hc hid hopen now)
  owned := fun id now i hi => h.owned id now i (howned id now i hi)
  tracked := fun c hc hid now => hlast now ▸ h.tracked c hc hid now

theorem Sound.withHub (h : s.Sound codec k) {hub : Hub Value}
    (hk : ∀ now, (hub.channel k now).Agrees (s.hub.channel k now))
    (howned : ∀ id now, ∀ i ∈ (hub.channel id now).subscribers,
      i ∈ (s.hub.channel id now).subscribers) :
    ({ s with hub := hub } : System Value).Sound codec k := by
  apply h.rehub (fun now => (hk now).history) (fun now => (hk now).lastSeq) _ howned
  intro i c _ _ now hi
  rw [(hk now).subscribers]
  exact hi

theorem Sound.touch (h : s.Sound codec k) (id : String) (now : ℚ) :
    ({ s with hub := s.hub.store id (s.hub.channel id now) } : System Value).Sound codec k := by
  have hagrees : ∀ id' now', ((s.hub.store id (s.hub.channel id now)).channel id' now').Agrees
      (s.hub.channel id' now') := by
    intro id' now'
    by_cases hid : id' = id
    · rw [hid, Hub.channel_store_self]
      exact s.hub.channel_agrees id now now'
    · rw [Hub.channel_store_of_ne hid]
      exact ⟨rfl, rfl, rfl⟩
  exact h.withHub (hagrees k) fun id' now' i hi => (hagrees id' now').subscribers ▸ hi

theorem Sound.sweep (h : s.Sound codec k) (now : ℚ)
    (hspared : s.hub.channels k ≠ none → (s.sweep cfg now).hub.channels k ≠ none) :
    (s.sweep cfg now).Sound codec k := by
  apply h.withHub
  · intro now'
    have hsame : (s.hub.prune cfg now).channels k = s.hub.channels k := by
      rcases Hub.prune_channels cfg s.hub now k with hsame | hnone
      · exact hsame
      · by_contra hne
        refine hspared (fun hnone' => hne ?_) hnone
        rw [hnone, hnone']
    unfold Hub.channel
    rw [hsame]
    exact ⟨rfl, rfl, rfl⟩
  · intro id now' i hi
    unfold Hub.channel at hi ⊢
    rcases Hub.prune_channels cfg s.hub now id with hsame | hnone
    · rw [hsame] at hi
      exact hi
    · rw [hnone] at hi
      exact absurd hi (Finset.notMem_empty i)

section FanOut

variable {e : TimelineEvent Value} {now : ℚ} {i : ℕ}

theorem fanOut_getElem? : (s.fanOut cfg e now).connections[i]? = s.connections[i]?.map fun c =>
    if i ∈ (s.hub.channel e.investigationId now).subscribers then c.offered e else c := by
  unfold fanOut
  rw [List.getElem?_mapIdx]
  rfl

theorem fanOut_label {c' : Connection Value}
    (hc' : (s.fanOut cfg e now).connections[i]? = some c') :
    ∃ c, s.connections[i]? = some c ∧ c'.label = c.label ∧
      c' = if i ∈ (s.hub.channel e.investigationId now).subscribers then c.offered e else c := by
  rw [fanOut_getElem?] at hc'
  obtain ⟨c, hc, heq⟩ := map_eq_some_iff.mp hc'
  refine ⟨c, hc, ?_, heq.symm⟩
  rw [← heq]
  split_ifs
  · exact Connection.label_offered
  · rfl

theorem entries_fanOut : (s.fanOut cfg e now).entries k =
    s.entries k ++ if e.investigationId = k then [e] else [] := by
  unfold entries fanOut
  rw [filter_append, filter_singleton]
  by_cases hk : e.investigationId = k
  · rw [if_pos hk, decide_eq_true hk, cond_true]
  · rw [if_neg hk, decide_eq_false hk, cond_false]

theorem offered_of_closed {c : Connection Value} (h : c.subscription.closed = true) :
    c.offered e = c := by
  unfold Connection.offered Subscription.offer
  rw [if_pos h]

theorem Sound.fanOut_owned (h : s.Sound codec k) (id : String) (now' : ℚ) :
    ∀ i ∈ ((s.fanOut cfg e now).hub.channel id now').subscribers,
      ∃ c, (s.fanOut cfg e now).connections[i]? = some c ∧ c.subscription.investigationId = id := by
  intro i hi
  have hold : i ∈ (s.hub.channel id now').subscribers := by
    unfold System.fanOut at hi
    by_cases hid : id = e.investigationId
    · rw [hid, Hub.channel_store_self] at hi
      rw [hid, (s.hub.channel_agrees e.investigationId now' now).subscribers]
      exact hi
    · rw [Hub.channel_store_of_ne hid] at hi
      exact hi
  obtain ⟨c, hc, hcid⟩ := h.owned id now' i hold
  rw [fanOut_getElem?, hc]
  refine ⟨_, rfl, ?_⟩
  rw [← hcid]
  split_ifs
  · exact congrArg Prod.fst Connection.label_offered
  · rfl

theorem Sound.fanOut_self (h : s.Sound codec e.investigationId)
    (hseq : (s.hub.channel e.investigationId now).lastSeq < e.seq) :
    (s.fanOut cfg e now).Sound codec e.investigationId := by
  have hchannel : ∀ now', (s.fanOut cfg e now).hub.channel e.investigationId now' =
      (s.hub.channel e.investigationId now).record cfg e now := by
    intro now'
    exact Hub.channel_store_self now'
  have hentries : (s.fanOut cfg e now).entries e.investigationId =
      s.entries e.investigationId ++ [e] := by
    rw [entries_fanOut, if_pos rfl]
  constructor
  · intro now'
    rw [hchannel, hentries]
    exact (h.retains now).record hseq now
  · intro i c' hc' hid hopen now'
    obtain ⟨c, hc, hlabel, _⟩ := fanOut_label hc'
    have hid' : c.subscription.investigationId = e.investigationId :=
      (congrArg Prod.fst hlabel).symm.trans hid
    have hopen' : c.subscription.closed = false :=
      (congrArg (fun l => l.2.1) hlabel).symm.trans hopen
    rw [hchannel]
    exact h.subscribed i c hc hid' hopen' now
  · exact h.fanOut_owned
  · intro c' hmem hid now'
    obtain ⟨i, hc'⟩ := List.getElem?_of_mem hmem
    obtain ⟨c, hc, hlabel, heq⟩ := fanOut_label hc'
    have hid' : c.subscription.investigationId = e.investigationId :=
      (congrArg Prod.fst hlabel).symm.trans hid
    have hoffered : c' = c.offered e := by
      rw [heq]
      split_ifs with hi
      · rfl
      · have hclosed : c.subscription.closed = true := by
          by_contra hopen
          exact hi (h.subscribed i c hc hid' (Bool.eq_false_iff.mpr hopen) now)
        exact (offered_of_closed hclosed).symm
    have htracks := h.tracked c (mem_of_getElem? hc) hid' now
    rw [hchannel, hentries, hoffered]
    exact htracks.offered hseq

theorem Sound.fanOut_other (h : s.Sound codec k) (hk : e.investigationId ≠ k) :
    (s.fanOut cfg e now).Sound codec k := by
  have hchannel : ∀ now', (s.fanOut cfg e now).hub.channel k now' = s.hub.channel k now' := by
    intro now'
    exact Hub.channel_store_of_ne hk.symm now'
  have hentries : (s.fanOut cfg e now).entries k = s.entries k := by
    rw [entries_fanOut, if_neg hk, append_nil]
  have hsame : ∀ (i : ℕ) (c' : Connection Value), (s.fanOut cfg e now).connections[i]? = some c' →
      c'.subscription.investigationId = k → s.connections[i]? = some c' := by
    intro i c' hc' hid
    obtain ⟨c, hc, hlabel, heq⟩ := fanOut_label hc'
    have hid' : c.subscription.investigationId = k := (congrArg Prod.fst hlabel).symm.trans hid
    have hi : i ∉ (s.hub.channel e.investigationId now).subscribers := by
      intro hi
      obtain ⟨c₀, hc₀, hid₀⟩ := h.owned e.investigationId now i hi
      rw [hc, Option.some.injEq] at hc₀
      exact hk (hid₀.symm.trans (hc₀ ▸ hid'))
    rw [if_neg hi] at heq
    exact heq ▸ hc
  constructor
  · intro now'
    rw [hchannel, hentries]
    exact h.retains now'
  · intro i c' hc' hid hopen now'
    rw [hchannel]
    exact h.subscribed i c' (hsame i c' hc' hid) hid hopen now'
  · exact h.fanOut_owned
  · intro c' hmem hid now'
    obtain ⟨i, hc'⟩ := List.getElem?_of_mem hmem
    rw [hchannel, hentries]
    exact h.tracked c' (mem_of_getElem? (hsame i c' hc' hid)) hid now'

end FanOut

theorem Sound.publish (h : s.Sound codec k) (e : TimelineEvent Value) (now swept : ℚ)
    (hspared : (s.fanOut cfg e now).hub.channels k ≠ none →
      (s.publish cfg e now swept).hub.channels k ≠ none) :
    (s.publish cfg e now swept).Sound codec k := by
  unfold System.publish at hspared ⊢
  dsimp only at hspared ⊢
  split_ifs at hspared ⊢ with hstale
  · exact h.touch e.investigationId now
  · have hfanned : (s.fanOut cfg e now).Sound codec k := by
      by_cases hk : e.investigationId = k
      · subst hk
        exact h.fanOut_self (not_le.mp hstale)
      · exact h.fanOut_other hk
    exact hfanned.sweep swept hspared

theorem Sound.subscribe (h : s.Sound codec k) (id : String) (afterSeq : Option ℤ)
    (requestId : String) (now : ℚ) : (s.subscribe cfg id afterSeq requestId now).Sound codec k := by
  unfold System.subscribe
  dsimp only
  split_ifs with hfull
  · exact h.touch id now
  · generalize hnew : Connection.opening cfg (s.hub.channel id now) id afterSeq requestId = new
    have hnewId : new.subscription.investigationId = id := hnew ▸ rfl
    have hbefore : ∀ i c, s.connections[i]? = some c → (s.connections ++ [new])[i]? = some c :=
      fun i c hc => (List.getElem?_append_left (List.getElem?_eq_some_iff.mp hc).1).trans hc
    have hlast : (s.connections ++ [new])[s.connections.length]? = some new := by
      rw [List.getElem?_append_right le_rfl, Nat.sub_self]
      rfl
    -- a connection is an earlier one, or the new one
    have hsplit : ∀ (i : ℕ) (c : Connection Value), (s.connections ++ [new])[i]? = some c →
        s.connections[i]? = some c ∨ (i = s.connections.length ∧ c = new) := by
      intro i c hc
      rcases Nat.lt_trichotomy i s.connections.length with hlt | heq | hgt
      · rw [List.getElem?_append_left hlt] at hc
        exact Or.inl hc
      · rw [heq, hlast, Option.some.injEq] at hc
        exact Or.inr ⟨heq, hc.symm⟩
      · have hlength := (List.getElem?_eq_some_iff.mp hc).1
        rw [length_append, length_singleton] at hlength
        omega
    constructor
    · intro now'
      by_cases hk : k = id
      · have hretains := h.retains now
        rw [hk] at hretains ⊢
        rw [Hub.channel_store_self]
        exact hretains.congr rfl rfl
      · dsimp only
        rw [Hub.channel_store_of_ne hk]
        exact h.retains now'
    · intro i c hc hid hopen now'
      rcases hsplit i c hc with hold | ⟨hi, hc'⟩
      · by_cases hk : k = id
        · rw [hk, Hub.channel_store_self]
          exact Finset.mem_insert_of_mem (hk ▸ h.subscribed i c hold hid hopen now)
        · rw [Hub.channel_store_of_ne hk]
          exact h.subscribed i c hold hid hopen now'
      · have hk : k = id := by rw [← hid, hc', hnewId]
        rw [hk, Hub.channel_store_self, hi]
        exact Finset.mem_insert_self _ _
    · intro id' now' i hi
      by_cases hid : id' = id
      · rw [hid, Hub.channel_store_self] at hi
        rcases Finset.mem_insert.mp hi with hnewest | hold
        · exact ⟨new, hnewest ▸ hlast, hnewId.trans hid.symm⟩
        · obtain ⟨c, hc, hcid⟩ := h.owned id now i hold
          exact ⟨c, hbefore i c hc, hcid.trans hid.symm⟩
      · rw [Hub.channel_store_of_ne hid] at hi
        obtain ⟨c, hc, hcid⟩ := h.owned id' now' i hi
        exact ⟨c, hbefore i c hc, hcid⟩
    · intro c hmem hid now'
      by_cases hk : k = id
      · subst hk
        rw [Hub.channel_store_self]
        rcases mem_append.mp hmem with hold | hnewest
        · exact h.tracked c hold hid now
        · have htracks : new.Tracks codec (s.entries k) (s.hub.channel k now).lastSeq := by
            rw [← hnew]
            exact Connection.tracks_opening (h.retains now) k requestId afterSeq
          rw [mem_singleton.mp hnewest]
          exact htracks
      · rw [Hub.channel_store_of_ne hk]
        rcases mem_append.mp hmem with hold | hnewest
        · exact h.tracked c hold hid now'
        · rw [mem_singleton.mp hnewest, hnewId] at hid
          exact absurd hid.symm hk

theorem Sound.set (h : s.Sound codec k) {i : ℕ} {c : Connection Value}
    (hc : s.connections[i]? = some c) (c' : Connection Value)
    (hid : c'.subscription.investigationId = c.subscription.investigationId)
    (hopen : c'.subscription.closed = false → c.subscription.closed = false)
    (htracks : ∀ top, c.Tracks codec (s.entries k) top → c'.Tracks codec (s.entries k) top) :
    ({ s with connections := s.connections.set i c' } : System Value).Sound codec k := by
  have hi : i < s.connections.length := (List.getElem?_eq_some_iff.mp hc).1
  have hsplit : ∀ (j : ℕ) (c₁ : Connection Value), (s.connections.set i c')[j]? = some c₁ →
      (j = i ∧ c₁ = c') ∨ s.connections[j]? = some c₁ := by
    intro j c₁ hj
    by_cases hji : i = j
    · rw [← hji, List.getElem?_set_self hi, Option.some.injEq] at hj
      exact Or.inl ⟨hji.symm, hj.symm⟩
    · rw [List.getElem?_set_ne hji] at hj
      exact Or.inr hj
  constructor
  · exact h.retains
  · intro j c₁ hj hid₁ hopen₁ now
    rcases hsplit j c₁ hj with ⟨hji, hc₁⟩ | hold
    · rw [hc₁] at hid₁ hopen₁
      rw [hji]
      exact h.subscribed i c hc (hid.symm.trans hid₁) (hopen hopen₁) now
    · exact h.subscribed j c₁ hold hid₁ hopen₁ now
  · intro id now j hj
    obtain ⟨c₁, hc₁, hid₁⟩ := h.owned id now j hj
    by_cases hji : i = j
    · rw [← hji, List.getElem?_set_self hi]
      rw [← hji, hc, Option.some.injEq] at hc₁
      exact ⟨c', rfl, hid.trans (hc₁ ▸ hid₁)⟩
    · rw [List.getElem?_set_ne hji]
      exact ⟨c₁, hc₁, hid₁⟩
  · intro c₁ hmem hid₁ now
    obtain ⟨j, hj⟩ := List.getElem?_of_mem hmem
    rcases hsplit j c₁ hj with ⟨_, hc₁⟩ | hold
    · rw [hc₁] at hid₁ ⊢
      exact htracks _ (h.tracked c (mem_of_getElem? hc) (hid.symm.trans hid₁) now)
    · exact h.tracked c₁ (mem_of_getElem? hold) hid₁ now

theorem Sound.close (h : s.Sound codec k) (i : ℕ) (now : ℚ) : (s.close i now).Sound codec k := by
  unfold System.close
  cases hc : s.connections[i]? with
  | none => exact h
  | some c =>
    dsimp only
    split_ifs with hclosed
    · exact h
    · have hset := h.set hc c.closed rfl
        (fun hopen => absurd hopen (by simp [Connection.closed])) fun top htracks => htracks.closed
      have hi : i < s.connections.length := (List.getElem?_eq_some_iff.mp hc).1
      have hchannel := s.hub.channel_unsubscribe c.subscription.investigationId i now
      refine hset.rehub (fun now' => (hchannel k now').1) (fun now' => (hchannel k now').2.1) ?_ ?_
      · intro j c₁ hj hopen now' hmem
        have hji : j ≠ i := by
          intro hji
          rw [hji] at hj
          rw [List.getElem?_set_self hi, Option.some.injEq] at hj
          rw [← hj] at hopen
          exact absurd hopen (by simp [Connection.closed])
        rw [(hchannel k now').2.2]
        split_ifs
        · exact Finset.mem_erase.mpr ⟨hji, hmem⟩
        · exact hmem
      · intro id now' j hj
        rw [(hchannel id now').2.2] at hj
        split_ifs at hj
        · exact Finset.mem_of_mem_erase hj
        · exact hj

theorem Sound.resume (h : s.Sound codec k) (i : ℕ) (now : ℚ) :
    (s.resume codec i now).Sound codec k := by
  unfold System.resume
  cases hc : s.connections[i]? with
  | none => exact h
  | some c =>
    have hlabel : (c.resume codec).label = c.label := Connection.label_resume
    have hset := h.set hc (c.resume codec) (congrArg Prod.fst hlabel)
      (fun hopen => (congrArg (fun l => l.2.1) hlabel).symm.trans hopen)
      fun top htracks => htracks.resume
    dsimp only
    split_ifs
    · exact h
    · exact hset.close i now
    · exact hset

theorem Sound.cancel (h : s.Sound codec k) (i : ℕ) (now : ℚ) : (s.cancel i now).Sound codec k := by
  unfold System.cancel
  cases hc : s.connections[i]? with
  | none => exact h
  | some c =>
    have hset := h.set hc { c with point := .finished } rfl (fun hopen => hopen)
      fun top htracks => htracks.finish
    dsimp only
    cases c.point with
    | finished => exact h
    | start => exact hset
    | _ => exact hset.close i now

end System

namespace Setup

variable {sys : Setup Value} {k : String} {s : System Value}

theorem sound_step (h : s.Sound sys.codec k) (act : Act Value) (hspared : sys.Spares k s act) :
    (sys.step s act).Sound sys.codec k := by
  cases act with
  | publish e now swept => exact h.publish e now swept hspared
  | subscribe id afterSeq requestId now => exact h.subscribe id afterSeq requestId now
  | resume i now => exact h.resume i now
  | cancel i now => exact h.cancel i now
  | disconnect i now => exact h.close i now

theorem sound_run (acts : List (Act Value)) (h : s.Sound sys.codec k)
    (hunpruned : sys.Unpruned k s acts) : (acts.foldl sys.step s).Sound sys.codec k := by
  induction acts generalizing s with
  | nil => exact h
  | cons act acts ih => exact ih (sound_step h act hunpruned.1) hunpruned.2

/-- The frames of a connection that resumed after `r` are in the order of their ids, and one with an
id is yielded only after the frame of every event accepted between, or a gap that covers it. -/
theorem frames_ordered (sys : Setup Value) (k : String) (lastPrune : ℚ) (acts : List (Act Value))
    (hunpruned : sys.Unpruned k (System.fresh lastPrune) acts) {c : Connection Value} {r : ℤ}
    (hc : c ∈ (sys.run lastPrune acts).connections) (hk : c.subscription.investigationId = k)
    (hr : c.afterSeq = some r) :
    (c.frames.filterMap Frame.id?).Pairwise (· < ·) ∧
      ∀ earlier frame later s, c.frames = earlier ++ frame :: later → frame.id? = some s →
        ∀ a ∈ (sys.run lastPrune acts).accepted, a.investigationId = k → r < a.seq → a.seq < s →
          (∃ f ∈ earlier, f.id? = some a.seq ∧ render sys.codec c.requestId k a = .ok f) ∨
            ∃ f ∈ earlier, ∃ gap, f.gap? = some gap ∧ gap.Covers a.seq := by
  have hsound : (sys.run lastPrune acts).Sound sys.codec k :=
    sound_run acts (System.sound_fresh lastPrune) hunpruned
  have htracks := hsound.tracked c hc hk 0
  obtain ⟨last, hfeed⟩ := htracks.reads r hr
  have hhonest : Honest (Owed ((sys.run lastPrune acts).entries k) r) c.marks :=
    Connection.marks_feed c last ▸ hfeed.honest
  constructor
  · rw [← Frame.shown_marks]
    exact hhonest.ascending
  · intro earlier frame later s hframes hid a ha hak hra has
    have hentry : a ∈ (sys.run lastPrune acts).entries k :=
      mem_filter.mpr ⟨ha, decide_eq_true hak⟩
    have hmarks : c.marks = earlier.filterMap Frame.mark? ++
        Mark.shown s :: later.filterMap Frame.mark? := by
      unfold Connection.marks
      rw [hframes, filterMap_append, filterMap_cons_some (Frame.mark?_of_id? hid)]
    obtain ⟨m, hm, hcovers⟩ :=
      hhonest.accounted _ s _ hmarks a.seq ⟨hra, a, hentry, rfl⟩ has
    obtain ⟨f, hf, hfm⟩ := mem_filterMap.mp hm
    have hmem : f ∈ c.frames := by
      rw [hframes]
      exact mem_append_left _ hf
    rcases Frame.of_mark? hfm with ⟨n, hn, hfid⟩ | ⟨gap, hgap, hfgap⟩
    · rw [hn] at hcovers
      obtain rfl : n = a.seq := hcovers
      -- ids name events: the frame with this one is the event's own
      obtain ⟨a', ha', hseq, hrender⟩ := htracks.genuine.frames f hmem a.seq hfid
      have hsame : a' = a := (hsound.retains 0).eq_of_seq ha' hentry hseq
      rw [hsame, hk] at hrender
      exact Or.inl ⟨f, hf, hfid, hrender⟩
    · rw [hgap] at hcovers
      exact Or.inr ⟨f, hf, gap, hfgap, hcovers⟩

end Setup

def bareEvent (seq : ℕ) : TimelineEvent Empty where
  investigationId := "inv"
  seq := seq
  type := "step.started"
  ts := 0
  data := Dict.empty
  requestId := none
  seq_nonneg := Int.natCast_nonneg seq
  named := by decide
  typed := ⟨by decide, by simp⟩
  unshadowed := fun _ _ => not_mem_nil

def bareCodec : Codec Empty where
  isoUtc := fun _ => "1970-01-01T00:00:00Z"
  dumps := fun fields => .ok ("\x7b" ++ ",".intercalate (fields.map fun field =>
    "\"" ++ field.1 ++ "\":" ++ match field.2 with
      | .text text => "\"" ++ text ++ "\""
      | .number n => toString n) ++ "\x7d")

def smallQueue : Setup Empty := ⟨⟨1, 2, 3600, 32, by decide, by decide⟩, bareCodec⟩

def sleepyClient : List (Act Empty) :=
  [.publish (bareEvent 0) 0 0, .subscribe "inv" (some 0) "req" 1, .publish (bareEvent 1) 2 2,
    .publish (bareEvent 1) 3 3, .publish (bareEvent 2) 4 4, .publish (bareEvent 3) 5 5,
    .resume 0 6, .resume 0 7, .resume 0 8]

theorem frames_ordered_sleepy :
    ∃ c ∈ (smallQueue.run 0 sleepyClient).connections,
      c.frames.filterMap Frame.gap? = [⟨1, 2, "slow_consumer"⟩] ∧
      c.frames.filterMap Frame.id? = [3] ∧ (c.frames.filterMap Frame.id?).Pairwise (· < ·) := by
  obtain ⟨c, hc⟩ : ∃ c, (smallQueue.run 0 sleepyClient).connections = [c] :=
    length_eq_one_iff.mp (by decide +kernel)
  have hmem : c ∈ (smallQueue.run 0 sleepyClient).connections := hc ▸ mem_singleton_self c
  have hfacts : ∀ c ∈ (smallQueue.run 0 sleepyClient).connections,
      c.subscription.investigationId = "inv" ∧ c.afterSeq = some 0 ∧
        c.frames.filterMap Frame.gap? = [⟨1, 2, "slow_consumer"⟩] ∧
        c.frames.filterMap Frame.id? = [3] := by decide +kernel
  obtain ⟨hk, hr, hgap, hid⟩ := hfacts c hmem
  have hordered := Setup.frames_ordered smallQueue "inv" 0 sleepyClient (by decide +kernel) hmem hk hr
  exact ⟨c, hmem, hgap, hid, hordered.1⟩

end OmniSense.Stream
