import OmniSense.Connectors.Runtime

/-! When a committed page has all its records acknowledged: the dedup keys that an attempt marks
must be paid for before the next attempt reads them. -/

namespace OmniSense.Connectors

open Library Library.Effect List World Triple

/-! ## Calls -/

def World.Unscripted (I : World → Prop) : Prop := ∀ w answers, I w → I { w with answers := answers }

section

variable {I : World → Prop}

theorem World.Unscripted.next (h : Unscripted I) : Keeps I next := by
  intro w hw
  rcases w with ⟨_ | ⟨a, rest⟩, _, _, _, _, _, _⟩
  · exact hw
  · exact h _ rest hw

theorem World.Unscripted.await (h : Unscripted I) : Keeps I await := by
  refine h.next.bind fun a => ?_
  cases a.raised with
  | none => exact .ret _
  | some err => exact .raise err

theorem World.Unscripted.closing {α : Type} (h : Unscripted I) {P : World → Prop}
    {x : Runtime α} {Q : α → World → Prop} (hx : Triple P x Q I) : Triple P (closing x) Q I :=
  hx.catching fun _ => bind h.await fun _ => .raise fun _ hw => hw

end

def World.on (Φ : List String → List Ack → List Entry → Prop) (w : World) : Prop :=
  Φ w.seenKeys w.acked w.journal

variable {Φ : List String → List Ack → List Entry → Prop}

theorem World.unscripted_on : Unscripted (on Φ) := fun _ _ h => h

theorem withState_keeps (f : RunState → RunState) :
    Keeps (on Φ) (modify (withState f) : Runtime PUnit) := .update fun _ h => h

theorem seen_spec (key : String) : Triple (on Φ) (seen key)
    (fun hit w => w.on Φ ∧ (hit = true → key ∈ w.seenKeys)) (on Φ) := by
  refine bind unscripted_on.next fun a => ?_
  rcases a.raised with _ | err
  · intro w hw
    exact ⟨hw, fun hit => of_decide_eq_true hit⟩
  · cases err <;> exact fun w hw => by first | exact hw | exact ⟨hw, nofun⟩

theorem World.seenKeys_see {key : String} {w : World} {K : List String} (h : w.seenKeys ⊆ K)
    (hkey : key ∈ K) : (w.see key).seenKeys ⊆ K := by
  unfold see
  split_ifs
  · exact h
  · exact cons_subset.mpr ⟨hkey, h⟩

/-- The dedup store holds no key outside `K`. -/
def World.Within (acked : List Ack) (journal : List Entry) (K : List String) : World → Prop :=
  on fun seen a j => a = acked ∧ j = journal ∧ seen ⊆ K

variable {acked : List Ack} {journal : List Entry} {K : List String}

theorem mark_keeps {key : String} (hkey : key ∈ K) (ttl : ℤ) :
    Keeps (Within acked journal K) (mark key ttl) := by
  unfold mark
  split
  · exact .ret _
  · refine unscripted_on.next.bind fun a => .bind (.update fun w hw => ?_) fun _ => ?_
    · split_ifs
      · obtain ⟨hacked, hjournal, hseen⟩ := hw
        refine ⟨?_, ?_, seenKeys_see hseen hkey⟩
        · unfold see; split_ifs <;> exact hacked
        · unfold see; split_ifs <;> exact hjournal
      · exact hw
    · split
      · exact .raise _
      · exact .ret _

theorem World.Within.mono {K' : List String} (h : K ⊆ K') {w : World}
    (hw : w.Within acked journal K) : w.Within acked journal K' :=
  ⟨hw.1, hw.2.1, List.Subset.trans hw.2.2 h⟩

theorem anySeen_spec (keys : List String) : Triple (Within acked journal K) (anySeen keys)
    (fun hit w => w.Within acked journal K ∧ (hit = true → ∃ key ∈ keys, key ∈ K))
    (Within acked journal K) := by
  induction keys with
  | nil => exact .ret fun w hw => ⟨hw, nofun⟩
  | cons key rest ih =>
    refine (seen_spec key).bind fun hit => ?_
    cases hit with
    | true =>
      refine .ret fun w ⟨hw, hhit⟩ => ⟨hw, fun _ => ⟨key, mem_cons_self, ?_⟩⟩
      exact hw.2.2 (hhit rfl)
    | false =>
      refine ih.weaken (fun w hw => hw.1) (fun hit w ⟨hw, hhit⟩ => ⟨hw, fun h => ?_⟩) fun w hw => hw
      obtain ⟨key, hkey, hK⟩ := hhit h
      exact ⟨key, mem_cons_of_mem _ hkey, hK⟩

theorem markAll_keeps (ttl : ℤ) {keys : List String} (h : keys ⊆ K) :
    Keeps (Within acked journal K) (markAll ttl keys) := by
  induction keys with
  | nil => exact .ret _
  | cons key rest ih =>
    obtain ⟨hkey, hrest⟩ := cons_subset.mp h
    exact (mark_keeps hkey ttl).bind fun _ => ih hrest

variable (c : Connector)

theorem isDuplicate_spec (signal : Signal) :
    Triple (Within acked journal K) (c.isDuplicate signal)
      (fun hit w => if hit then
          w.Within acked journal K ∧ ∃ key ∈ (c.dedupKeys signal).layers, key ∈ K
        else w.Within acked journal ((c.dedupKeys signal).layers ++ K))
      (Within acked journal ((c.dedupKeys signal).layers ++ K)) := by
  -- A hit shares a key with what was marked; a miss marks the keys of the signal.
  have hgrow : ∀ w, Within acked journal K w →
      w.Within acked journal ((c.dedupKeys signal).layers ++ K) :=
    fun _ => Within.mono (subset_append_right _ _)
  unfold Connector.isDuplicate
  split
  · refine ((anySeen_spec _).weaken (fun _ h => h) (fun _ _ h => h) hgrow).bind fun hit => ?_
    cases hit with
    | true => exact .ret fun w hw => ⟨hw.1, hw.2 rfl⟩
    | false =>
      refine bind (Q := fun _ => Within acked journal _) ?_ fun _ => .ret fun _ hw => hw
      refine weaken (markAll_keeps _ (subset_append_left _ _)) ?_ (fun _ _ h => h)
        fun _ h => h
      exact fun w hw => hgrow w hw.1
  · exact .ret hgrow

/-! ## A page -/

def Connector.keysOf (records : List (RawRecord × Signal)) : List String :=
  records.flatMap fun r => (c.dedupKeys r.2).layers

/-- Every record that maps to a signal shares a key with `K`. -/
def Connector.Shares (K : List String) (page : List Fetched) : Prop :=
  ∀ f ∈ page, ∀ signal, f.normalized = .ok (some signal) →
    ∃ key ∈ (c.dedupKeys signal).layers, key ∈ K

theorem normalizeAndDedup_spec (page : List Fetched) (stats : Stats) :
    Triple (Within acked journal K) (c.normalizeAndDedup page stats)
      (fun r w => w.Within acked journal (c.keysOf r.1 ++ K) ∧ c.Shares (c.keysOf r.1 ++ K) page)
      (fun w => w.journal = journal) := by
  induction page generalizing K stats with
  | nil => exact .ret fun w hw => ⟨hw, fun f hf => absurd hf not_mem_nil⟩
  | cons f rest ih =>
    obtain ⟨record, normalized⟩ := f
    have hskip : ∀ stats, (∀ signal, normalized = .ok (some signal) →
        ∃ key ∈ (c.dedupKeys signal).layers, key ∈ K) →
        Triple (Within acked journal K) (c.normalizeAndDedup rest stats)
          (fun r w => w.Within acked journal (c.keysOf r.1 ++ K) ∧
            c.Shares (c.keysOf r.1 ++ K) (⟨record, normalized⟩ :: rest))
          (fun w => w.journal = journal) := by
      intro stats hrecord
      refine (ih stats).weaken (fun _ h => h) (fun r w ⟨hw, hrest⟩ => ⟨hw, ?_⟩) fun _ h => h
      refine forall_mem_cons.mpr ⟨fun signal hsignal => ?_, hrest⟩
      obtain ⟨key, hkey, hK⟩ := hrecord signal hsignal
      exact ⟨key, hkey, mem_append_right _ hK⟩
    rcases normalized with err | _ | signal
    · cases err
      case normalization => exact hskip _ nofun
      all_goals exact .raise fun w hw => hw.2.1
    · exact hskip _ nofun
    · refine ((isDuplicate_spec c signal).weaken (fun _ h => h) (fun _ _ h => h)
        fun w hw => hw.2.1).bind fun hit => ?_
      cases hit with
      | true =>
        refine .of_state fun w hw => (hskip _ fun signal' hsignal => ?_).weaken ?_
          (fun _ _ h => h) fun _ h => h
        · obtain rfl := Option.some.inj (Except.ok.inj hsignal)
          exact hw.2
        · exact fun w' hw' => hw' ▸ hw.1
      | false =>
        refine bind (ih _) fun r => .ret fun w ⟨hw, hrest⟩ => ?_
        have hkeys : c.keysOf r.1 ++ ((c.dedupKeys signal).layers ++ K) ⊆
            c.keysOf ((record, signal) :: r.1) ++ K := by
          intro key
          simp only [Connector.keysOf, flatMap_cons, mem_append]
          rintro (hkey | hkey | hkey)
          · exact .inl (.inr hkey)
          · exact .inl (.inl hkey)
          · exact .inr hkey
        refine ⟨hw.mono hkeys, forall_mem_cons.mpr ⟨fun signal' hsignal => ?_, ?_⟩⟩
        · obtain rfl := Option.some.inj (Except.ok.inj hsignal)
          refine ⟨_, mem_cons_self, ?_⟩
          simp [Connector.keysOf, DedupKeys.layers]
        · intro f hf signal' hsignal
          obtain ⟨key, hkey, hK⟩ := hrest f hf signal' hsignal
          exact ⟨key, hkey, hkeys hK⟩

/-! ## The journal -/

def Covered (acked : List Ack) (o : Owed) : Prop :=
  ∃ a ∈ acked, a.record = o.record ∨ ∃ keys ∈ o.keys, ∃ key ∈ keys, key ∈ a.keys

def Entry.Settled : Entry → Prop
  | .commit _ _ => True
  | .abort unpaid => unpaid = []

def Honest (journal : List Entry) : Prop :=
  ∀ before page acked after, journal = before ++ .commit page acked :: after →
    (∀ e ∈ before, e.Settled) → ∀ o ∈ page, o.keys.isSome → Covered acked o

theorem Honest.append {journal : List Entry} (h : Honest journal) {e : Entry}
    (he : ∀ page acked, e = .commit page acked → (∀ e ∈ journal, e.Settled) →
      ∀ o ∈ page, o.keys.isSome → Covered acked o) : Honest (journal ++ [e]) := by
  intro before page acked after heq
  rcases eq_nil_or_concat after with rfl | ⟨after, last, rfl⟩
  · obtain ⟨rfl, hlast⟩ := append_inj' heq rfl
    exact he page acked (singleton_inj.mp hlast)
  · rw [concat_eq_append, ← cons_append, ← append_assoc] at heq
    exact h before page acked after (append_inj' heq rfl).1

def World.Ready : World → Prop := on fun seen acked journal =>
  Honest journal ∧ ((∀ e ∈ journal, e.Settled) → ∀ key ∈ seen, ∃ a ∈ acked, key ∈ a.keys)

def World.Reliable : World → Prop := on fun _ _ journal => Honest journal

theorem World.abort_ready {w : World} (h : w.Reliable) : w.abort.Ready := by
  refine ⟨h.append nofun, fun hsettled key hkey => ?_⟩
  have hunpaid : w.seenKeys.filter (fun key => ¬w.paid key) = [] :=
    hsettled _ (mem_append_right _ (mem_singleton_self _))
  have hpaid : w.paid key := by
    simpa only [decide_not, Bool.not_eq_true', decide_eq_false_iff_not, not_not] using
      filter_eq_nil_iff.mp hunpaid key hkey
  exact hpaid

/-! ## A batch -/

def Connector.Handed (batch : EmittedBatch) (w : World) : Prop :=
  Honest w.journal ∧ ∃ K, w.seenKeys ⊆ c.keysOf batch.records ++ K ∧
    c.Shares (c.keysOf batch.records ++ K) batch.page ∧
      ((∀ e ∈ w.journal, e.Settled) → ∀ key ∈ K, w.paid key)

theorem emit_spec (page : FetchPage) (floor : Option ℤ) (stats : Stats) :
    Triple Ready (c.emit page floor stats) c.Handed Reliable := by
  refine .of_state fun w hw => ?_
  have hstart : ∀ w', w' = w → w'.Within w.acked w.journal w.seenKeys := by
    rintro w' rfl
    exact ⟨rfl, rfl, List.Subset.refl _⟩
  have hrest : Triple (Within w.acked w.journal w.seenKeys)
      (c.normalizeAndDedup page.records stats >>= fun r =>
        pure ⟨r.1, Connector.guardWatermark page.cursor floor, r.2, page.records, page.cursor⟩)
      c.Handed Reliable := by
    refine ((normalizeAndDedup_spec c page.records stats).weaken (fun _ h => h) (fun _ _ h => h)
      fun w' hw' => ?_).bind fun r => .ret fun w' hw' => ?_
    · change Honest w'.journal
      exact hw' ▸ hw.1
    · obtain ⟨⟨hacked, hjournal, hseen⟩, hshares⟩ := hw'
      refine ⟨hjournal ▸ hw.1, w.seenKeys, hseen, hshares, fun hsettled key hkey => ?_⟩
      change ∃ a ∈ w'.acked, key ∈ a.keys
      rw [hacked]
      exact hw.2 (hjournal ▸ hsettled) key hkey
  unfold Connector.emit
  split
  · refine bind (Q := fun _ => Within w.acked w.journal w.seenKeys) ?_ fun _ => hrest
    refine weaken unscripted_on.await hstart (fun _ _ h => h) fun w' hw' => ?_
    change Honest w'.journal
    exact hw'.2.1 ▸ hw.1
  · exact hrest.weaken hstart (fun _ _ h => h) fun _ h => h

/-- Frozen but for acknowledgements: every key in `T` is paid for or in `P`. -/
def World.Owing (seen : List String) (journal : List Entry) (T P : String → Prop) : World → Prop :=
  on fun s a j => s = seen ∧ j = journal ∧
    ∀ key, T key → (∃ ack ∈ a, key ∈ ack.keys) ∨ P key

variable {seen : List String} {T P : String → Prop}

theorem World.Owing.imp {P' : String → Prop} {w : World} (hw : w.Owing seen journal T P)
    (h : ∀ key, P key → P' key) : w.Owing seen journal T P' :=
  ⟨hw.1, hw.2.1, fun key hT => (hw.2.2 key hT).imp_right (h key)⟩

theorem World.Owing.acknowledge {keys : List String} {w : World}
    (h : w.Owing seen journal T fun key => key ∈ keys ∨ P key) (record : RawRecord)
    (event : RawRecordEvent ⊕ DlqEvent) :
    (w.acknowledge ⟨record, keys, event⟩).Owing seen journal T P := by
  obtain ⟨hseen, hjournal, howing⟩ := h
  refine ⟨hseen, hjournal, fun key hT => ?_⟩
  rcases howing key hT with ⟨a, ha, hkey⟩ | hkey | hP
  · exact .inl ⟨a, mem_append_left _ ha, hkey⟩
  · exact .inl ⟨_, mem_append_right _ (mem_singleton_self _), hkey⟩
  · exact .inr hP

variable (rt : ConnectorRuntime)

def Connector.dueTo (events : List Outgoing) : List String :=
  events.flatMap fun e => (c.dedupKeys e.signal).layers

open ConnectorRuntime

theorem archiveRecord_spec (record : RawRecord) (signal : Signal) :
    Triple (Owing seen journal T fun key => key ∈ (c.dedupKeys signal).layers ∨ P key)
      (archiveRecord rt c record signal)
      (fun event => Owing seen journal T fun key => key ∈ c.dueTo event.toList ∨ P key)
      (fun w => w.journal = journal) := by
  have hevent : ∀ event : RawRecordEvent, Triple
      (Owing seen journal T fun key => key ∈ (c.dedupKeys signal).layers ∨ P key)
      (pure (some ⟨event, record, signal⟩) : Runtime (Option Outgoing))
      (fun event => Owing seen journal T fun key => key ∈ c.dueTo event.toList ∨ P key)
      (fun w => w.journal = journal) := by
    intro event
    refine .ret fun w hw => ?_
    simpa only [Connector.dueTo, Option.toList_some, flatMap_cons, flatMap_nil,
      append_nil] using hw
  have hpark : ∀ raw err, Triple
      (Owing seen journal T fun key => key ∈ (c.dedupKeys signal).layers ∨ P key)
      (do
        toDlq rt c record signal raw err
        pure none)
      (fun event => Owing seen journal T fun key => key ∈ c.dueTo event.toList ∨ P key)
      (fun w => w.journal = journal) := by
    intro raw err
    refine bind (Q := fun _ => Owing seen journal T P) ?_ fun _ => .ret fun w hw => ?_
    · refine weaken (bind (withState_keeps _) fun _ =>
        bind unscripted_on.await fun _ => .update fun w hw => Owing.acknowledge hw record _) (fun _ h => h) (fun _ _ h => h)
        fun w hw => hw.2.1
    · exact hw.imp fun _ => .inr
  refine bind (weaken unscripted_on.next (fun _ h => h) (fun _ _ h => h)
    fun w hw => hw.2.1) fun a => ?_
  rcases a.raised with _ | err
  · exact hevent _
  · cases err
    case unavailable => exact hevent _
    all_goals
      dsimp only
      split
      · exact hpark _ _
      · exact .raise fun w hw => hw.2.1

theorem archiveAll_spec (records : List (RawRecord × Signal)) :
    Triple (Owing seen journal T fun key => key ∈ c.keysOf records ∨ P key)
      (archiveAll rt c records)
      (fun events => Owing seen journal T fun key => key ∈ c.dueTo events ∨ P key)
      (fun w => w.journal = journal) := by
  induction records generalizing P with
  | nil => exact .ret fun w hw => hw
  | cons r rest ih =>
    have hsplit : ∀ w, Owing seen journal T
        (fun key => key ∈ c.keysOf (r :: rest) ∨ P key) w →
        w.Owing seen journal T fun key =>
          key ∈ (c.dedupKeys r.2).layers ∨ key ∈ c.keysOf rest ∨ P key := by
      intro w hw
      simpa only [Connector.keysOf, flatMap_cons, mem_append, or_assoc] using hw
    refine bind ((archiveRecord_spec c rt r.1 r.2).weaken hsplit (fun _ _ h => h)
      fun _ h => h) fun event => ?_
    have hrest := ih (P := fun key => key ∈ c.dueTo event.toList ∨ P key)
    refine bind (hrest.weaken (fun w hw => ?_) (fun _ _ h => h) fun _ h => h)
      fun events => .ret fun w hw => ?_
    · refine hw.imp fun key => ?_
      rintro (hkey | hkey | hkey)
      · exact .inr (.inl hkey)
      · exact .inl hkey
      · exact .inr (.inr hkey)
    · refine hw.imp fun key hkey => ?_
      have happend : c.dueTo (event.toList ++ events) = c.dueTo event.toList ++ c.dueTo events :=
        flatMap_append
      rw [happend, mem_append]
      rcases hkey with hkey | hkey | hkey
      · exact .inl (.inr hkey)
      · exact .inl (.inl hkey)
      · exact .inr hkey

theorem publishAll_spec (events : List Outgoing) :
    Triple (Owing seen journal T fun key => key ∈ c.dueTo events ∨ P key)
      (publishAll c events) (fun _ => Owing seen journal T P)
      (fun w => w.journal = journal) := by
  induction events with
  | nil =>
    refine .ret fun w hw => hw.imp fun key hkey => ?_
    exact hkey.resolve_left not_mem_nil
  | cons event rest ih =>
    have hsplit : ∀ w, Owing seen journal T
        (fun key => key ∈ c.dueTo (event :: rest) ∨ P key) w →
        w.Owing seen journal T fun key =>
          key ∈ (c.dedupKeys event.signal).layers ∨ key ∈ c.dueTo rest ∨ P key := by
      intro w hw
      simpa only [Connector.dueTo, flatMap_cons, mem_append, or_assoc] using hw
    refine bind (weaken unscripted_on.await hsplit (fun _ _ h => h) fun w hw => hw.2.1)
      fun _ => ?_
    refine bind (Q := fun _ => Owing seen journal T fun key =>
      key ∈ c.dueTo rest ∨ P key) ?_ fun _ => ?_
    · exact .update fun w hw => Owing.acknowledge hw event.record _
    refine bind (weaken (withState_keeps _) (fun _ h => h) (fun _ _ h => h)
      fun w hw => hw.2.1) fun _ => ih

theorem commitTo_spec {key : CursorKey} {cursor : Cursor} {entries : World → List Entry}
    {I J : World → Prop} (hI : ∀ w as, I w → I { w with answers := as }) (hIJ : ∀ w, I w → J w)
    (hcommit : ∀ w, I w → J { w with
      cursors := Function.update w.cursors key (some cursor), journal := w.journal ++ entries w
      log := { w.log with commits := w.log.commits ++ [(key, cursor)] } }) :
    Triple I (commitTo key cursor entries) (fun _ => J) J := by
  -- From `I`, a commit leads to `J` whether it takes effect or not, and whether it raises or not.
  have hnext : Triple I next (fun _ => I) J := by
    intro w hw
    rcases w with ⟨_ | ⟨a, rest⟩, _, _, _, _, _, _⟩
    · exact hw
    · exact hI _ rest hw
  refine hnext.bind fun a => bind (Q := fun _ => J) (.update fun w hw => ?_) fun _ => ?_
  · split_ifs
    · exact hcommit w hw
    · exact hIJ w hw
  · cases a.raised with
    | none => exact .ret fun _ h => h
    | some err => exact .raise fun _ h => h

variable (key : CursorKey)

theorem commitCursor_spec (batch : EmittedBatch) {K : List String}
    (hshares : c.Shares K batch.page) (hhonest : Honest journal) :
    Triple (Owing seen journal (fun k => (∀ e ∈ journal, e.Settled) ∧ (k ∈ seen ∨ k ∈ K))
        fun _ => False)
      (commitCursor c key batch) (fun _ => Ready) Reliable := by
  -- Before the commit everything is paid for; after it the journal is one entry longer.
  have hready : ∀ w, Owing seen journal
      (fun k => (∀ e ∈ journal, e.Settled) ∧ (k ∈ seen ∨ k ∈ K)) (fun _ => False) w →
      w.Ready ∧ ((∀ e ∈ w.journal, e.Settled) → ∀ k ∈ K, w.paid k) := by
    rintro w ⟨hseen, hjournal, howing⟩
    refine ⟨⟨hjournal ▸ hhonest, fun hsettled k hk => ?_⟩, fun hsettled k hk => ?_⟩
    · exact (howing k ⟨hjournal ▸ hsettled, .inl (hseen ▸ hk)⟩).resolve_right id
    · exact (howing k ⟨hjournal ▸ hsettled, .inr hk⟩).resolve_right id
  have hcommit : ∀ w, Owing seen journal
      (fun k => (∀ e ∈ journal, e.Settled) ∧ (k ∈ seen ∨ k ∈ K)) (fun _ => False) w →
      ∀ cursors log, Ready { w with
        cursors := cursors
        journal := w.journal ++ [.commit (batch.page.filterMap (Fetched.owed c)) w.acked]
        log := log } := by
    intro w hw cursors log
    obtain ⟨hkeep, hpaid⟩ := hready w hw
    refine ⟨hkeep.1.append ?_, fun hsettled => hkeep.2 fun e he =>
      hsettled e (mem_append_left _ he)⟩
    rintro page acked heq hsettled o ho hmapped
    obtain ⟨rfl, rfl⟩ := Entry.commit.inj heq
    obtain ⟨f, hf, howed⟩ := mem_filterMap.mp ho
    unfold Fetched.owed at howed
    split at howed
    · cases howed
    · next signal hsignal =>
      cases howed
      obtain ⟨k, hk, hK⟩ := hshares f hf signal hsignal
      obtain ⟨a, ha, hka⟩ := hpaid hsettled k hK
      exact ⟨a, ha, .inr ⟨_, rfl, k, hk, hka⟩⟩
    · cases howed
      cases hmapped
  refine bind (Q := fun _ => Owing seen journal
    (fun k => (∀ e ∈ journal, e.Settled) ∧ (k ∈ seen ∨ k ∈ K)) fun _ => False) ?_ fun _ => ?_
  · exact .update fun _ h => h
  refine read fun w hw => ?_
  split_ifs
  · refine bind (Q := fun _ => Ready) ?_ fun _ => ?_
    · refine (commitTo_spec (fun _ _ h => h) (fun w hw => (hready w hw).1)
        fun w hw => hcommit w hw _ _).weaken (fun _ h => h) (fun _ _ h => h) fun _ h => h.1
    · exact .update fun _ h => h
  · exact .update fun w hw => (hready w hw).1

theorem persistBatch_spec (batch : EmittedBatch) :
    Triple (c.Handed batch) (persistBatch rt c key batch) (fun _ => Ready)
      Reliable := by
  refine .of_state fun w ⟨hhonest, K, hseen, hshares, hpaid⟩ => ?_
  have hreliable : ∀ w' : World, w'.journal = w.journal → w'.Reliable := fun w' h => by
    change Honest w'.journal
    exact h ▸ hhonest
  -- What is marked, and what the page shares, is paid for or among the keys of the batch.
  have hstart : ∀ w', w' = w → w'.Owing w.seenKeys w.journal
      (fun k => (∀ e ∈ w.journal, e.Settled) ∧ (k ∈ w.seenKeys ∨ k ∈ c.keysOf batch.records ++ K))
      fun k => k ∈ c.keysOf batch.records ∨ False := by
    rintro w' rfl
    refine ⟨rfl, rfl, fun k ⟨hsettled, hk⟩ => ?_⟩
    have hmem : k ∈ c.keysOf batch.records ++ K := hk.elim (fun h => hseen h) id
    rcases mem_append.mp hmem with hk | hk
    · exact .inr (.inl hk)
    · exact .inl (hpaid hsettled k hk)
  refine bind ((archiveAll_spec c rt batch.records).weaken hstart (fun _ _ h => h)
    hreliable) fun events => ?_
  refine bind ((publishAll_spec c events).weaken (fun _ h => h) (fun _ _ h => h)
    hreliable) fun _ => ?_
  exact commitCursor_spec c key batch hshares hhonest

/-! ## An attempt -/

theorem pages_spec {consume : EmittedBatch → Runtime PUnit}
    (hconsume : ∀ batch, Triple (c.Handed batch) (consume batch) (fun _ => Ready)
      Reliable) (floor : Option ℤ) (pulls : List Pull) (stats : Stats) :
    Triple Ready (c.pages consume floor pulls stats) (fun _ => Ready)
      Reliable := by
  have hclose : Triple Ready await (fun _ => Ready) Reliable :=
    weaken unscripted_on.await (fun _ h => h) (fun _ _ h => h) fun w h => h.1
  induction pulls generalizing stats with
  | nil => exact hclose
  | cons pull rest ih =>
    cases pull with
    | raised err => exact unscripted_on.closing (.raise fun w h => h.1)
    | page page =>
      refine bind (unscripted_on.closing (emit_spec c page floor _)) fun batch => ?_
      refine bind (hconsume batch) fun _ => ?_
      split_ifs
      · exact hclose
      · exact ih _

theorem drain_spec (fetch : Cursor → List Pull) :
    Triple Ready (drain rt c key fetch) (fun _ => Ready) Reliable := by
  refine bind (Q := fun _ => Ready) (.update fun _ h => h) fun _ => ?_
  refine bind (Q := fun _ => Ready) (.update fun _ h => h) fun _ => ?_
  refine read fun w _ => ?_
  refine bind (Q := fun _ => Ready) ?_ fun _ => pages_spec c (fun batch => ?_) _ _ _
  · exact weaken unscripted_on.await (fun _ h => h) (fun _ _ h => h) fun w h => h.1
  · refine bind (Q := fun _ => c.Handed batch) (.update fun _ h => h) fun _ => ?_
    exact persistBatch_spec c rt key batch

theorem attempt_keeps (fetch : Cursor → List Pull) :
    Keeps Ready (attempt rt c key fetch) := by
  refine (drain_spec c rt key fetch).catching fun err => ?_
  refine bind (Q := fun _ => Ready) (.update fun w hw => abort_ready hw) ?_
  exact fun _ => .raise fun _ h => h

/-! ## A run -/

theorem onWorld_keeps {α : Type} {I : World → Prop} {x : Runtime α} (h : Keeps I x) :
    Keeps (fun p : Process => I p.world) (onWorld x) := by
  intro p hp
  have hx := h p.world hp
  have hexec : (onWorld x).exec p =
      ((x.exec p.world).1, { p with world := (x.exec p.world).2 }) := rfl
  rw [hexec]
  rcases hrun : x.exec p.world with ⟨e | a, w⟩ <;>
  · rw [hrun] at hx
    exact hx

theorem outcome_keeps {I : Process → Prop} {x : Service PUnit} (h : Keeps I x) :
    Keeps I (outcome x) :=
  (h.bind fun _ => .ret none).catching fun err => .ret (some err)

section

variable {policy : BackoffPolicy} {breaker : CircuitBreaker} {key : String}
  {operation : Attempt → Service PUnit} {env : ℕ → Attempt} {I : World → Prop}

theorem retryRound_keeps (h : ∀ a, Keeps (fun p => I p.world) (operation a)) (attempts : ℕ)
    {again : Service PUnit} (hagain : Keeps (fun p => I p.world) again) :
    Keeps (fun p => I p.world)
      (retryRound policy breaker key operation env attempts again) := by
  -- Nothing but the operation touches the world.
  have hfail : ∀ (err : Failure), Keeps (fun p : Process => I p.world) (do
      if err.errorClass.isSome then recordFailure breaker key (env attempts).endsAt
      throw err : Service PUnit) := by
    intro err
    split
    · exact .bind (.update fun _ h => h) fun _ => .raise err
    · exact .raise err
  refine (outcome_keeps (h _)).bind fun result => ?_
  rcases result with _ | err
  · exact .update fun _ h => h
  · cases err
    case transient r =>
      dsimp only
      split
      · exact hagain
      · exact hfail _
    all_goals exact hfail _

theorem retryLoop_keeps (h : ∀ a, Keeps (fun p => I p.world) (operation a))
    (left attempts : ℕ) :
    Keeps (fun p => I p.world) (retryLoop policy breaker key operation env left attempts) := by
  induction left generalizing attempts with
  | zero => exact retryRound_keeps h _ (.raise _)
  | succ left ih => exact retryRound_keeps h _ (ih _)

theorem retryPage_keeps (h : ∀ a, Keeps (fun p => I p.world) (operation a)) (startsAt : ℚ) :
    Keeps (fun p => I p.world) (retryPage policy breaker key operation startsAt env) := by
  refine read fun p _ => ?_
  cases CircuitBreaker.check p.circuits key startsAt with
  | error err => exact Keeps.raise err
  | ok circuits =>
    exact Keeps.bind (.update fun _ h => h) fun _ => retryLoop_keeps h _ _

end

theorem handleFailure_keeps (err : Failure) (now : ℚ) :
    Keeps Ready (handleFailure rt c key err now) := by
  have hresult : Keeps Ready (result c (some err)) := fun _ h => h
  have hcheckpoint : Keeps Ready (checkpoint key) := by
    refine read fun w _ => ?_
    dsimp only
    split_ifs
    · exact Keeps.ret _
    · refine Keeps.bind (.update fun _ h => h) fun _ => ?_
      refine commitTo_spec (fun _ _ h => h) (fun _ h => h) fun w hw => ?_
      rw [append_nil]
      exact hw
  unfold handleFailure
  split
  · split
    · exact .bind unscripted_on.await fun _ => hresult
    · exact hresult
  · refine hcheckpoint.bind fun _ => ?_
    split
    · exact .bind unscripted_on.await fun _ => hresult
    · exact hresult
  · exact hresult

theorem run_keeps (input : RunInput) :
    Keeps (fun p => p.world.Ready) (ConnectorRuntime.run input) := by
  have hbegin : ∀ key, Keeps Ready (ConnectorRuntime.begin key) := by
    intro key
    exact .bind unscripted_on.await fun _ => .update fun _ h => h
  refine (onWorld_keeps (hbegin _)).bind fun _ => ?_
  refine (outcome_keeps (retryPage_keeps (fun a => onWorld_keeps (attempt_keeps _ _ _ _)) _)).bind
    fun result => ?_
  cases result with
  | none => exact onWorld_keeps fun _ h => h
  | some err =>
    dsimp only
    split
    · exact onWorld_keeps (handleFailure_keeps _ _ _ _ _)
    · exact .raise err

theorem after_ready (inputs : List RunInput) : (Process.after inputs).world.Ready := by
  have hrun : ∀ p : Process, p.world.Ready → (inputs.foldl Process.step p).world.Ready := by
    induction inputs with
    | nil => exact fun _ hp => hp
    | cons input rest ih => exact fun p hp => ih _ ((run_keeps input).state hp)
  refine hrun _ ⟨?_, fun _ key hkey => absurd hkey not_mem_nil⟩
  intro before page acked after h
  cases before <;> cases h

/-- **A committed page has lost no record**, as long as its records map to signals and every
attempt that raised before the commit had paid for the keys it marked. -/
theorem committed_page_covered (inputs : List RunInput) {before after : List Entry}
    {page : List Owed} {acked : List Ack}
    (hcommit : (Process.after inputs).world.journal = before ++ .commit page acked :: after)
    (hsettled : ∀ e ∈ before, e.Settled) (hmapped : ∀ o ∈ page, o.keys.isSome) :
    ∀ o ∈ page, Covered acked o :=
  fun o ho => (after_ready inputs).1 before page acked after hcommit hsettled o ho (hmapped o ho)

/-! ## Retries, kept and lost -/

def sampleRuntime : ConnectorRuntime where
  archive platform _ _ := ⟨"raw/" ++ platform, "", 0⟩
  topicRawRecords := "omnisense.raw"
  accounts := false
  backoff := defaultPolicy
  breaker := defaultBreaker

def sampleConnector : Connector where
  slug := "rss"
  overlapSeconds := 300
  dedupKeys := baseDedupKeys
    (fun _ => "035e9e4f87a2bca76bc3f495dcdbe7a2a58cf8092db7c02c7018aa52202370fb") "rss"
  ctx := ⟨"acc", "run", "", false, true, none, none, 604800⟩

def sampleRecord : RawRecord := ⟨"1", "\x7b\x7d", 0, none, "application/json", none, none⟩

def sampleSignal : Signal := ⟨"sig", "rss", "Acme ships", none, ⟨"1", "rss", "0.1.0", "run", none⟩⟩

def sampleRun (normalized : Except Failure (Option Signal)) (answers : List Answer) :
    RunInput where
  runtime := sampleRuntime
  connector := sampleConnector
  answers := answers
  attempts _ :=
    { fetch := fun _ =>
        [.page ⟨[⟨sampleRecord, normalized⟩], ⟨cursorVersion, some 1, none, []⟩, false⟩]
      pause := ⟨0, 0, 0, none⟩
      endsAt := 0 }
  startsAt := 0
  endsAt := 0
  restarted := false

def lateStart : RunInput :=
  sampleRun (.ok (some sampleSignal)) [.ok, ⟨false, some (.transient none)⟩]

def sampleOwed : Owed := ⟨sampleRecord, some (sampleConnector.dedupKeys sampleSignal).layers⟩

theorem late_start_covered : Covered (Process.after [lateStart]).world.acked sampleOwed := by
  have hcommit : (Process.after [lateStart]).world.journal =
      [.abort []] ++ .commit [sampleOwed] (Process.after [lateStart]).world.acked :: [] := by
    decide +kernel
  refine committed_page_covered _ hcommit ?_ ?_ _ mem_cons_self
  · exact forall_mem_singleton.mpr rfl
  · exact forall_mem_singleton.mpr rfl

def failedPublish : RunInput :=
  sampleRun (.ok (some sampleSignal))
    [.ok, .ok, .ok, .ok, .ok, .ok, .ok, ⟨false, some (.transient none)⟩]

def failedMapping : RunInput := sampleRun (.error .normalization) []

/-- The retry takes the record for a duplicate and commits; an unmappable record is only counted.
Neither was acknowledged before its page's cursor was committed, or after. -/
theorem retry_loses_record :
    (∃ unpaid, (Process.after [failedPublish]).world.journal =
        [.abort unpaid, .commit [sampleOwed] []] ∧
      (Process.after [failedPublish]).world.acked = [] ∧ ¬Covered [] sampleOwed) ∧
    (Process.after [failedMapping]).world.journal = [.commit [⟨sampleRecord, none⟩] []] ∧
      (Process.after [failedMapping]).world.acked = [] ∧ ¬Covered [] ⟨sampleRecord, none⟩ := by
  have hnone : ∀ o, ¬Covered [] o := fun o ⟨a, ha, _⟩ => by cases ha
  refine ⟨⟨(sampleConnector.dedupKeys sampleSignal).layers.reverse, ?_, ?_, hnone _⟩, ?_, ?_,
    hnone _⟩ <;> decide +kernel

end OmniSense.Connectors
