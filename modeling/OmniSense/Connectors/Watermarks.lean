import Mathlib.Data.List.Chain
import OmniSense.Connectors.Loss

/-! The clamp of `run` compares with the watermark that the attempt started from, `_commit_cursor`
with the one last committed: when the two agree, and that the store's watermarks then never fall. -/

namespace OmniSense.Connectors

open Library Library.Effect List World Triple

/-! ## Watermarks -/

/-- `new` has a watermark whenever `old` has one, and not a lower one. -/
def Cursor.Follows (new old : Cursor) : Prop :=
  ∀ mark ∈ old.watermark, ∃ mark' ∈ new.watermark, mark ≤ mark'

theorem advances_iff {new old : Cursor} : advances new old = true ↔ new.Follows old := by
  unfold advances Cursor.Follows
  rcases old.watermark with _ | mark
  · simp
  · rcases new.watermark with _ | mark' <;> simp

theorem Cursor.Follows.trans {a b d : Cursor} (h : a.Follows b) (h' : b.Follows d) :
    a.Follows d := by
  intro mark hmark
  obtain ⟨mark', hmark', hle⟩ := h' mark hmark
  obtain ⟨mark'', hmark'', hle'⟩ := h mark' hmark'
  exact ⟨mark'', hmark'', hle.trans hle'⟩

theorem Cursor.Follows.congr {new old old' : Cursor} (h : new.Follows old)
    (heq : old'.watermark = old.watermark) : new.Follows old' := by
  intro mark hmark
  rw [heq] at hmark
  exact h mark hmark

open Connector in
theorem guardWatermark_follows {page start known : Cursor}
    (h : page.Follows known ∨ start.isReadable = true ∧ start.Follows known) :
    (guardWatermark page (watermarkFloor start)).Follows known := by
  -- The clamp never lowers a watermark, and never leaves one below that of a readable start.
  intro mark hmark
  unfold guardWatermark watermarkFloor
  rcases h with h | ⟨hreadable, h⟩
  · obtain ⟨mark', hmark', hle⟩ := h mark hmark
    rw [Option.mem_def] at hmark'
    split
    · exact ⟨mark', hmark', hle⟩
    · next floor _ =>
      rw [hmark']
      dsimp only
      split_ifs with hfloor
      · exact ⟨mark', hmark', hle⟩
      · exact ⟨floor, rfl, hle.trans (not_le.mp hfloor).le⟩
  · obtain ⟨floor, hfloor, hle⟩ := h mark hmark
    rw [Option.mem_def] at hfloor
    rw [if_pos hreadable, hfloor]
    dsimp only
    split
    · next mark' hmark' =>
      split_ifs with habove
      · exact ⟨mark', hmark', hle.trans habove⟩
      · exact ⟨floor, rfl, hle⟩
    · exact ⟨floor, rfl, hle⟩

open Connector in
theorem guardWatermark_watermark (page start : Cursor) :
    (guardWatermark page (watermarkFloor start)).watermark = start.watermark ∨
      (guardWatermark page (watermarkFloor start)).watermark = page.watermark := by
  have hfloor : ∀ floor, watermarkFloor start = some floor → some floor = start.watermark := by
    intro floor h
    unfold watermarkFloor at h
    split_ifs at h
    exact h.symm
  unfold guardWatermark
  split
  · exact .inr rfl
  · next floor h =>
    split
    · split_ifs
      · exact .inr rfl
      · exact .inl (hfloor floor h)
    · exact .inl (hfloor floor h)

/-! ## The log -/

/-- The page falls behind no cursor of its attempt, unless the attempt started from a readable
one that does not either; and the store is not ahead of the run. -/
def Offer.Meets (o : Offer) : Prop :=
  (∀ a ∈ o.start :: o.earlier,
    advances o.page a = true ∨ o.start.isReadable = true ∧ advances o.start a = true) ∧
  ∀ s ∈ o.stored, advances o.known s = true

instance (o : Offer) : Decidable o.Meets :=
  inferInstanceAs (Decidable (_ ∧ ∀ s ∈ o.stored, _))

variable (log : CursorLog)

def CursorLog.committed (key : CursorKey) : List Cursor :=
  (log.commits.filter fun entry => entry.1 = key).map Prod.snd

def CursorLog.Rising (held : CursorKey → Option Cursor) (log : CursorLog) : Prop :=
  ∀ key, ((held key).toList ++ log.committed key).IsChain fun old new => new.Follows old

def CursorLog.commit (key : CursorKey) (cursor : Cursor) : CursorLog :=
  { log with commits := log.commits ++ [(key, cursor)] }

theorem CursorLog.committed_commit (key key' : CursorKey) (cursor : Cursor) :
    (log.commit key cursor).committed key' =
      if key = key' then log.committed key' ++ [cursor] else log.committed key' := by
  unfold CursorLog.commit CursorLog.committed
  rw [filter_append, map_append]
  split_ifs with h <;> simp [h]

variable (held : CursorKey → Option Cursor)

/-- What the log says of the store, and that it shows no fall as long as the offers meet their
condition. -/
structure CursorLog.Tracks (cursors : CursorKey → Option Cursor) (log : CursorLog) : Prop where
  stored : ∀ key, ((held key).toList ++ log.committed key).getLast? = cursors key
  sound : (∀ o ∈ log.offers, o.Meets) → log.refusals = [] ∧ log.Rising held

variable {held} {cursors : CursorKey → Option Cursor} {log : CursorLog}

theorem CursorLog.Tracks.commit (h : log.Tracks held cursors) {key : CursorKey} {cursor : Cursor}
    (hcursor : (∀ o ∈ log.offers, o.Meets) → ∀ s ∈ cursors key, cursor.Follows s) :
    (log.commit key cursor).Tracks held (Function.update cursors key (some cursor)) := by
  refine ⟨fun key' => ?_, fun hmeets => ?_⟩
  · rw [CursorLog.committed_commit]
    split_ifs with hkey
    · subst hkey
      rw [← append_assoc, List.getLast?_concat, Function.update_self]
    · rw [Function.update_of_ne (Ne.symm hkey)]
      exact h.stored key'
  · obtain ⟨hrefusals, hrising⟩ := h.sound hmeets
    refine ⟨hrefusals, fun key' => ?_⟩
    rw [CursorLog.committed_commit]
    split_ifs with hkey
    · subst hkey
      rw [← append_assoc]
      refine isChain_append.mpr ⟨hrising key, .singleton _, ?_⟩
      rintro s hs _ ⟨⟩
      rw [h.stored key] at hs
      exact hcursor hmeets s hs
    · exact hrising key'

theorem CursorLog.Tracks.offer (h : log.Tracks held cursors) (earlier : List Cursor) (o : Offer) :
    { log with earlier := earlier, offers := log.offers ++ [o] }.Tracks held cursors :=
  ⟨h.stored, fun hmeets => h.sound fun o ho => hmeets o (mem_append_left _ ho)⟩

/-! ## Calls -/

def World.keeping (Ψ : (CursorKey → Option Cursor) → Cursor → CursorLog → Prop) (w : World) : Prop :=
  Ψ w.cursors w.state.cursor w.log

variable {Ψ : (CursorKey → Option Cursor) → Cursor → CursorLog → Prop}

theorem World.unscripted_keeping : Unscripted (keeping Ψ) := fun _ _ h => h

theorem withState_cursors {f : RunState → RunState} (h : ∀ s, (f s).cursor = s.cursor) :
    Keeps (keeping Ψ) (modify (withState f) : Runtime PUnit) := by
  refine .update fun w hw => ?_
  change Ψ w.cursors (f w.state).cursor w.log
  rw [h]
  exact hw

theorem seen_cursors (key : String) : Keeps (keeping Ψ) (seen key) := by
  refine unscripted_keeping.next.bind fun a => ?_
  rcases a.raised with _ | err
  · exact fun _ h => h
  · cases err <;> exact fun _ h => h

theorem mark_cursors (key : String) (ttl : ℤ) : Keeps (keeping Ψ) (mark key ttl) := by
  unfold mark
  split_ifs
  · exact .ret _
  · refine unscripted_keeping.next.bind fun a => .bind (.update fun w hw => ?_) fun _ => ?_
    · unfold see
      split_ifs <;> exact hw
    · split_ifs
      · exact .raise _
      · exact .ret _

theorem anySeen_cursors (keys : List String) : Keeps (keeping Ψ) (anySeen keys) := by
  induction keys with
  | nil => exact .ret _
  | cons key rest ih =>
    refine (seen_cursors key).bind fun hit => ?_
    cases hit with
    | true => exact .ret _
    | false => exact ih

theorem markAll_cursors (ttl : ℤ) (keys : List String) :
    Keeps (keeping Ψ) (markAll ttl keys) := by
  induction keys with
  | nil => exact .ret _
  | cons key rest ih => exact (mark_cursors key ttl).bind fun _ => ih

variable (c : Connector)

theorem isDuplicate_cursors (signal : Signal) :
    Keeps (keeping Ψ) (c.isDuplicate signal) := by
  unfold Connector.isDuplicate
  split_ifs
  · refine (anySeen_cursors _).bind fun hit => ?_
    cases hit with
    | true => exact .ret _
    | false => exact (markAll_cursors _ _).bind fun _ => .ret _
  · exact .ret _

theorem normalizeAndDedup_cursors (page : List Fetched) (stats : Stats) :
    Keeps (keeping Ψ) (c.normalizeAndDedup page stats) := by
  induction page generalizing stats with
  | nil => exact .ret _
  | cons f rest ih =>
    obtain ⟨record, normalized⟩ := f
    rcases normalized with err | _ | signal
    · cases err
      case normalization => exact ih _
      all_goals exact .raise _
    · exact ih _
    · refine (isDuplicate_cursors c signal).bind fun hit => ?_
      cases hit with
      | true => exact ih _
      | false => exact (ih _).bind fun _ => .ret _

theorem emit_cursors (page : FetchPage) (floor : Option ℤ) (stats : Stats) :
    Triple (keeping Ψ) (c.emit page floor stats)
      (fun (batch : EmittedBatch) w =>
        batch.cursor = Connector.guardWatermark batch.fetched floor ∧ w.keeping Ψ)
      (keeping Ψ) := by
  have hrest : Triple (keeping Ψ)
      (c.normalizeAndDedup page.records stats >>= fun r =>
        pure ⟨r.1, Connector.guardWatermark page.cursor floor, r.2, page.records, page.cursor⟩)
      (fun (batch : EmittedBatch) w =>
        batch.cursor = Connector.guardWatermark batch.fetched floor ∧ w.keeping Ψ)
      (keeping Ψ) :=
    bind (normalizeAndDedup_cursors c _ _) fun _ => .ret fun _ hw => ⟨rfl, hw⟩
  unfold Connector.emit
  split_ifs
  · exact bind unscripted_keeping.await fun _ => hrest
  · exact hrest

variable (rt : ConnectorRuntime)

open ConnectorRuntime

theorem toDlq_cursors (record : RawRecord) (signal : Signal) (raw : String) (err : Failure) :
    Keeps (keeping Ψ) (toDlq rt c record signal raw err) := by
  refine Keeps.bind (withState_cursors fun _ => rfl) fun _ => ?_
  exact unscripted_keeping.await.bind fun _ => .update fun _ h => h

theorem archiveRecord_cursors (record : RawRecord) (signal : Signal) :
    Keeps (keeping Ψ) (archiveRecord rt c record signal) := by
  refine unscripted_keeping.next.bind fun a => ?_
  rcases a.raised with _ | err
  · exact .ret _
  · cases err
    case unavailable => exact .ret _
    all_goals
      dsimp only
      split
      · exact (toDlq_cursors c rt _ _ _ _).bind fun _ => .ret _
      · exact .raise _

theorem archiveAll_cursors (records : List (RawRecord × Signal)) :
    Keeps (keeping Ψ) (archiveAll rt c records) := by
  induction records with
  | nil => exact .ret _
  | cons r rest ih =>
    exact (archiveRecord_cursors c rt r.1 r.2).bind fun _ => ih.bind fun _ => .ret _

theorem publishAll_cursors (events : List Outgoing) :
    Keeps (keeping Ψ) (publishAll c events) := by
  induction events with
  | nil => exact .ret _
  | cons event rest ih =>
    refine unscripted_keeping.await.bind fun _ => .bind (.update fun _ h => h) fun _ => ?_
    exact .bind (withState_cursors fun _ => rfl) fun _ => ih

/-! ## A commit -/

variable (held) in
def World.Tracked : World → Prop := keeping fun cursors _ log => log.Tracks held cursors

variable (held) in
def World.Attempting (start : Cursor) : World → Prop := keeping fun cursors own log =>
  log.Tracks held cursors ∧ log.start = start ∧
    ∃ a ∈ start :: log.earlier, own.watermark = a.watermark

variable (held) in
def World.Offering (start : Cursor) (key : CursorKey) (cursor : Cursor) : World → Prop :=
  keeping fun cursors own log =>
    (log.Tracks held cursors ∧ log.start = start ∧
      ∃ a ∈ start :: log.earlier, own.watermark = a.watermark) ∧
    (∃ a ∈ start :: log.earlier, cursor.watermark = a.watermark) ∧
    ((∀ o ∈ log.offers, o.Meets) → cursor.Follows own ∧ ∀ s ∈ cursors key, own.Follows s)

variable {start : Cursor} {key : CursorKey}

variable {batch : EmittedBatch}

theorem offerPage_spec (hbatch : batch.cursor =
    Connector.guardWatermark batch.fetched (Connector.watermarkFloor start)) {w : World}
    (hw : w.Attempting held start) :
    (w.offerPage key batch.fetched).Offering held start key batch.cursor := by
  obtain ⟨htracks, rfl, a, ha, hown⟩ := hw
  have hmore : ∀ b ∈ w.log.start :: w.log.earlier,
      b ∈ w.log.start :: (w.log.earlier ++ [batch.fetched]) :=
    fun b hb => mem_append_left [batch.fetched] hb
  refine ⟨⟨htracks.offer _ _, rfl, a, hmore a ha, hown⟩, ?_, fun hmeets => ?_⟩
  · rw [hbatch]
    rcases guardWatermark_watermark batch.fetched w.log.start with h | h
    · exact ⟨_, mem_cons_self, h⟩
    · exact ⟨_, mem_cons_of_mem _ (mem_append_right _ (mem_singleton_self _)), h⟩
  · obtain ⟨hpage, hstored⟩ :=
      hmeets _ (mem_append_right w.log.offers (mem_singleton_self _))
    refine ⟨?_, fun s hs => advances_iff.mp (hstored s hs)⟩
    rw [hbatch]
    refine guardWatermark_follows ((hpage a ha).imp ?_ ?_)
    · exact fun h => (advances_iff.mp h).congr hown
    · exact fun h => ⟨h.1, (advances_iff.mp h.2).congr hown⟩

theorem commitCursor_cursors (hbatch : batch.cursor =
    Connector.guardWatermark batch.fetched (Connector.watermarkFloor start)) :
    Keeps (Attempting held start) (commitCursor c key batch) := by
  refine bind (Q := fun _ => Offering held start key batch.cursor)
    (.update fun w hw => offerPage_spec hbatch hw) fun _ => of_state fun w hw => ?_
  refine read fun w' hw' => ?_
  obtain rfl := hw'.symm
  split_ifs with hadvances
  · -- Whether or not the commit is heard of, the log knows whether it took effect.
    refine bind (Q := fun _ => keeping fun cursors own log =>
        (log.Tracks held cursors ∧ log.start = start ∧
          ∃ a ∈ start :: log.earlier, own.watermark = a.watermark) ∧
        ∃ a ∈ start :: log.earlier, batch.cursor.watermark = a.watermark) ?_ fun _ => ?_
    · refine weaken (P := Offering held start key batch.cursor)
        (commitTo_spec (fun _ _ h => h) (fun w hw => ⟨hw.1, hw.2.1⟩) ?_) ?_ (fun _ _ h => h)
        fun w hw => hw.1
      · rintro w ⟨⟨htracks, hstart, hown⟩, hcursor, hmeets⟩
        refine ⟨⟨htracks.commit fun h s hs => ?_, hstart, hown⟩, hcursor⟩
        exact (hmeets h).1.trans ((hmeets h).2 s hs)
      · rintro w rfl
        exact hw
    · exact .update fun w hw => ⟨hw.1.1, hw.1.2.1, hw.2⟩
  · refine .update ?_
    rintro w rfl
    obtain ⟨⟨htracks, hstart, hown⟩, -, hmeets⟩ := hw
    refine ⟨⟨htracks.stored, fun h => ?_⟩, hstart, hown⟩
    exact absurd (advances_iff.mpr (hmeets h).1) hadvances

theorem persistBatch_cursors (hbatch : batch.cursor =
    Connector.guardWatermark batch.fetched (Connector.watermarkFloor start)) :
    Keeps (Attempting held start) (persistBatch rt c key batch) :=
  Keeps.bind (archiveAll_cursors c rt _) fun _ =>
    Keeps.bind (publishAll_cursors c _) fun _ => commitCursor_cursors c hbatch

/-! ## An attempt -/

theorem pages_cursors {consume : EmittedBatch → Runtime PUnit}
    (hconsume : ∀ batch, batch.cursor =
        Connector.guardWatermark batch.fetched (Connector.watermarkFloor start) →
      Keeps (Attempting held start) (consume batch)) (pulls : List Pull) (stats : Stats) :
    Keeps (Attempting held start)
      (c.pages consume (Connector.watermarkFloor start) pulls stats) := by
  induction pulls generalizing stats with
  | nil => exact unscripted_keeping.await
  | cons pull rest ih =>
    cases pull with
    | raised err => exact unscripted_keeping.closing (.raise fun _ h => h)
    | page page =>
      refine bind (unscripted_keeping.closing (emit_cursors c page _ _)) fun batch => ?_
      refine of_state fun w hw => ?_
      refine weaken (P := Attempting held start) ?_ ?_ (fun _ _ h => h) fun _ h => h
      · refine (hconsume batch hw.1).bind fun _ => ?_
        split_ifs
        · exact unscripted_keeping.await
        · exact ih _
      · rintro w rfl
        exact hw.2

theorem World.Attempting.tracked {w : World} (h : w.Attempting held start) : w.Tracked held := h.1

variable (key : CursorKey)

theorem drain_cursors (fetch : Cursor → List Pull) :
    Keeps (Tracked held) (drain rt c key fetch) := by
  refine Keeps.bind (withState_cursors fun _ => rfl) fun _ => ?_
  refine bind (Q := fun _ w => w.Attempting held w.state.cursor) ?_ fun _ => ?_
  · exact .update fun w hw => ⟨⟨hw.stored, hw.sound⟩, rfl, _, mem_cons_self, rfl⟩
  refine of_state fun w hw => read fun w' hw' => ?_
  obtain rfl := hw'.symm
  refine weaken (P := Attempting held w.state.cursor)
    (Q := fun _ => Attempting held w.state.cursor)
    (E := Attempting held w.state.cursor) ?_ ?_ (fun _ _ h => h.tracked) fun _ h => h.tracked
  · refine Keeps.bind unscripted_keeping.await fun _ => pages_cursors c (fun batch hbatch => ?_) _ _
    exact Keeps.bind (withState_cursors fun _ => rfl) fun _ => persistBatch_cursors c rt hbatch
  · rintro w rfl
    exact hw

theorem attempt_cursors (fetch : Cursor → List Pull) :
    Keeps (Tracked held) (attempt rt c key fetch) :=
  (drain_cursors c rt key fetch).catching fun err => Keeps.bind (.update fun _ h => h) fun _ =>
    .raise err

/-! ## A run -/

theorem checkpoint_cursors : Keeps (Tracked held) (checkpoint key) := by
  -- The store takes a checkpoint only as the run's own cursor.
  refine of_state fun w hw => read fun w' hw' => ?_
  obtain rfl := hw'.symm
  dsimp only
  split_ifs
  · refine .ret ?_
    rintro w rfl
    exact hw
  · refine bind (Q := fun _ => keeping fun cursors _ log =>
      log.Tracks held cursors ∧
        ((∀ o ∈ log.offers, o.Meets) → ∀ s ∈ cursors key, w.state.cursor.Follows s)) ?_ fun _ => ?_
    · refine .update ?_
      rintro w rfl
      refine ⟨CursorLog.Tracks.offer hw _ _, fun hmeets s hs => ?_⟩
      have hoffer := hmeets _ (mem_append_right w.log.offers (mem_singleton_self _))
      exact advances_iff.mp (hoffer.2 s hs)
    · refine weaken (commitTo_spec (fun _ _ h => h) (fun w hw => hw.1) ?_) (fun _ h => h)
        (fun _ _ h => h) fun _ h => h
      exact fun w hw => CursorLog.Tracks.commit hw.1 hw.2

theorem handleFailure_cursors (err : Failure) (now : ℚ) :
    Keeps (Tracked held) (handleFailure rt c key err now) := by
  have hresult : Keeps (Tracked held) (result c (some err)) := fun _ h => h
  unfold handleFailure
  split
  · split
    · exact .bind unscripted_keeping.await fun _ => hresult
    · exact hresult
  · refine (checkpoint_cursors key).bind fun _ => ?_
    split
    · exact .bind unscripted_keeping.await fun _ => hresult
    · exact hresult
  · exact hresult

theorem run_cursors (input : RunInput) :
    Keeps (fun p => p.world.Tracked held) (ConnectorRuntime.run input) := by
  have hbegin : ∀ key, Keeps (Tracked held) (ConnectorRuntime.begin key) := by
    intro key
    exact .bind unscripted_keeping.await fun _ => .update fun _ h => h
  refine (onWorld_keeps (hbegin _)).bind fun _ => ?_
  refine (outcome_keeps (retryPage_keeps (fun a => onWorld_keeps (attempt_cursors _ _ _ _)) _)).bind
    fun result => ?_
  cases result with
  | none => exact onWorld_keeps fun _ h => h
  | some err =>
    dsimp only
    split
    · exact onWorld_keeps (handleFailure_cursors _ _ _ _ _)
    · exact .raise err

theorem afterFrom_tracked (inputs : List RunInput) :
    (Process.afterFrom held inputs).world.Tracked held := by
  have hrun : ∀ p : Process, p.world.Tracked held →
      (inputs.foldl Process.step p).world.Tracked held := by
    induction inputs with
    | nil => exact fun _ hp => hp
    | cons input rest ih => exact fun p hp => ih _ ((run_cursors input).state hp)
  refine hrun _ ⟨fun key => ?_, fun _ => ⟨rfl, fun key => ?_⟩⟩
  · change ((held key).toList ++ []).getLast? = held key
    cases held key <;> rfl
  · change List.IsChain _ ((held key).toList ++ [])
    cases held key <;> simp

/-- **The clamp and the regression check agree** over any runs, from any cursors in the store, as
long as no page falls behind its attempt and the store is never ahead of the run. -/
theorem committed_watermarks_rise (held : CursorKey → Option Cursor) (inputs : List RunInput)
    (hmeets : ∀ o ∈ (Process.afterFrom held inputs).world.log.offers, o.Meets) :
    (Process.afterFrom held inputs).world.log.refusals = [] ∧
      (Process.afterFrom held inputs).world.log.Rising held :=
  (afterFrom_tracked inputs).sound hmeets

/-! ## Pages in and out of order -/

def pagesRun (answers : List Answer) (marks : ℕ → List ℤ) : RunInput where
  runtime := sampleRuntime
  connector := sampleConnector
  answers := answers
  attempts a :=
    { fetch := fun _ => (marks a).map fun mark =>
        .page ⟨[], ⟨cursorVersion, some mark, none, []⟩, false⟩
      pause := ⟨0, 0, 0, none⟩
      endsAt := 0 }
  startsAt := 0
  endsAt := 0
  restarted := false

def heldAt (mark : ℤ) : CursorKey → Option Cursor :=
  fun _ => some ⟨cursorVersion, some mark, none, []⟩

def rewoundRuns : List RunInput :=
  [pagesRun [] fun _ => [4, 7, 20], pagesRun [] fun _ => [15, 30]]

theorem rewound_pages_rise :
    (∀ o ∈ (Process.afterFrom (heldAt 10) rewoundRuns).world.log.offers, o.Meets) ∧
    (Process.afterFrom (heldAt 10) rewoundRuns).world.log.refusals = [] ∧
      (Process.afterFrom (heldAt 10) rewoundRuns).world.log.Rising (heldAt 10) := by
  have hmeets : ∀ o ∈ (Process.afterFrom (heldAt 10) rewoundRuns).world.log.offers, o.Meets := by
    decide
  exact ⟨hmeets, committed_watermarks_rise (heldAt 10) _ hmeets⟩

def unheardCommit : RunInput :=
  pagesRun [.ok, .ok, ⟨true, some (.transient none)⟩] fun a => if a = 0 then [20] else [12]

/-- From a readable cursor at 10, a page at 20 and then one at 15: the clamp lets the second
pass, and the runtime refuses it. After an unheard commit the store itself goes back. -/
theorem falling_page_refused :
    (Process.afterFrom (heldAt 10) [pagesRun [] fun _ => [20, 15]]).world.log.refusals =
        [(CursorKey.forContext sampleConnector, ⟨cursorVersion, some 15, none, []⟩)] ∧
      ((Process.afterFrom (heldAt 10) [unheardCommit]).world.log.committed
        (CursorKey.forContext sampleConnector)).map Cursor.watermark = [some 20, some 12] := by
  decide +kernel

end OmniSense.Connectors
