import Mathlib.Data.Prod.Lex
import OmniSense.Library.Effect
import OmniSense.Library.Keyset
import OmniSense.Signals.Query

/-! Following `next_cursor` is keyset pagination by the sort column and the id, and a cursor reads
back as it was issued. -/

namespace OmniSense.Signals

open Library List

structure Codec.Reads (codec : Codec) (c : PageCursor) : Prop where
  dumps_ne : codec.dumps (c.payload codec) ≠ []
  payload : codec.loads (codec.dumps (c.payload codec)) = some (c.payload codec)
  instant : ∀ t, c.key = .datetime t → codec.fromisoformat (codec.isoformat t) = some t

def PageCursor.Typed (c : PageCursor) : Prop := ∃ value, bindKey c.sort c.key = .ok value

variable {codec : Codec} {c : PageCursor} {q : SignalQuery}

/-! ## Cursors -/

namespace PageCursor

theorem key_read (hreads : codec.Reads c) (htyped : c.Typed) :
    codec.key c.sort (c.key.json codec) = some c.key := by
  obtain ⟨value, hvalue⟩ := htyped
  unfold Codec.key
  cases hkey : c.key with
  | datetime t =>
    have hsort : c.sort = .timestamp := by
      rw [hkey] at hvalue
      revert hvalue
      cases c.sort <;> first | exact fun _ => rfl | exact fun h => absurd h (by simp [bindKey])
    rw [if_pos hsort]
    change (codec.fromisoformat (codec.isoformat t)).map CursorKey.datetime = _
    rw [hreads.instant t hkey, Option.map_some]
  | number value =>
    have hsort : c.sort ≠ .timestamp := by
      intro hsort
      rw [hkey, hsort] at hvalue
      exact absurd hvalue (by simp [bindKey])
    rw [if_neg hsort]
    rfl

theorem payload_fields (codec : Codec) (c : PageCursor) :
    ∃ fields, c.payload codec = .object fields ∧
      Json.get fields "v" = some (.number CURSOR_VERSION) ∧
      Json.get fields "s" = some (.str c.sort.value) ∧
      Json.get fields "o" = some (.str c.order.value) ∧
      Json.get fields "k" = some (c.key.json codec) ∧
      Json.get fields "i" = some (.str c.signalId) ∧
      Json.get fields "f" = some (.str c.fingerprint) := by
  refine ⟨_, rfl, ?_⟩
  simp [Json.get]

theorem decode_encode (hreads : codec.Reads c) (htyped : c.Typed) (hid : c.signalId ≠ "")
    (hissued : c.fingerprint = q.fingerprint codec) : decode codec (c.encode codec) q = .ok c := by
  have hbytes : (Base64.decode (Base64.pad (c.encode codec).toList)).bind codec.loads =
      some (c.payload codec) := by
    unfold encode
    rw [String.toList_ofList, Base64.decode_pad_strip_encode, Option.bind_some, hreads.payload]
  obtain ⟨fields, hfields, hv, hs, ho, hk, hi, hf⟩ := payload_fields codec c
  have hversion : ((Json.object fields).asMapping.filter fun fields =>
      (Json.get fields "v").any isVersion) = some fields := by
    simp [Json.asMapping, hv, isVersion]
  have hread : read codec fields = some c := by
    unfold read
    simp [hs, ho, hk, hi, hf, key_read hreads htyped, Codec.str]
  unfold decode
  rw [hbytes, hfields]
  dsimp only
  rw [hversion]
  dsimp only
  rw [hf, hread]
  simp [Json.asString, hissued, hid]

theorem decode_fingerprint {token : String} (h : decode codec token q = .ok c) :
    ∃ payload fields, (Base64.decode (Base64.pad token.toList)).bind codec.loads = some payload ∧
      (payload.asMapping.filter fun fields => (Json.get fields "v").any isVersion) = some fields ∧
      (Json.get fields "f").bind Json.asString = some (q.fingerprint codec) := by
  unfold decode at h
  cases hpayload : (Base64.decode (Base64.pad token.toList)).bind codec.loads with
  | none =>
    rw [hpayload] at h
    exact absurd h (by simp)
  | some payload =>
    rw [hpayload] at h
    dsimp only at h
    cases hfields : payload.asMapping.filter fun fields => (Json.get fields "v").any isVersion with
    | none =>
      rw [hfields] at h
      exact absurd h (by simp)
    | some fields =>
      rw [hfields] at h
      dsimp only at h
      refine ⟨payload, fields, rfl, hfields, ?_⟩
      by_contra hne
      rw [if_pos hne] at h
      exact absurd h (by simp)

theorem decode_other {token : String} (h : decode codec token q = .ok c) {other : SignalQuery}
    (hne : other.fingerprint codec ≠ q.fingerprint codec) :
    ∃ message, decode codec token other = .error (.malformedCursor message) := by
  obtain ⟨payload, fields, hpayload, hfields, hfingerprint⟩ := decode_fingerprint h
  have hother : (Json.get fields "f").bind Json.asString ≠ some (other.fingerprint codec) := by
    rw [hfingerprint]
    exact fun heq => hne (Option.some.inj heq).symm
  unfold decode
  rw [hpayload]
  dsimp only
  rw [hfields]
  dsimp only
  rw [if_pos hother]
  exact ⟨_, rfl⟩

end PageCursor

/-! ## The order of a query -/

theorem sortKeyOf_engagement (row : SignalRow) :
    sortKeyOf row .engagement = .ok (.number (row.engagementScore.getD (-1))) := by
  unfold sortKeyOf
  cases row.engagementScore with
  | none | some => rfl

theorem sortColumn_spec {sort : SignalSort} (hsort : sort ≠ .relevance) :
    ∃ column, sortColumn sort = .ok column ∧
      ∀ row, ∃ key, sortKeyOf row sort = .ok key ∧ bindKey sort key = .ok (column row) := by
  cases sort with
  | timestamp | confidence => exact ⟨_, rfl, fun row => ⟨_, rfl, rfl⟩⟩
  | engagement => exact ⟨_, rfl, fun row => ⟨_, sortKeyOf_engagement row, rfl⟩⟩
  | relevance => exact absurd rfl hsort

section

variable {ι : Type} [LinearOrder ι] {db : Database ι} {κ : Type} [LinearOrder κ]
  {key : SignalRow → κ}

/-- `ORDER BY`, the keyset predicate and the cursor of a row all go by one key. -/
structure SortsBy (codec : Codec) (db : Database ι) (q : SignalQuery) (key : SignalRow → κ) :
    Prop where
  distinct : ∀ a b, key a = key b → a.id = b.id
  order : ∃ before, orderBy db q = .ok before ∧ ∀ a b, before a b = true ↔ key a ≤ key b
  cursor : ∀ last, ∃ c beyond, SignalService.cursorOf codec q last = .ok c ∧ c.Typed ∧
    c.signalId = last.id ∧ c.fingerprint = q.fingerprint codec ∧
    keysetPredicate db q c = .ok beyond ∧ ∀ row, beyond row = true ↔ key last < key row

theorem sortsBy_asc (codec : Codec) (db : Database ι) (hsort : q.sort ≠ .relevance)
    (horder : q.order = .asc) {column : SignalRow → ℚ} (hcolumn : sortColumn q.sort = .ok column) :
    SortsBy codec db q fun row => toLex (column row, db.collate row.id) := by
  obtain ⟨column', hcolumn', hkeys⟩ := sortColumn_spec hsort
  obtain rfl := Except.ok.inj (hcolumn'.symm.trans hcolumn)
  refine ⟨fun a b h => db.collate_injective (congrArg (fun k => (ofLex k).2) h), ?_, fun last => ?_⟩
  · refine ⟨_, by rw [orderBy, hcolumn]; rfl, fun a b => ?_⟩
    rw [horder, Prod.Lex.toLex_le_toLex]
    exact decide_eq_true_iff
  · obtain ⟨key, hkey, hbind⟩ := hkeys last
    refine ⟨_, _, by rw [SignalService.cursorOf, hkey]; rfl, ⟨_, hbind⟩, rfl, rfl,
      by rw [keysetPredicate, hcolumn]; dsimp only; rw [hbind]; rfl, fun row => ?_⟩
    rw [horder, Prod.Lex.toLex_lt_toLex, eq_comm (a := column' last)]
    exact decide_eq_true_iff

theorem sortsBy_desc (codec : Codec) (db : Database ι) (hsort : q.sort ≠ .relevance)
    (horder : q.order = .desc) {column : SignalRow → ℚ} (hcolumn : sortColumn q.sort = .ok column) :
    SortsBy codec db q fun row => OrderDual.toDual (toLex (column row, db.collate row.id)) := by
  obtain ⟨column', hcolumn', hkeys⟩ := sortColumn_spec hsort
  obtain rfl := Except.ok.inj (hcolumn'.symm.trans hcolumn)
  refine ⟨fun a b h => db.collate_injective
    (congrArg (fun k => (ofLex (OrderDual.ofDual k)).2) h), ?_, fun last => ?_⟩
  · refine ⟨_, by rw [orderBy, hcolumn]; rfl, fun a b => ?_⟩
    rw [horder, OrderDual.toDual_le_toDual, Prod.Lex.toLex_le_toLex, eq_comm (a := column' b)]
    exact decide_eq_true_iff
  · obtain ⟨key, hkey, hbind⟩ := hkeys last
    refine ⟨_, _, by rw [SignalService.cursorOf, hkey]; rfl, ⟨_, hbind⟩, rfl, rfl,
      by rw [keysetPredicate, hcolumn]; dsimp only; rw [hbind]; rfl, fun row => ?_⟩
    rw [horder, OrderDual.toDual_lt_toDual, Prod.Lex.toLex_lt_toLex]
    exact decide_eq_true_iff

/-! ## Pages -/

def Stands (codec : Codec) (q : SignalQuery) (key : SignalRow → κ) (cursor : Option String)
    (pos : Option κ) : Prop :=
  (cursor = none ∧ pos = none) ∨
    ∃ last c, SignalService.cursorOf codec q last = .ok c ∧ codec.Reads c ∧ last.id ≠ "" ∧
      cursor = some (c.encode codec) ∧ pos = some (key last)

theorem encode_ne (hreads : codec.Reads c) : c.encode codec ≠ "" := by
  intro hempty
  have hchars := congrArg String.toList hempty
  unfold PageCursor.encode at hchars
  rw [String.toList_ofList] at hchars
  exact Base64.strip_encode_ne_nil hreads.dumps_ne hchars

variable {cursor : Option String} {pos : Option κ} {matching : SignalRow → Bool}

theorem Stands.position (h : Stands codec q key cursor pos) (hsorts : SortsBy codec db q key) :
    ∃ position, SignalService.positionOf codec q cursor = .ok position ∧
      resumeAt db q position = .ok (Keyset.past key pos) := by
  rcases h with ⟨rfl, rfl⟩ | ⟨last, c, hcursor, hreads, hid, rfl, rfl⟩
  · exact ⟨none, rfl, rfl⟩
  · obtain ⟨c', beyond, hcursor', htyped, hlast, hissued, hbeyond, hiff⟩ := hsorts.cursor last
    obtain rfl := Except.ok.inj (hcursor'.symm.trans hcursor)
    refine ⟨some c', ?_, ?_⟩
    · have htoken : (some (c'.encode codec)).filter (fun token => token ≠ "") =
          some (c'.encode codec) := Option.filter_some_pos (decide_eq_true (encode_ne hreads))
      unfold SignalService.positionOf
      rw [htoken]
      dsimp only
      rw [PageCursor.decode_encode hreads htyped (hlast ▸ hid) hissued]
      rfl
    · have hpast : beyond = Keyset.past key (some (key last)) := by
        funext row
        rw [Bool.eq_iff_iff, hiff, Keyset.past_iff]
        simp
      rw [← hpast]
      exact hbeyond

theorem execute_eq (hsorts : SortsBy codec db q key)
    (hmatching : filters q db.dialect = .ok matching) {position : Option PageCursor}
    (hresume : resumeAt db q position = .ok (Keyset.past key pos)) (rows : List SignalRow)
    (limit : ℕ) :
    execute db rows q position limit =
      .ok ((Keyset.rest key (rows.filter matching) pos).take limit) := by
  obtain ⟨before, hbefore, hle⟩ := hsorts.order
  have hrest : (rows.filter fun row => matching row && Keyset.past key pos row).insertionSort
      (fun a b => before a b = true) = Keyset.rest key (rows.filter matching) pos := by
    unfold Keyset.rest
    rw [insertionSort_eq_sortedBy hle, filter_filter]
    simp only [Bool.and_comm]
  unfold execute
  rw [hmatching, hresume, hbefore, ← hrest]
  rfl

theorem validateLimit_ok {limit : ℤ} (hlimit : 1 ≤ limit ∧ limit ≤ MAX_PAGE_SIZE) :
    validateLimit limit = .ok limit.toNat := by
  unfold validateLimit
  rw [if_neg (not_lt.mpr hlimit.1), if_neg (not_lt.mpr hlimit.2)]

theorem distinct_keys (hsorts : SortsBy codec db q key) (table : Table) :
    ((table.rows.filter matching).map key).Nodup := by
  have hids : ((table.rows.filter matching).map SignalRow.id).Nodup :=
    table.primaryKey.sublist (filter_sublist.map SignalRow.id)
  have hrows : (table.rows.filter matching).Nodup := List.Nodup.of_map _ hids
  refine hrows.map_on fun a ha b hb heq => ?_
  exact inj_on_of_nodup_map hids ha hb (hsorts.distinct a b heq)

theorem nextCursor_stands (hsorts : SortsBy codec db q key) {last : Option SignalRow}
    (hreads : ∀ row ∈ last, ∀ c, SignalService.cursorOf codec q row = .ok c → codec.Reads c)
    (hnamed : ∀ row ∈ last, row.id ≠ "") :
    ∃ next, SignalService.nextCursorOf codec q last = .ok next ∧
      Stands codec q key next (last.map key) := by
  cases last with
  | none => exact ⟨none, rfl, .inl ⟨rfl, rfl⟩⟩
  | some last =>
    obtain ⟨c, _, hc, _⟩ := hsorts.cursor last
    refine ⟨some (c.encode codec), ?_, .inr ⟨last, c, hc, hreads last rfl c hc, hnamed last rfl,
      rfl, rfl⟩⟩
    unfold SignalService.nextCursorOf
    dsimp only
    rw [hc]
    rfl

theorem listSignals_eq (hsorts : SortsBy codec db q key)
    (hmatching : filters q db.dialect = .ok matching) (hstands : Stands codec q key cursor pos)
    (table : Table) {limit : ℤ} (hlimit : 1 ≤ limit ∧ limit ≤ MAX_PAGE_SIZE)
    (hreads : ∀ row ∈ table.rows, ∀ c, SignalService.cursorOf codec q row = .ok c → codec.Reads c) :
    ∃ next hasMore,
      SignalService.listSignals codec db q table limit cursor =
        .ok { items := (Keyset.page key (table.rows.filter matching) limit.toNat pos).1,
              limit := limit.toNat, nextCursor := next, hasMore := hasMore } ∧
      Stands codec q key next (Keyset.page key (table.rows.filter matching) limit.toNat pos).2 := by
  obtain ⟨position, hposition, hresume⟩ := hstands.position hsorts
  have hexec := execute_eq hsorts hmatching hresume table.rows (limit.toNat + 1)
  -- The last row of the page, when there is a next page, is a row of the table.
  let fetched := (Keyset.rest key (table.rows.filter matching) pos).take (limit.toNat + 1)
  let last := if limit.toNat < fetched.length then (fetched.take limit.toNat).getLast? else none
  have hlast : ∀ row ∈ last, row ∈ table.rows := by
    intro row hrow
    have hmem : row ∈ (fetched.take limit.toNat).getLast? := by
      revert hrow
      simp only [last]
      split_ifs <;> simp
    have hrest := mem_of_mem_take (mem_of_mem_take (mem_of_mem_getLast? hmem))
    exact (mem_filter.mp (Keyset.mem_rest.mp hrest).1).1
  obtain ⟨next, hnext, hstands'⟩ := nextCursor_stands hsorts
    (fun row hrow => hreads row (hlast row hrow)) fun row hrow => table.named row (hlast row hrow)
  have hposition' : (Keyset.page key (table.rows.filter matching) limit.toNat pos).2 =
      last.map key := by
    simp only [Keyset.page, last, fetched]
    split_ifs <;> rfl
  refine ⟨next, decide (limit.toNat < fetched.length), ?_, hposition' ▸ hstands'⟩
  unfold SignalService.listSignals
  rw [validateLimit_ok hlimit]
  dsimp only [bind, Except.bind]
  rw [hposition]
  dsimp only
  rw [hexec]
  simp only [decide_eq_true_eq]
  rw [hnext]
  rfl

/-- What the client sends has limits in range, and the codec reads the cursors of the rows back. -/
structure Served (codec : Codec) (q : SignalQuery) (requests : List (Table × ℤ)) : Prop where
  limits : ∀ request ∈ requests, 1 ≤ request.2 ∧ request.2 ≤ MAX_PAGE_SIZE
  reads : ∀ request ∈ requests, ∀ row ∈ request.1.rows, ∀ c,
    SignalService.cursorOf codec q row = .ok c → codec.Reads c

def choices (matching : SignalRow → Bool) (requests : List (Table × ℤ)) :
    List (List SignalRow × ℕ) :=
  requests.map fun request => (request.1.rows.filter matching, request.2.toNat)

variable {requests : List (Table × ℤ)}

theorem follow_eq_scan (hsorts : SortsBy codec db q key)
    (hmatching : filters q db.dialect = .ok matching) (hserved : Served codec q requests)
    (hstands : Stands codec q key cursor pos) :
    SignalService.follow codec db q requests cursor =
      .ok (Keyset.scan key (choices matching requests) pos) := by
  induction requests generalizing cursor pos with
  | nil => rfl
  | cons request requests ih =>
    obtain ⟨next, hasMore, hpage, hnext⟩ := listSignals_eq hsorts hmatching hstands request.1
      (hserved.limits request mem_cons_self) (hserved.reads request mem_cons_self)
    have hlater := ih ⟨fun r hr => hserved.limits r (.tail _ hr),
      fun r hr => hserved.reads r (.tail _ hr)⟩ hnext
    unfold SignalService.follow choices
    rw [map_cons]
    unfold Keyset.scan
    dsimp only [bind, Except.bind]
    rw [hpage]
    rcases hnext with ⟨rfl, hnone⟩ | ⟨last, c, _, _, _, rfl, hsome⟩
    · rw [hnone]
      rfl
    · dsimp only
      rw [hlater, hsome]
      rfl

/-! ## What a client gets -/

theorem nodup_choices (hsorts : SortsBy codec db q key) :
    ∀ choice ∈ choices matching requests, (choice.1.map key).Nodup := by
  intro choice hchoice
  obtain ⟨request, _, rfl⟩ := mem_map.mp hchoice
  exact distinct_keys hsorts request.1

theorem Served.positive (hserved : Served codec q requests) :
    ∀ choice ∈ choices matching requests, 1 ≤ choice.2 := by
  intro choice hchoice
  obtain ⟨request, hrequest, rfl⟩ := mem_map.mp hchoice
  have hlimit := (hserved.limits request hrequest).1
  omega

theorem follow_static (hsorts : SortsBy codec db q key)
    (hmatching : filters q db.dialect = .ok matching) (table : Table) {limits : List ℤ}
    (hserved : Served codec q (limits.map fun limit => (table, limit))) :
    SignalService.follow codec db q (limits.map fun limit => (table, limit)) none =
      .ok ((sortedBy key (table.rows.filter matching)).take (limits.map Int.toNat).sum,
        decide (limits ≠ [] ∧
          (table.rows.filter matching).length ≤ (limits.map Int.toNat).sum)) := by
  have hchoices : choices matching (limits.map fun limit => (table, limit)) =
      (limits.map Int.toNat).map fun limit => (table.rows.filter matching, limit) := by
    unfold choices
    rw [map_map, map_map]
    rfl
  have hserved' : ∀ choice ∈ choices matching (limits.map fun limit => (table, limit)),
      1 ≤ choice.2 := hserved.positive
  have hpositive : ∀ limit ∈ limits.map Int.toNat, 1 ≤ limit := by
    intro limit hlimit
    rw [hchoices] at hserved'
    exact hserved' _ (mem_map_of_mem hlimit)
  have hrest : Keyset.rest key (table.rows.filter matching) none =
      sortedBy key (table.rows.filter matching) := by
    unfold Keyset.rest
    rw [filter_eq_self.mpr fun row _ => Keyset.past_none row]
  rw [follow_eq_scan hsorts hmatching hserved (.inl ⟨rfl, rfl⟩), hchoices,
    Keyset.scan_static (distinct_keys hsorts table) hpositive, hrest,
    (sortedBy_perm key _).length_eq]
  simp only [ne_eq, map_eq_nil_iff]

theorem follow_changing (hsorts : SortsBy codec db q key)
    (hmatching : filters q db.dialect = .ok matching) (hserved : Served codec q requests) :
    ∃ items stopped, SignalService.follow codec db q requests none = .ok (items, stopped) ∧
      (items.Pairwise fun a b => key a < key b) ∧
      (∀ row ∈ items, matching row = true ∧ ∃ request ∈ requests, row ∈ request.1.rows) ∧
      (stopped = true → ∀ row, matching row = true →
        (∀ request ∈ requests, row ∈ request.1.rows) →
          (items.filter fun item => item.id = row.id) = [row]) := by
  have hnodup : ∀ choice ∈ choices matching requests, (choice.1.map key).Nodup :=
    nodup_choices hsorts
  have hpositive : ∀ choice ∈ choices matching requests, 1 ≤ choice.2 := hserved.positive
  have hstrict : (Keyset.scan key (choices matching requests) none).1.Pairwise
      fun a b => key a < key b := Keyset.scan_strict hnodup hpositive
  have hgenuine : ∀ row ∈ (Keyset.scan key (choices matching requests) none).1,
      matching row = true ∧ ∃ request ∈ requests, row ∈ request.1.rows := by
    intro row hrow
    obtain ⟨⟨choice, hchoice, hin⟩, _⟩ := Keyset.mem_scan hnodup hpositive hrow
    obtain ⟨request, hrequest, rfl⟩ := mem_map.mp hchoice
    exact ⟨(mem_filter.mp hin).2, request, hrequest, (mem_filter.mp hin).1⟩
  refine ⟨_, _, follow_eq_scan hsorts hmatching hserved (.inl ⟨rfl, rfl⟩), hstrict, hgenuine, ?_⟩
  intro hstopped row hmatch hrow
  have hthere : ∀ choice ∈ choices matching requests, row ∈ choice.1 := by
    intro choice hchoice
    obtain ⟨request, hrequest, rfl⟩ := mem_map.mp hchoice
    exact mem_filter.mpr ⟨hrow request hrequest, hmatch⟩
  have hmem : row ∈ (Keyset.scan key (choices matching requests) none).1 :=
    Keyset.scan_complete hnodup hpositive hstopped hthere
      fun k hk => absurd hk (Option.not_mem_none _)
  -- A row with the same id, in whichever table it was found, is that row.
  have honly : ∀ item ∈ (Keyset.scan key (choices matching requests) none).1,
      item.id = row.id → item = row := by
    intro item hitem hid
    obtain ⟨_, request, hrequest, hin⟩ := hgenuine item hitem
    exact inj_on_of_nodup_map request.1.primaryKey hin (hrow request hrequest) hid
  have hdistinct : (Keyset.scan key (choices matching requests) none).1.Nodup :=
    hstrict.imp fun {a b} hlt (heq : a = b) => lt_irrefl (key b) (heq ▸ hlt)
  refine perm_singleton.mp ((perm_ext_iff_of_nodup (hdistinct.filter _)
    (nodup_singleton row)).mpr fun item => ?_)
  rw [mem_filter, mem_singleton, decide_eq_true_iff]
  constructor
  · exact fun h => honly item h.1 h.2
  · rintro rfl
    exact ⟨hmem, rfl⟩

end

/-! ## Exactness -/

theorem exists_sortsBy {ι : Type} [LinearOrder ι] (codec : Codec) (db : Database ι)
    (hsort : q.sort ≠ .relevance) :
    ∃ (κ : Type) (_ : LinearOrder κ) (key : SignalRow → κ), SortsBy codec db q key := by
  obtain ⟨column, hcolumn, _⟩ := sortColumn_spec hsort
  cases horder : q.order with
  | asc => exact ⟨_, _, _, sortsBy_asc codec db hsort horder hcolumn⟩
  | desc => exact ⟨_, _, _, sortsBy_desc codec db hsort horder hcolumn⟩

theorem listSignals_refused {ι : Type} [LinearOrder ι] {db : Database ι} {e : SignalError}
    (h : filters q db.dialect = .error e) (table : Table) (limit : ℤ) (cursor : Option String)
    (page : SignalPage) : SignalService.listSignals codec db q table limit cursor ≠ .ok page := by
  intro hpage
  obtain ⟨_, _, hpage⟩ := ok_of_bind hpage
  obtain ⟨_, _, hpage⟩ := ok_of_bind hpage
  obtain ⟨_, hrows, _⟩ := ok_of_bind hpage
  obtain ⟨_, hmatching, _⟩ := ok_of_bind hrows
  rw [h] at hmatching
  exact absurd hmatching (by simp)

namespace Listing

theorem no_bound {α : Type} (P : α → Prop) : ∀ a ∈ (none : Option α), P a :=
  fun _ h => absurd h (Option.not_mem_none _)

theorem statuses_ne : ({.enriched, .partiallyEnriched} : Finset Indexing.SignalStatus) ≠ ∅ := by
  decide

def query (order : SortOrder) : SignalQuery where
  platforms := ∅
  sources := ∅
  entityIds := ∅
  topics := ∅
  languages := ∅
  sentiment := none
  minConfidence := none
  publishedAfter := none
  publishedBefore := none
  hasMedia := none
  statuses := {.enriched, .partiallyEnriched}
  sort := .engagement
  order := order
  tenantId := "default"
  window := no_bound _
  minConfidence_mem := no_bound _
  after_aware := no_bound _
  before_aware := no_bound _
  statuses_ne := statuses_ne

def row (id : String) (engagementScore : Option ℚ) : SignalRow where
  id := id
  tenantId := "default"
  status := "enriched"
  platform := "rss"
  source := "news"
  languageCode := "en"
  confidence := 1
  engagementScore := engagementScore
  timestamp := ⟨0, some 0⟩
  sentiment := none
  entities := []
  topics := []

def bytes (text : String) : List UInt8 := text.toUTF8.data.toList

def keyText (value : ℚ) : String :=
  if value = -1 then "-1.0" else if value = 1 / 10 then "0.1" else if value = 1 / 2 then "0.5"
  else "0.7"

def cursorText (value : ℚ) (id : String) : String :=
  "\x7b\"v\":1,\"s\":\"engagement\",\"o\":\"desc\",\"k\":" ++ keyText value ++ ",\"i\":\"" ++ id ++
    "\",\"f\":\"99c6b1148507f459\"\x7d"

def queryText (order : SortOrder) : String :=
  "\x7b\"entity_ids\":[],\"has_media\":null,\"languages\":[],\"min_confidence\":null," ++
    "\"order\":\"" ++ order.value ++ "\",\"platforms\":[],\"published_after\":null,\"published_before\":null," ++
    "\"sentiment\":null,\"sort\":\"engagement\",\"sources\":[]," ++
    "\"statuses\":[\"enriched\",\"partial\"],\"tenant_id\":\"default\",\"topics\":[]\x7d"

def before : List SignalRow :=
  [row "sig_a" (some (1 / 2)), row "sig_b" none, row "sig_c" (some (1 / 2))]

def after : List SignalRow :=
  [row "sig_a" (some (1 / 2)), row "sig_b" none, row "sig_d" (some (7 / 10)),
    row "sig_e" (some (1 / 10))]

def positions : List (String × ℚ) :=
  [("sig_a", 1 / 2), ("sig_b", -1), ("sig_c", 1 / 2), ("sig_d", 7 / 10), ("sig_e", 1 / 10)]

def texts : Codec where
  dumps := fun document =>
    match document with
    | .object [_, _, _, ("k", .number value), ("i", .str id), _] => bytes (cursorText value id)
    | .object fields =>
      bytes (queryText (if (Json.get fields "order").bind Json.asString = some "asc" then .asc
        else .desc))
    | _ => []
  loads := fun text =>
    (positions.find? fun position => bytes (cursorText position.2 position.1) = text).map
      fun position =>
        .object [("v", .number 1), ("s", .str "engagement"), ("o", .str "desc"),
          ("k", .number position.2), ("i", .str position.1), ("f", .str "99c6b1148507f459")]
  isoformat := fun _ => ""
  fromisoformat := fun _ => none
  hexdigest := fun text =>
    if text = bytes (queryText .desc) then
      "99c6b1148507f4595cf31ebe5764833b44648f35376d79b1e1a564d1ee0e8714"
    else "b57ab2202b56e8523bf0469f60f5f09dc33550bdb938401152851496f6ab183e"
  text := fun _ => ""
  floatOf := fun _ => none

def database : Database String := ⟨.postgresql, id, Function.injective_id⟩

theorem before_ids : (before.map SignalRow.id).Nodup := by decide

theorem before_named : ∀ row ∈ before, row.id ≠ "" := by decide

theorem after_ids : (after.map SignalRow.id).Nodup := by decide

theorem after_named : ∀ row ∈ after, row.id ≠ "" := by decide

def tableBefore : Table := ⟨before, before_ids, before_named⟩

def tableAfter : Table := ⟨after, after_ids, after_named⟩

theorem fingerprints : (query .desc).fingerprint texts = "99c6b1148507f459" ∧
    (query .asc).fingerprint texts = "b57ab2202b56e852" := by
  decide +kernel

theorem position_read : ∀ item ∈ before ++ after,
    bytes (cursorText (item.engagementScore.getD (-1)) item.id) ≠ [] ∧
      positions.find? (fun p => bytes (cursorText p.2 p.1) =
        bytes (cursorText (item.engagementScore.getD (-1)) item.id)) =
          some (item.id, item.engagementScore.getD (-1)) := by
  decide +kernel

theorem cursorOf_row (item : SignalRow) :
    SignalService.cursorOf texts (query .desc) item =
      .ok ⟨.engagement, .desc, .number (item.engagementScore.getD (-1)), item.id,
        "99c6b1148507f459"⟩ := by
  have hkey : sortKeyOf item (query .desc).sort = _ := sortKeyOf_engagement item
  unfold SignalService.cursorOf
  rw [hkey, fingerprints.1]
  rfl

theorem reads_row : ∀ item ∈ before ++ after, ∀ c,
    SignalService.cursorOf texts (query .desc) item = .ok c → texts.Reads c := by
  intro item hitem c hc
  obtain rfl := Except.ok.inj ((cursorOf_row item).symm.trans hc)
  obtain ⟨hne, hfind⟩ := position_read item hitem
  refine ⟨hne, ?_, fun t ht => absurd ht (by simp)⟩
  change (positions.find? fun p => bytes (cursorText p.2 p.1) =
    bytes (cursorText (item.engagementScore.getD (-1)) item.id)).map _ = _
  rw [hfind]
  rfl

theorem served_unchanged : Served texts (query .desc) [(tableBefore, 2), (tableBefore, 2)] := by
  refine ⟨by decide, fun request hrequest item hitem => reads_row item ?_⟩
  simp only [mem_cons, not_mem_nil, or_false] at hrequest
  rcases hrequest with rfl | rfl <;> exact mem_append_left _ hitem

theorem served_changed : Served texts (query .desc) [(tableBefore, 2), (tableAfter, 2)] := by
  refine ⟨by decide, fun request hrequest item hitem => reads_row item ?_⟩
  simp only [mem_cons, not_mem_nil, or_false] at hrequest
  rcases hrequest with rfl | rfl
  · exact mem_append_left _ hitem
  · exact mem_append_right _ hitem

end Listing

end OmniSense.Signals
