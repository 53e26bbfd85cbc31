import OmniSense.Connectors.OAuth

/-! No interleaving of the clients loses the newest refresh token, while each `invalidate` writes
back what the store still holds and each success is saved. -/

namespace OmniSense.Connectors.OAuth

open Library List Option

variable {parse : String → Option ℤ} {w w' : World} {i j : ℕ} {call : Call} {client : OAuth2Config}
  {phase : Phase}

/-! ## Steps -/

inductive Moves (parse : String → Option ℤ) (w : World) (i : ℕ) (call : Call) : Act → World → Prop
  | outside {act : Act} {phase : Phase} (hfree : call.phase.locks = false)
      (hphase : phase.locks = false) : Moves parse w i call act (w.put i call.client phase)
  | acquire (hfree : call.phase.locks = false) (hholder : w.holder = none) :
      Moves parse w i call .acquire { w.put i call.client .locked with holder := i }
  | leave {act : Act} {phase : Phase} (hlocks : call.phase.locks = true)
      (hphase : phase.locks = false) (hsaving : call.phase.isSaving = true → act = .giveUp) :
      Moves parse w i call act (w.release i call.client phase)
  | request {act : Act} (hlocked : call.phase = .locked) :
      Moves parse w i call act
        (w.put i call.client (.requesting (call.client.carried w.store)))
  -- A success, from which a token is made or not.
  | success {carried : Option String} {reply : Reply} {now : ℤ} {payload : List (String × Json)}
      (hcall : call.phase = .requesting carried) (hreply : postToken reply = .ok payload)
      (hsucceeds : w.succeeds call.client carried payload = true) {minted : StoredToken}
      (hminted : tokenFromPayload parse payload carried now = .ok minted) :
      Moves parse w i call (.reply reply now)
        ((w.issue payload).put i call.client (.saving minted))
  | lost {carried : Option String} {reply : Reply} {now : ℤ} {payload : List (String × Json)}
      (hreply : postToken reply = .ok payload)
      (hsucceeds : w.succeeds call.client carried payload = true) {failure : Failure}
      (hminted : tokenFromPayload parse payload carried now = .error failure) :
      Moves parse w i call (.reply reply now)
        ((w.issue payload).release i call.client (.raised failure))
  | save {now : ℤ} {minted : StoredToken} (hcall : call.phase = .saving minted) :
      Moves parse w i call (.save now)
        { w.release i call.client (.returned (some minted)) with store := some minted }
  | expire {now : ℤ} {cached : StoredToken} (hcall : call.phase = .expiring cached) :
      Moves parse w i call (.save now)
        { w.put i call.client (.returned none) with
          store := some { cached with expiresAt := some now } }

theorem answer_moves {carried : Option String} {reply : Reply} {now : ℤ}
    (hcall : call.phase = .requesting carried)
    (h : w.answer parse i call.client carried reply now = some w') :
    Moves parse w i call (.reply reply now) w' := by
  have hlocks : call.phase.locks = true := by rw [hcall]; rfl
  unfold World.answer mint at h
  cases hreply : postToken reply with
  | error failure =>
    rw [hreply] at h
    cases h
    exact .leave hlocks rfl (by rw [hcall]; exact nofun)
  | ok payload =>
    rw [hreply] at h
    obtain ⟨hsucceeds, hw⟩ := ite_none_right_eq_some.mp h
    cases hw
    cases hminted : tokenFromPayload parse payload carried now with
    | error failure =>
      have hbind : (Except.ok payload >>= fun payload => tokenFromPayload parse payload carried now)
          = Except.error failure := hminted
      rw [hbind]
      exact .lost hreply hsucceeds hminted
    | ok minted =>
      have hbind : (Except.ok payload >>= fun payload => tokenFromPayload parse payload carried now)
          = Except.ok minted := hminted
      rw [hbind]
      exact .success hcall hreply hsucceeds hminted

theorem callStep_moves {act : Act}
    (h : w.callStep parse i call.client call.phase act = some w') :
    Moves parse w i call act w' := by
  unfold World.callStep at h
  split at h
  next now hphase =>
    have hfree : call.phase.locks = false := by rw [hphase]; rfl
    split at h
    · split_ifs at h <;> cases h
      · exact .outside hfree rfl
      · exact .outside hfree rfl
    · cases h
      exact .outside hfree rfl
  next hphase =>
    obtain ⟨hholder, hw⟩ := ite_none_right_eq_some.mp h
    cases hw
    exact .acquire (by rw [hphase]; rfl) hholder
  next now hphase =>
    have hlocks : call.phase.locks = true := by rw [hphase]; rfl
    have hsaving : call.phase.isSaving = false := by rw [hphase]; rfl
    dsimp only at h
    split_ifs at h <;> cases h
    · exact .leave hlocks rfl fun hs => absurd hs (Bool.eq_false_iff.mp hsaving)
    · exact .leave hlocks rfl fun hs => absurd hs (Bool.eq_false_iff.mp hsaving)
    · exact .request hphase
  next carried reply now hphase => exact answer_moves hphase h
  next minted now hphase =>
    cases h
    exact .save hphase
  next now hphase =>
    have hfree : call.phase.locks = false := by rw [hphase]; rfl
    split at h <;> cases h
    · exact .outside hfree rfl
    · exact .outside hfree rfl
  next cached now hphase =>
    cases h
    exact .expire hphase
  next => cases h
  next => cases h
  next =>
    split_ifs at h with hlocks <;> cases h
    · exact .leave hlocks rfl fun _ => rfl
    · exact .outside (Bool.eq_false_iff.mpr hlocks) rfl
  next => cases h

/-! ## What every run keeps -/

structure Sound (w : World) : Prop where
  known : ∀ call ∈ w.calls, call.client ∈ w.clients
  alone : ∀ (i : ℕ), ∀ call ∈ w.calls[i]?, call.phase.locks = true → w.holder = some i
  -- A request carries the newest refresh token, and so does a token that is about to be saved.
  requests : ∀ call ∈ w.calls, ∀ carried, call.phase = .requesting carried →
    carried = some w.newest ∧ w.newest ≠ ""
  saves : ∀ call ∈ w.calls, ∀ minted, call.phase = .saving minted →
    held (some minted) = some w.newest
  renewable : w.isSaving = false → w.Renewable

theorem World.Renewable.carried (h : w.Renewable) (hclient : client ∈ w.clients) :
    client.carried w.store = some w.newest := by
  unfold OAuth2Config.carried
  rcases h with hheld | ⟨_, hheld, hseeds⟩
  · rw [hheld]
    rfl
  · rw [hheld, hseeds client hclient]
    rfl

theorem isSaving_iff : w.isSaving = true ↔ ∃ call ∈ w.calls, call.phase.isSaving = true := by
  exact any_eq_true

theorem isSaving_of_locks (h : phase.locks = false) : phase.isSaving = false := by
  cases phase with
  | saving minted => cases h
  | _ => rfl

def Alone (w : World) : Prop :=
  ∀ (i : ℕ), ∀ call ∈ w.calls[i]?, call.phase.locks = true → w.holder = some i

theorem Alone.others (h : Alone w) (hcall : w.calls[i]? = some call)
    (hlocks : call.phase.locks = true) {other : Call} (hj : w.calls[j]? = some other)
    (hne : j ≠ i) : other.phase.locks = false := by
  by_contra hother
  have hi := h i call hcall hlocks
  have hj' := h j other hj (Bool.eq_true_of_not_eq_false hother)
  exact hne (Option.some.inj (hj'.symm.trans hi))

theorem Alone.put (h : Alone w) (hcall : w.calls[i]? = some call)
    (hcalls : w'.calls = w.calls.set i ⟨call.client, phase⟩)
    (hholder : w'.holder = if phase.locks then some i else
      if call.phase.locks then none else w.holder)
    (hfree : phase.locks = true → call.phase.locks = true ∨ w.holder = none) : Alone w' := by
  intro j other hother hlocks
  rw [hcalls] at hother
  rcases set_cases hother with ⟨rfl, rfl⟩ | ⟨hne, hj⟩
  · rw [hholder, if_pos hlocks]
  · have hj' : w.holder = some j := h j other hj hlocks
    have hnot : call.phase.locks ≠ true := fun hheld => by
      rw [h.others hcall hheld hj hne] at hlocks
      cases hlocks
    have hphase : phase.locks ≠ true := fun hphase => by
      rcases hfree hphase with hheld | hnone
      · exact hnot hheld
      · rw [hnone] at hj'
        cases hj'
    rw [hholder, if_neg hphase, if_neg hnot]
    exact hj'

theorem Alone.begin (h : Alone w) (hphase : phase.locks = false) :
    Alone { w with calls := w.calls ++ [⟨client, phase⟩] } := by
  intro j other hother hlocks
  refine h j other ?_ hlocks
  rw [mem_def, List.getElem?_append] at hother
  split_ifs at hother with hj
  · exact hother
  · obtain rfl := mem_singleton.mp (mem_of_getElem? hother)
    rw [hphase] at hlocks
    cases hlocks

theorem Sound.put (h : Sound w) (hcall : w.calls[i]? = some call)
    (hcalls : w'.calls = w.calls.set i ⟨call.client, phase⟩) (hclients : w'.clients = w.clients)
    (hholder : w'.holder = if phase.locks then some i else
      if call.phase.locks then none else w.holder)
    (hfree : phase.locks = true → call.phase.locks = true ∨ w.holder = none)
    (hnewest : w'.newest = w.newest ∨ call.phase.locks = true)
    (hrequests : ∀ carried, phase = .requesting carried →
      carried = some w'.newest ∧ w'.newest ≠ "")
    (hsaves : ∀ minted, phase = .saving minted → held (some minted) = some w'.newest)
    (hrenewable : w'.isSaving = false → w'.Renewable) : Sound w' := by
  have hclient : call.client ∈ w.clients := h.known call (mem_of_getElem? hcall)
  -- Where another call waits for its response, or is to save, nothing was issued.
  have hsame : ∀ (j : ℕ) (other : Call), j ≠ i → w.calls[j]? = some other →
      other.phase.locks = true → w'.newest = w.newest := by
    intro j other hne hj hlocks
    refine hnewest.resolve_right fun hheld => ?_
    rw [Alone.others h.alone hcall hheld hj hne] at hlocks
    cases hlocks
  refine ⟨fun other hother => ?_, Alone.put h.alone hcall hcalls hholder hfree,
    fun other hother carried hphase => ?_, fun other hother minted hphase => ?_, hrenewable⟩
  · rw [hcalls] at hother
    rw [hclients]
    rcases mem_set_cases hother with rfl | ⟨j, _, hj⟩
    · exact hclient
    · exact h.known other (mem_of_getElem? hj)
  · rw [hcalls] at hother
    rcases mem_set_cases hother with rfl | ⟨j, hne, hj⟩
    · exact hrequests carried hphase
    · rw [hsame j other hne hj (by rw [hphase]; rfl)]
      exact h.requests other (mem_of_getElem? hj) carried hphase
  · rw [hcalls] at hother
    rcases mem_set_cases hother with rfl | ⟨j, hne, hj⟩
    · exact hsaves minted hphase
    · rw [hsame j other hne hj (by rw [hphase]; rfl)]
      exact h.saves other (mem_of_getElem? hj) minted hphase

theorem isSaving_of_put (hcall : w.calls[i]? = some call)
    (hcalls : w'.calls = w.calls.set i ⟨call.client, phase⟩) (hidle : w'.isSaving = false)
    (hphase : call.phase.isSaving = false) : w.isSaving = false := by
  by_contra hsaving
  obtain ⟨other, hother, hsaves⟩ := isSaving_iff.mp (Bool.eq_true_of_not_eq_false hsaving)
  obtain ⟨j, hj⟩ := mem_iff_getElem?.mp hother
  have hne : i ≠ j := by
    rintro rfl
    rw [Option.some.inj (hcall.symm.trans hj)] at hphase
    rw [hsaves] at hphase
    cases hphase
  have hmem : other ∈ w'.calls := by
    refine mem_of_getElem? (i := j) ?_
    rw [hcalls, List.getElem?_set_ne hne]
    exact hj
  rw [isSaving_iff.mpr ⟨other, hmem, hsaves⟩] at hidle
  cases hidle

/-! ## What a step keeps -/

theorem filled_some {text : Option String} {s : String} (h : filled text = some s) :
    text = some s ∧ s ≠ "" := by
  obtain ⟨htext, hs⟩ := filter_eq_some_iff.mp h
  exact ⟨htext, of_decide_eq_true hs⟩

theorem filled_of_ne {s : String} (h : s ≠ "") : filled (some s) = some s :=
  filter_eq_some_iff.mpr ⟨rfl, decide_eq_true h⟩

theorem carried_ne {cached : Option StoredToken} {s : String}
    (h : client.carried cached = some s) : s ≠ "" := by
  rcases or_eq_some_iff.mp h with hs | ⟨_, hs⟩
  · exact (filled_some hs).2
  · exact (filled_some hs).2

variable {payload : List (String × Json)}

theorem tokenFromPayload_ok {carried : Option String} {now : ℤ}
    (haccess : (textOf payload "access_token").isSome = true)
    (hexpiry : ∀ time ∈ expiry parse payload now, inRange time = true) :
    (tokenFromPayload parse payload carried now).isOk = true := by
  obtain ⟨accessToken, haccess⟩ := isSome_iff_exists.mp haccess
  unfold tokenFromPayload
  rw [haccess]
  dsimp only
  rw [if_pos hexpiry]
  rfl

theorem tokenFromPayload_refreshToken {carried : Option String}
    {now : ℤ} {minted : StoredToken}
    (h : tokenFromPayload parse payload carried now = .ok minted) :
    minted.refreshToken = (textOf payload "refresh_token").or carried := by
  unfold tokenFromPayload at h
  split at h
  · cases h
  · split_ifs at h
    cases h
    rfl

theorem held_minted {carried : Option String} {now : ℤ}
    {minted : StoredToken} (h : tokenFromPayload parse payload carried now = .ok minted)
    (hcarried : carried = some w.newest ∧ w.newest ≠ "") :
    held (some minted) = some (w.issue payload).newest := by
  unfold held World.issue
  change filled minted.refreshToken = _
  rw [tokenFromPayload_refreshToken h]
  cases hissued : textOf payload "refresh_token" with
  | none =>
    rw [hcarried.1]
    exact filled_of_ne hcarried.2
  | some refreshToken => exact filled_of_ne (filled_some hissued).2

theorem Phase.isQuiet_iff : phase.locks = false ∨ phase = .locked →
    (∀ carried, phase ≠ .requesting carried) ∧ ∀ minted, phase ≠ .saving minted := by
  rintro (hlocks | rfl)
  · refine ⟨?_, ?_⟩
    · rintro carried rfl
      cases hlocks
    · rintro minted rfl
      cases hlocks
  · exact ⟨nofun, nofun⟩

theorem Sound.quiet (h : Sound w) (hcall : w.calls[i]? = some call)
    (hphase : phase.locks = false ∨ phase = .locked) (hsaving : call.phase.isSaving = false)
    {holder : Option ℕ}
    (hholder : holder = if phase.locks then some i else
      if call.phase.locks then none else w.holder)
    (hfree : phase.locks = true → call.phase.locks = true ∨ w.holder = none) :
    Sound { w.put i call.client phase with holder := holder } := by
  obtain ⟨hrequesting, hsaves⟩ := Phase.isQuiet_iff hphase
  refine h.put hcall rfl rfl hholder hfree (.inl rfl) ?_ ?_ fun hidle => ?_
  · exact fun carried hc => absurd hc (hrequesting carried)
  · exact fun minted hc => absurd hc (hsaves minted)
  · exact h.renewable (isSaving_of_put hcall rfl hidle hsaving)

theorem issue_frame (w : World) (payload : List (String × Json)) :
    (w.issue payload).calls = w.calls ∧ (w.issue payload).clients = w.clients ∧
      (w.issue payload).holder = w.holder := by
  unfold World.issue
  split <;> exact ⟨rfl, rfl, rfl⟩

theorem moves_sound {act : Act} (h : Sound w) (hcall : w.calls[i]? = some call)
    (hrespects : w.Respects parse (.act i act)) (hmoves : Moves parse w i call act w') :
    Sound w' := by
  cases hmoves with
  | outside hfree hphase =>
    refine h.quiet hcall (.inl hphase) (isSaving_of_locks hfree) ?_ ?_
    · rw [if_neg (Bool.eq_false_iff.mp hphase), if_neg (Bool.eq_false_iff.mp hfree)]
    · exact fun hlocks => absurd hlocks (Bool.eq_false_iff.mp hphase)
  | acquire hfree hholder =>
    exact h.quiet hcall (.inr rfl) (isSaving_of_locks hfree) rfl fun _ => .inr hholder
  | leave hlocks hphase hsaving =>
    have hidle : call.phase.isSaving = false := by
      by_contra hs
      obtain rfl := hsaving (Bool.eq_true_of_not_eq_false hs)
      exact hs (hrespects call hcall)
    refine h.quiet hcall (.inl hphase) hidle ?_ ?_
    · rw [if_neg (Bool.eq_false_iff.mp hphase), if_pos hlocks]
    · exact fun hphase' => absurd hphase' (Bool.eq_false_iff.mp hphase)
  | request hlocked =>
    have hsaving : call.phase.isSaving = false := by rw [hlocked]; rfl
    have hlocks : call.phase.locks = true := by rw [hlocked]; rfl
    -- No other call is about to save: this one has the lock.
    have hidle : w.isSaving = false := by
      by_contra hs
      obtain ⟨other, hother, hs⟩ := isSaving_iff.mp (Bool.eq_true_of_not_eq_false hs)
      obtain ⟨j, hj⟩ := mem_iff_getElem?.mp hother
      by_cases hji : j = i
      · subst hji
        rw [Option.some.inj (hcall.symm.trans hj), hs] at hsaving
        cases hsaving
      · rw [isSaving_of_locks (Alone.others h.alone hcall hlocks hj hji)] at hs
        cases hs
    have hrenewable : w.Renewable := h.renewable hidle
    have hcarried := hrenewable.carried (h.known call (mem_of_getElem? hcall))
    refine h.put hcall rfl rfl ?_ (fun _ => .inl hlocks) (.inl rfl) ?_ nofun fun _ => hrenewable
    · exact h.alone i call hcall hlocks
    · rintro carried hc
      obtain rfl := Phase.requesting.inj hc
      exact ⟨hcarried, carried_ne hcarried⟩
  | @success _ reply now payload hcall' hreply hsucceeds minted hminted =>
    have hlocks : call.phase.locks = true := by rw [hcall']; rfl
    have hcarried := h.requests call (mem_of_getElem? hcall) _ hcall'
    obtain ⟨hcalls, hclients, hholder⟩ := issue_frame w payload
    have hset : ((w.issue payload).put i call.client (.saving minted)).calls =
        w.calls.set i ⟨call.client, .saving minted⟩ := congrArg (List.set · i _) hcalls
    refine h.put hcall hset hclients ?_ (fun _ => .inl hlocks) (.inr hlocks) nofun ?_ fun hidle => ?_
    · exact hholder.trans (h.alone i call hcall hlocks)
    · rintro token hc
      obtain rfl := Phase.saving.inj hc
      exact held_minted hminted hcarried
    · -- The call itself is about to save.
      have hi : i < w.calls.length := (List.getElem?_eq_some_iff.mp hcall).1
      have hmem : (⟨call.client, .saving minted⟩ : Call) ∈
          w.calls.set i ⟨call.client, .saving minted⟩ := mem_set hi _
      refine absurd (isSaving_iff.mpr ⟨_, hset ▸ hmem, rfl⟩) ?_
      exact Bool.eq_false_iff.mp hidle
  | @lost carried reply now payload hreply hsucceeds failure hminted =>
    have haccess : (textOf payload "access_token").isSome = true :=
      (of_decide_eq_true hsucceeds).1
    have hok : (tokenFromPayload parse payload carried now).isOk = true :=
      tokenFromPayload_ok haccess (hrespects payload (by rw [hreply]; rfl))
    rw [hminted] at hok
    cases hok
  | save hcall' =>
    have hlocks : call.phase.locks = true := by rw [hcall']; rfl
    refine h.put hcall rfl rfl (by rw [if_pos hlocks]; rfl) nofun (.inl rfl) nofun nofun fun _ => ?_
    exact .inl (h.saves call (mem_of_getElem? hcall) _ hcall')
  | expire hcall' =>
    have hfree : call.phase.locks = false := by rw [hcall']; rfl
    have hsaving : call.phase.isSaving = false := isSaving_of_locks hfree
    refine h.put hcall rfl rfl ?_ nofun (.inl rfl) nofun nofun fun hidle => ?_
    · rw [if_neg (Bool.eq_false_iff.mp hfree)]
      rfl
    · have hidle' : w.isSaving = false := isSaving_of_put hcall rfl hidle hsaving
      have hheld : held w.store = held (some _) :=
        (hrespects call hcall _ (by rw [hcall']; rfl)).resolve_left (by rw [hidle']; nofun)
      have hrenewable : w.Renewable := h.renewable hidle'
      unfold World.Renewable at hrenewable
      rw [hheld] at hrenewable
      exact hrenewable

theorem Sound.begin (h : Sound w) (hclient : client ∈ w.clients) (hphase : phase.locks = false) :
    Sound { w with calls := w.calls ++ [⟨client, phase⟩] } := by
  have hmem : ∀ other ∈ w.calls ++ [⟨client, phase⟩], other.phase.locks = true →
      other ∈ w.calls := by
    intro other hother hlocks
    rcases mem_append.mp hother with hold | hnew
    · exact hold
    · obtain rfl := mem_singleton.mp hnew
      rw [hphase] at hlocks
      cases hlocks
  refine ⟨fun other hother => ?_, Alone.begin h.alone hphase,
    fun other hother carried hc => ?_, fun other hother minted hc => ?_, fun hidle => h.renewable ?_⟩
  · rcases mem_append.mp hother with hold | hnew
    · exact h.known other hold
    · obtain rfl := mem_singleton.mp hnew
      exact hclient
  · exact h.requests other (hmem other hother (by rw [hc]; rfl)) carried hc
  · exact h.saves other (hmem other hother (by rw [hc]; rfl)) minted hc
  · refine Bool.eq_false_iff.mpr fun hs => Bool.eq_false_iff.mp hidle ?_
    obtain ⟨other, hother, hsaves⟩ := isSaving_iff.mp hs
    exact isSaving_iff.mpr ⟨other, mem_append_left _ hother, hsaves⟩

theorem step_sound {e : Event} (h : Sound w) (hrespects : w.Respects parse e)
    (hstep : w.step parse e = some w') : Sound w' := by
  cases e with
  | token | invalidate =>
    obtain ⟨client, hclient, rfl⟩ := map_eq_some_iff.mp hstep
    exact h.begin (mem_of_getElem? hclient) rfl
  | act i act =>
    obtain ⟨call, hcall, hmove⟩ := bind_eq_some_iff.mp hstep
    exact moves_sound h hcall hrespects (callStep_moves hmove)

/-- **The newest refresh token is kept** over every interleaving that respects it: once nothing is
about to be saved, the store holds it, and every client would send it. -/
theorem newest_token_kept (parse : String → Option ℤ) (events : List Event) {w w' : World}
    (hlinked : w.Linked) (hrespects : Along (World.step parse) (World.Respects parse) w events)
    (hrun : runs (World.step parse) w events = some w') (hidle : w'.isSaving = false) :
    w'.Renewable ∧ ∀ client ∈ w'.clients, client.carried w'.store = some w'.newest := by
  obtain ⟨hcalls, hholder, hrenewable⟩ := hlinked
  have hnone : ∀ call, call ∉ w.calls := by
    intro call hcall
    rw [hcalls] at hcall
    exact absurd hcall not_mem_nil
  have hstart : Sound w :=
    ⟨fun call h => absurd h (hnone call),
      fun i call h => absurd (mem_of_getElem? h) (hnone call),
      fun call h => absurd h (hnone call), fun call h => absurd h (hnone call),
      fun _ => hrenewable⟩
  have hsound : Sound w' :=
    runs_keeps (fun _ _ _ h hC hs => step_sound h hC hs) hstart hrespects hrun
  exact ⟨hsound.renewable hidle, fun client hclient => (hsound.renewable hidle).carried hclient⟩

/-! ## Two clients of one account -/

/-- The account is linked by the token `r0`, which expires at once. -/
def linked : World where
  clients := [{ refreshToken := some "r0" }, { refreshToken := some "r0" }]
  store := some
    { accessToken := "a0"
      expiresAt := some 0
      refreshToken := some "r0"
      obtainedAt := 0 }
  newest := "r0"

def refreshed : Reply :=
  .response 200 none (some (.object
    [("access_token", .str "a1"), ("refresh_token", .str "r1"), ("expires_in", .number 3600)]))

def refreshes : List Event :=
  [.token 0, .token 1, .act 0 (.load 0), .act 1 (.load 0), .act 0 .acquire, .act 0 (.load 0),
    .act 0 (.reply refreshed 0), .act 0 (.save 0), .act 1 .acquire, .act 1 (.load 0),
    .invalidate 1, .act 2 (.load 0), .act 2 (.save 0)]

theorem newest_token_kept_two :
    ∃ w, runs (World.step fun _ => none) linked refreshes = some w ∧ w.Renewable ∧
      ∀ client ∈ w.clients, client.carried w.store = some w.newest := by
  have hsome : (runs (World.step fun _ => none) linked refreshes).isSome = true := by
    decide
  have hidle : ∀ w ∈ runs (World.step fun _ => none) linked refreshes, w.isSaving = false := by
    decide
  obtain ⟨w, hw⟩ := isSome_iff_exists.mp hsome
  exact ⟨w, hw, newest_token_kept (fun _ => none) refreshes ⟨rfl, rfl, .inl rfl⟩
    (by decide) hw (hidle w hw)⟩

/-- `invalidate` reads the token, another client refreshes it, and `invalidate` writes it back. -/
def writtenBack : List Event :=
  [.invalidate 0, .act 0 (.load 0), .token 1, .act 1 (.load 0), .act 1 .acquire, .act 1 (.load 0),
    .act 1 (.reply refreshed 0), .act 1 (.save 0), .act 0 (.save 0)]

theorem rotated_token_overwritten :
    ∃ w, linked.Linked ∧ runs (World.step fun _ => none) linked writtenBack = some w ∧
      w.isSaving = false ∧ w.newest = "r1" ∧ held w.store = some "r0" := by
  have hsome : (runs (World.step fun _ => none) linked writtenBack).isSome = true := by
    decide
  have hfacts : ∀ w ∈ runs (World.step fun _ => none) linked writtenBack,
      w.isSaving = false ∧ w.newest = "r1" ∧ held w.store = some "r0" := by
    decide
  obtain ⟨w, hw⟩ := isSome_iff_exists.mp hsome
  exact ⟨w, ⟨rfl, rfl, .inl rfl⟩, hw, hfacts w hw⟩

end OmniSense.Connectors.OAuth
