import OmniSense.Connectors.Renewal
import OmniSense.Connectors.TokenResponses

/-! Any number of concurrent calls of `token` for one account: how many requests they send, and
whether what they return is fresh. -/

namespace OmniSense.Connectors.OAuth

open Library List Option

def Wire.Kind.failure : Wire.Kind → Failure
  | .auth => .auth
  | .quota => .quota none none
  | .transient => .transient none
  | .permanent => .permanent
  | .configuration => .configuration

def Wire.Raised.failure : Wire.Raised → Failure
  | .connector error => error.kind.failure
  | .valueError => .value
  | _ => .defect

/-- What `client.post` comes back with. -/
inductive Answer
  | transportError
  | httpError
  | response (response : Wire.Response) (utcnow : ℤ)

def Phase.isRequesting : Phase → Bool
  | .requesting _ => true
  | _ => false

def Phase.minted? : Phase → Option StoredToken
  | .saving minted => some minted
  | _ => none

/-- The calls with the store and the lock, the clock that all of them read, and the number of
requests that were sent. -/
structure Session where
  world : World
  clock : ℤ
  requests : ℕ := 0

namespace Session

inductive Event
  | token (client : ℕ)
  | load (i : ℕ)
  | acquire (i : ℕ)
  | answer (i : ℕ) (answer : Answer)
  | save (i : ℕ)
  | tick (elapsed : ℕ)

section

variable (py : Wire.Python) (account : Wire.Account) (s : Session)

/-- A step of the calls, which has sent a request if it leaves the `i`th call waiting for one. -/
def follow (event : OAuth.Event) (i : ℕ) : Option Session :=
  (s.world.step py.int event).map fun world =>
    { s with
      world := world
      requests := s.requests +
        if (world.calls[i]?).any fun call => call.phase.isRequesting then 1 else 0 }

def respond (i : ℕ) (client : OAuth2Config) (carried : Option String) : Answer → Session
  | .transportError => { s with world := s.world.release i client (.raised (.transient none)) }
  | .httpError => { s with world := s.world.release i client (.raised .permanent) }
  | .response response utcnow =>
    match Wire.mint py account response carried s.clock utcnow with
    | .ok issued => { s with world := s.world.put i client (.saving issued.token) }
    | .error raised => { s with world := s.world.release i client (.raised raised.failure) }

def step : Event → Option Session
  | .token client => (s.world.step py.int (.token client)).map fun world => { s with world := world }
  | .load i => s.follow py (.act i (.load s.clock)) i
  | .acquire i =>
    (s.world.step py.int (.act i .acquire)).map fun world => { s with world := world }
  | .answer i answer =>
    match s.world.calls[i]? with
    | some ⟨client, .requesting carried⟩ => some (s.respond py account i client carried answer)
    | _ => none
  | .save i =>
    (s.world.step py.int (.act i (.save s.clock))).map fun world => { s with world := world }
  | .tick elapsed => some { s with clock := s.clock + elapsed }

end

def Fresh (s : Session) (token : StoredToken) : Prop :=
  ∀ client ∈ s.world.clients, token.needsRefresh client.refreshMarginSeconds s.clock = false

/-- Nothing is called yet; the stored token is absent, or stale for every client; and each client
has what its grant takes. -/
structure Expired (s : Session) : Prop where
  calls : s.world.calls = []
  holder : s.world.holder = none
  requests : s.requests = 0
  stale : ∀ token ∈ s.world.store, ∀ client ∈ s.world.clients,
    token.needsRefresh client.refreshMarginSeconds s.clock = true
  grants : ∀ client ∈ s.world.clients, client.grant = .refreshToken →
    client.carried s.world.store ≠ none

instance (s : Session) (token : StoredToken) : Decidable (s.Fresh token) :=
  inferInstanceAs (Decidable (∀ client ∈ s.world.clients,
    token.needsRefresh client.refreshMarginSeconds s.clock = false))

def tokens (s : Session) : List StoredToken :=
  s.world.store.toList ++ s.world.calls.filterMap fun call => call.phase.minted?

def Outlasts (py : Wire.Python) (s : Session) (response : Wire.Response) : Prop :=
  response.statusCode = 200 ∧ ∃ payload ∈ response.granted?,
    ∃ lifetime ∈ (Wire.asInt py (Wire.get payload "expires_in")).toOption,
      ∀ n ∈ lifetime, inRange (s.clock + seconds n) = true ∧
        ∀ client ∈ s.world.clients, client.refreshMarginSeconds < n

instance (py : Wire.Python) (s : Session) (response : Wire.Response) :
    Decidable (s.Outlasts py response) :=
  inferInstanceAs (Decidable (_ ∧ ∃ payload ∈ response.granted?,
    ∃ lifetime ∈ (Wire.asInt py (Wire.get payload "expires_in")).toOption,
      ∀ n ∈ lifetime, _ ∧ ∀ client ∈ s.world.clients, client.refreshMarginSeconds < n))

/-- The endpoint answers with such a success; and the clock does not come so far that a token,
stored or about to be, becomes stale. -/
def Lasts (py : Wire.Python) (s : Session) : Event → Prop
  | .answer _ (.response response _) => s.Outlasts py response
  | .answer _ _ => False
  | .tick elapsed => ∀ token ∈ s.tokens, s.Fresh token →
      Fresh { s with clock := s.clock + elapsed } token
  | _ => True

instance (py : Wire.Python) (s : Session) : (e : Event) → Decidable (s.Lasts py e)
  | .answer _ (.response response _) => inferInstanceAs (Decidable (s.Outlasts py response))
  | .answer _ .transportError | .answer _ .httpError => .isFalse id
  | .tick elapsed => inferInstanceAs (Decidable (∀ token ∈ s.tokens, s.Fresh token →
      Fresh { s with clock := s.clock + elapsed } token))
  | .token _ | .load _ | .acquire _ | .save _ => .isTrue trivial

/-! ## Where the request is -/

inductive Stage
  | idle
  | flying (i : ℕ)
  | landed (token : StoredToken)

namespace Stage

def requests : Stage → ℕ
  | .idle => 0
  | .flying _ | .landed _ => 1

def Allows (fresh : StoredToken → Prop) (stage : Stage) (i : ℕ) : Phase → Prop
  | .reading | .waiting => True
  | .locked => ∀ k, stage ≠ .flying k
  | .requesting _ => stage = .flying i
  | .saving token => stage = .flying i ∧ fresh token
  | .returned token => ∃ stored, stage = .landed stored ∧ token = some stored
  | _ => False

end Stage

structure Flight (s : Session) (stage : Stage) : Prop where
  known : ∀ call ∈ s.world.calls, call.client ∈ s.world.clients
  alone : Alone s.world
  flying : ∀ i, stage = .flying i → s.world.holder = some i
  phases : ∀ (i : ℕ), ∀ call ∈ s.world.calls[i]?, stage.Allows s.Fresh i call.phase
  requests : s.requests = stage.requests
  stale : (∀ token, stage ≠ .landed token) → (∀ token ∈ s.world.store,
    ∀ client ∈ s.world.clients, token.needsRefresh client.refreshMarginSeconds s.clock = true) ∧
      ∀ client ∈ s.world.clients, client.grant = .refreshToken →
        client.carried s.world.store ≠ none
  landed : ∀ token, stage = .landed token → s.world.store = some token ∧ s.Fresh token

section

variable {py : Wire.Python} {account : Wire.Account} {s s' : Session} {stage stage' : Stage} {i : ℕ}
  {call : Call} {phase : Phase}

theorem Expired.flight (h : s.Expired) : Flight s .idle where
  known call hcall := by
    rw [h.calls] at hcall
    exact absurd hcall not_mem_nil
  alone i call hcall := by
    rw [h.calls] at hcall
    cases hcall
  flying i hi := by cases hi
  phases i call hcall := by
    rw [h.calls] at hcall
    cases hcall
  requests := h.requests
  stale _ := ⟨h.stale, h.grants⟩
  landed token htoken := by cases htoken

theorem needsRefresh_mono {token : StoredToken} {marginSeconds now later : ℤ} (hle : now ≤ later)
    (h : token.needsRefresh marginSeconds now = true) :
    token.needsRefresh marginSeconds later = true := by
  unfold StoredToken.needsRefresh at h ⊢
  cases hexpires : token.expiresAt with
  | none =>
    rw [hexpires] at h
    cases h
  | some expiresAt =>
    rw [hexpires] at h
    have hbefore : expiresAt ≤ now + seconds marginSeconds := of_decide_eq_true h
    exact decide_eq_true (by linarith)

theorem Flight.put (h : Flight s stage) (hcall : s.world.calls[i]? = some call)
    (hcalls : s'.world.calls = s.world.calls.set i ⟨call.client, phase⟩)
    (hclients : s'.world.clients = s.world.clients) (hclock : s'.clock = s.clock)
    (hholder : s'.world.holder = if phase.locks then some i else
      if call.phase.locks then none else s.world.holder)
    (hfree : phase.locks = true → call.phase.locks = true ∨ s.world.holder = none)
    (hflying : ∀ k, stage' = .flying k → s'.world.holder = some k)
    (hphase : stage'.Allows s.Fresh i phase)
    (hothers : ∀ j other, j ≠ i → s.world.calls[j]? = some other →
      stage'.Allows s.Fresh j other.phase)
    (hrequests : s'.requests = stage'.requests)
    (hstale : (∀ token, stage' ≠ .landed token) →
      (∀ token, stage ≠ .landed token) ∧ s'.world.store = s.world.store)
    (hlanded : ∀ token, stage' = .landed token → s'.world.store = some token ∧ s.Fresh token) :
    Flight s' stage' := by
  have hfresh : s'.Fresh = s.Fresh := by
    funext token
    unfold Fresh
    rw [hclients, hclock]
  refine ⟨fun other hother => ?_, h.alone.put hcall hcalls hholder hfree, hflying,
    fun j other hother => ?_, hrequests, fun hidle => ?_, fun token htoken => ?_⟩
  · rw [hcalls] at hother
    rw [hclients]
    rcases mem_set_cases hother with rfl | ⟨j, _, hj⟩
    · exact h.known call (mem_of_getElem? hcall)
    · exact h.known other (mem_of_getElem? hj)
  · rw [hcalls] at hother
    rw [hfresh]
    rcases set_cases hother with ⟨rfl, rfl⟩ | ⟨hne, hj⟩
    · exact hphase
    · exact hothers j other hne hj
  · obtain ⟨hbefore, hstore⟩ := hstale hidle
    rw [hstore, hclients, hclock]
    exact h.stale hbefore
  · rw [hfresh]
    exact hlanded token htoken

/-! ## What a step does -/

theorem load_cases {parse : String → Option ℤ} {w w' : World} {client : OAuth2Config} {now : ℤ}
    (hphase : phase ≠ .invalidating)
    (h : w.callStep parse i client phase (.load now) = some w') :
    (phase = .reading ∨ phase = .locked) ∧
      ((∃ token, w.store = some token ∧ token.needsRefresh client.refreshMarginSeconds now = false ∧
        w' = if phase.locks then w.release i client (.returned (some token))
          else w.put i client (.returned (some token))) ∨
      (∀ token ∈ w.store, token.needsRefresh client.refreshMarginSeconds now = true) ∧
        (phase = .reading ∧ w' = w.put i client .waiting ∨
          phase = .locked ∧ (client.grant = .refreshToken ∧ client.carried w.store = none ∨
            w' = w.put i client (.requesting (client.carried w.store))))) := by
  cases phase with
  | reading =>
    refine ⟨Or.inl rfl, ?_⟩
    unfold World.callStep at h
    cases hstore : w.store with
    | none =>
      rw [hstore] at h
      cases h
      exact Or.inr ⟨nofun, Or.inl ⟨rfl, rfl⟩⟩
    | some token =>
      rw [hstore] at h
      dsimp only at h
      split_ifs at h with hstale <;> cases h
      · refine Or.inr ⟨?_, Or.inl ⟨rfl, rfl⟩⟩
        rintro token' ⟨⟩
        exact hstale
      · exact Or.inl ⟨token, rfl, Bool.eq_false_iff.mpr hstale, rfl⟩
  | locked =>
    refine ⟨Or.inr rfl, ?_⟩
    unfold World.callStep at h
    dsimp only at h
    cases hstore : w.store with
    | none =>
      rw [hstore] at h
      refine Or.inr ⟨nofun, Or.inr ⟨rfl, ?_⟩⟩
      rw [if_neg (by simp)] at h
      split_ifs at h with hnothing
      · exact Or.inl hnothing
      · exact Or.inr (Option.some.inj h).symm
    | some token =>
      rw [hstore] at h
      cases hstale : token.needsRefresh client.refreshMarginSeconds now with
      | false =>
        rw [if_pos (by simp [hstale])] at h
        exact Or.inl ⟨token, rfl, hstale, (Option.some.inj h).symm⟩
      | true =>
        refine Or.inr ⟨?_, Or.inr ⟨rfl, ?_⟩⟩
        · rintro token' ⟨⟩
          exact hstale
        · rw [if_neg (by simp [hstale])] at h
          split_ifs at h with hnothing
          · exact Or.inl hnothing
          · exact Or.inr (Option.some.inj h).symm
  | invalidating => exact absurd rfl hphase
  | waiting | requesting | saving | expiring | returned | raised => cases h

theorem any_requesting {w : World} {client : OAuth2Config} {calls : List Call}
    (hcall : w.calls[i]? = some call) (hcalls : calls = w.calls.set i ⟨client, phase⟩) :
    (calls[i]?).any (fun call => call.phase.isRequesting) = phase.isRequesting := by
  have hi : i < w.calls.length := (List.getElem?_eq_some_iff.mp hcall).1
  rw [hcalls, List.getElem?_set_self hi]
  rfl

theorem Stage.Allows.settled {fresh : StoredToken → Prop} {j : ℕ} (h : Stage.Allows fresh .idle j phase)
    (stage : Stage) (hlocked : phase.locks = false) : Stage.Allows fresh stage j phase := by
  cases phase with
  | reading | waiting => trivial
  | locked | requesting | saving => cases hlocked
  | returned token =>
    obtain ⟨stored, hstored, -⟩ := h
    cases hstored
  | invalidating | expiring | raised => exact h

theorem load_flight (h : Flight s stage) (hstep : s.step py account (.load i) = some s') :
    ∃ stage', Flight s' stage' := by
  obtain ⟨w', hw', rfl⟩ := map_eq_some_iff.mp hstep
  obtain ⟨call, hcall, hmove⟩ := bind_eq_some_iff.mp hw'
  have hallows := h.phases i call hcall
  have hclient := h.known call (mem_of_getElem? hcall)
  have hphase : call.phase ≠ .invalidating := by
    intro hinvalidating
    rw [hinvalidating] at hallows
    exact hallows
  obtain ⟨hwhere, ⟨token, hstore, hfresh, rfl⟩ | ⟨hstale, hmiss⟩⟩ := load_cases hphase hmove
  · -- A fresh token is stored only once it has landed.
    have hlanded : stage = .landed token := by
      by_contra hnot
      have hbefore : ∀ other, stage ≠ .landed other := by
        rintro other rfl
        obtain ⟨hother, -⟩ := h.landed other rfl
        exact hnot (congrArg Stage.landed (Option.some.inj (hother.symm.trans hstore)))
      have hneeds := (h.stale hbefore).1 token hstore call.client hclient
      rw [hfresh] at hneeds
      cases hneeds
    subst hlanded
    refine ⟨.landed token, ?_⟩
    have hcalls : (if call.phase.locks then s.world.release i call.client (.returned (some token))
        else s.world.put i call.client (.returned (some token))).calls =
          s.world.calls.set i ⟨call.client, .returned (some token)⟩ := by
      split_ifs <;> rfl
    refine h.put hcall hcalls (by split_ifs <;> rfl) rfl ?_ nofun nofun ⟨token, rfl, rfl⟩
      (fun j other _ hj => h.phases j other hj) ?_ (fun hidle => absurd rfl (hidle token))
      fun other hother => ?_
    · dsimp only
      change _ = if call.phase.locks then none else s.world.holder
      split_ifs <;> rfl
    · dsimp only
      rw [any_requesting hcall hcalls, h.requests]
      rfl
    · obtain ⟨hstored, hfresh'⟩ := h.landed other hother
      refine ⟨?_, hfresh'⟩
      rw [← hstored]
      split_ifs <;> rfl
  · have hbefore : ∀ token, stage ≠ .landed token := by
      rintro token rfl
      obtain ⟨hstored, hfresh⟩ := h.landed token rfl
      have hneeds := hstale token hstored
      rw [hfresh call.client hclient] at hneeds
      cases hneeds
    rcases hmiss with ⟨hreading, rfl⟩ | ⟨hlocked, hnothing | rfl⟩
    · refine ⟨stage, ?_⟩
      have hfree : call.phase.locks = false := by rw [hreading]; rfl
      refine h.put hcall rfl rfl rfl ?_ nofun (fun k hk => h.flying k hk) trivial
        (fun j other _ hj => h.phases j other hj) ?_ (fun _ => ⟨hbefore, rfl⟩)
        fun token htoken => absurd htoken (hbefore token)
      · change s.world.holder = if call.phase.locks then none else s.world.holder
        rw [hfree]
        rfl
      · have hput : (s.world.put i call.client .waiting).calls =
            s.world.calls.set i ⟨call.client, .waiting⟩ := rfl
        rw [any_requesting hcall hput, h.requests]
        rfl
    · exact absurd hnothing.2 ((h.stale hbefore).2 call.client hclient hnothing.1)
    · have hlocks : call.phase.locks = true := by rw [hlocked]; rfl
      rw [hlocked] at hallows
      have hidle : stage = .idle := by
        cases stage with
        | idle => rfl
        | flying k => exact absurd rfl (hallows k)
        | landed token => exact absurd rfl (hbefore token)
      subst hidle
      refine ⟨.flying i, ?_⟩
      have hholder : s.world.holder = some i := h.alone i call hcall hlocks
      refine h.put hcall rfl rfl rfl ?_ (fun _ => Or.inl hlocks) (fun k hk => ?_) rfl
        (fun j other hne hj => ?_) ?_ (fun _ => ⟨hbefore, rfl⟩) nofun
      · exact hholder
      · cases hk
        exact hholder
      · exact (h.phases j other hj).settled _ (h.alone.others hcall hlocks hj hne)
      · have hput : (s.world.put i call.client
            (.requesting (call.client.carried s.world.store))).calls =
              s.world.calls.set i ⟨call.client, .requesting _⟩ := rfl
        dsimp only
        rw [any_requesting hcall hput, h.requests]
        rfl

theorem token_flight {client : ℕ} (h : Flight s stage)
    (hstep : s.step py account (.token client) = some s') : Flight s' stage := by
  obtain ⟨w', hw', rfl⟩ := map_eq_some_iff.mp hstep
  obtain ⟨config, hconfig, rfl⟩ := map_eq_some_iff.mp hw'
  refine ⟨fun call hcall => ?_, h.alone.begin rfl, h.flying, fun j call hcall => ?_, h.requests,
    h.stale, h.landed⟩
  · rcases mem_append.mp hcall with hold | hnew
    · exact h.known call hold
    · obtain rfl := mem_singleton.mp hnew
      exact mem_of_getElem? hconfig
  · rw [mem_def, List.getElem?_append] at hcall
    split_ifs at hcall with hj
    · exact h.phases j call hcall
    · obtain rfl := mem_singleton.mp (mem_of_getElem? hcall)
      trivial

theorem acquire_flight (h : Flight s stage) (hstep : s.step py account (.acquire i) = some s') :
    Flight s' stage := by
  obtain ⟨w', hw', rfl⟩ := map_eq_some_iff.mp hstep
  obtain ⟨call, hcall, hmove⟩ := bind_eq_some_iff.mp hw'
  obtain ⟨hwaiting, hnone, rfl⟩ : call.phase = .waiting ∧ s.world.holder = none ∧
      { s.world.put i call.client .locked with holder := some i } = w' := by
    cases hphase : call.phase with
    | waiting =>
      rw [hphase] at hmove
      obtain ⟨hnone, hw⟩ := ite_none_right_eq_some.mp hmove
      exact ⟨rfl, hnone, Option.some.inj hw⟩
    | _ =>
      rw [hphase] at hmove
      cases hmove
  -- The lock is held for as long as a request is on its way.
  have hgrounded : ∀ k, stage ≠ .flying k := by
    intro k hk
    rw [h.flying k hk] at hnone
    cases hnone
  exact h.put hcall rfl rfl rfl rfl (fun _ => Or.inr hnone) (fun k hk => absurd hk (hgrounded k))
    hgrounded (fun j other _ hj => h.phases j other hj) h.requests (fun hidle => ⟨hidle, rfl⟩)
    fun token htoken => h.landed token htoken

theorem mint_of_outlasts (account : Wire.Account) (utcnow : ℤ) (carried : Option String)
    {response : Wire.Response} (h : s.Outlasts py response) :
    ∃ issued, Wire.mint py account response carried s.clock utcnow = .ok issued ∧
      s.Fresh issued.token := by
  obtain ⟨hstatus, payload, hpayload, lifetime, hlifetime, hlong⟩ := h
  obtain ⟨hbody, haccess, herror⟩ := Wire.granted?_eq_some.mp hpayload
  obtain ⟨accessToken, haccess⟩ := isSome_iff_exists.mp haccess
  have hread : Wire.asInt py (Wire.get payload "expires_in") = .ok lifetime := by
    cases hread : Wire.asInt py (Wire.get payload "expires_in") with
    | error raised =>
      rw [hread] at hlifetime
      cases hlifetime
    | ok stated =>
      rw [hread] at hlifetime
      exact congrArg Except.ok (Option.some.inj hlifetime)
  obtain ⟨issued, hissued, -, hexpires, -⟩ :=
    Wire.tokenFromPayload_eq_ok account carried haccess hread fun n hn => (hlong n hn).1
  have hpost : Wire.postToken py account response utcnow = .ok payload :=
    Wire.postToken_eq_ok.mpr ⟨hstatus, hbody, herror⟩
  refine ⟨issued, ?_, fun client hclient => ?_⟩
  · unfold Wire.mint
    rw [hpost]
    exact hissued
  · unfold StoredToken.needsRefresh
    rw [hexpires]
    cases lifetime with
    | none => rfl
    | some n =>
      have hmargin := (hlong n rfl).2 client hclient
      refine decide_eq_false fun hle => ?_
      have hends : s.clock + n * 1000000 ≤ s.clock + client.refreshMarginSeconds * 1000000 := hle
      omega

theorem answer_flight {answer : Answer} (h : Flight s stage) (hlasts : s.Lasts py (.answer i answer))
    (hstep : s.step py account (.answer i answer) = some s') : Flight s' stage := by
  unfold step at hstep
  dsimp only at hstep
  split at hstep
  next client carried hcall =>
    have hflying : stage = .flying i := h.phases i _ hcall
    subst hflying
    cases answer with
    | transportError | httpError => exact absurd hlasts id
    | response response utcnow =>
      obtain ⟨issued, hissued, hfresh⟩ := mint_of_outlasts account utcnow carried hlasts
      unfold respond at hstep
      dsimp only at hstep
      rw [hissued] at hstep
      cases hstep
      exact h.put hcall rfl rfl rfl (h.flying i rfl) (fun _ => Or.inl rfl) h.flying ⟨rfl, hfresh⟩
        (fun j other _ hj => h.phases j other hj) h.requests (fun hidle => ⟨hidle, rfl⟩) nofun
  next => cases hstep

theorem save_flight (h : Flight s stage) (hstep : s.step py account (.save i) = some s') :
    ∃ token, Flight s' (.landed token) := by
  obtain ⟨w', hw', rfl⟩ := map_eq_some_iff.mp hstep
  obtain ⟨call, hcall, hmove⟩ := bind_eq_some_iff.mp hw'
  have hallows := h.phases i call hcall
  cases hphase : call.phase with
  | saving token =>
    rw [hphase] at hmove hallows
    cases hmove
    obtain ⟨rfl, hfresh⟩ := hallows
    have hlocks : call.phase.locks = true := by rw [hphase]; rfl
    refine ⟨token, h.put hcall rfl rfl rfl ?_ nofun nofun ⟨token, rfl, rfl⟩
      (fun j other hne hj => ?_) h.requests (fun hidle => absurd rfl (hidle token)) ?_⟩
    · change none = if call.phase.locks then none else s.world.holder
      rw [if_pos hlocks]
    · have hother := h.phases j other hj
      have hfree := h.alone.others hcall hlocks hj hne
      cases hwhere : other.phase with
      | reading | waiting => trivial
      | returned token' =>
        rw [hwhere] at hother
        obtain ⟨stored, hstored, -⟩ := hother
        cases hstored
      | locked | requesting | saving =>
        rw [hwhere] at hfree
        cases hfree
      | invalidating | expiring | raised =>
        rw [hwhere] at hother
        exact hother
    · rintro token' ⟨⟩
      exact ⟨rfl, hfresh⟩
  | expiring cached =>
    rw [hphase] at hallows
    exact absurd hallows id
  | _ =>
    rw [hphase] at hmove
    cases hmove

theorem tick_flight {elapsed : ℕ} (h : Flight s stage) (hlasts : s.Lasts py (.tick elapsed)) :
    Flight { s with clock := s.clock + elapsed } stage := by
  refine ⟨h.known, h.alone, h.flying, fun j call hcall => ?_, h.requests, fun hidle => ?_,
    fun token htoken => ?_⟩
  · have hallows := h.phases j call hcall
    cases hphase : call.phase with
    | saving token =>
      rw [hphase] at hallows
      have hminted : token ∈ s.tokens := by
        refine mem_append_right _ (mem_filterMap.mpr ⟨call, mem_of_getElem? hcall, ?_⟩)
        rw [hphase]
        rfl
      exact ⟨hallows.1, hlasts token hminted hallows.2⟩
    | _ =>
      rw [hphase] at hallows
      exact hallows
  · obtain ⟨hstale, hgrants⟩ := h.stale hidle
    refine ⟨fun token htoken client hclient => ?_, hgrants⟩
    exact needsRefresh_mono (by dsimp only; omega) (hstale token htoken client hclient)
  · obtain ⟨hstored, hfresh⟩ := h.landed token htoken
    have hmem : token ∈ s.tokens := by
      refine mem_append_left _ ?_
      rw [hstored]
      exact mem_singleton.mpr rfl
    exact ⟨hstored, hlasts token hmem hfresh⟩

theorem step_flight {e : Event} (h : ∃ stage, Flight s stage) (hlasts : s.Lasts py e)
    (hstep : s.step py account e = some s') : ∃ stage, Flight s' stage := by
  obtain ⟨stage, h⟩ := h
  cases e with
  | token client => exact ⟨stage, token_flight h hstep⟩
  | load i => exact load_flight h hstep
  | acquire i => exact ⟨stage, acquire_flight h hstep⟩
  | answer i answer => exact ⟨stage, answer_flight h hlasts hstep⟩
  | save i =>
    obtain ⟨token, hsaved⟩ := save_flight h hstep
    exact ⟨.landed token, hsaved⟩
  | tick elapsed =>
    cases hstep
    exact ⟨stage, tick_flight h hlasts⟩

/-- What the calls of a session have come to: none has raised, at most one request is sent, and
exactly one once a call has returned; and what they return is fresh. -/
structure SingleFlight (s : Session) : Prop where
  atMostOne : s.requests ≤ 1
  returned : ∀ call ∈ s.world.calls, ∀ token, call.phase = .returned token →
    s.requests = 1 ∧ ∃ issued, token = some issued ∧ s.Fresh issued
  none_raised : ∀ call ∈ s.world.calls, ∀ failure, call.phase ≠ .raised failure

theorem Flight.single (h : Flight s stage) : SingleFlight s := by
  refine ⟨?_, fun call hcall token hphase => ?_, fun call hcall failure hphase => ?_⟩
  · rw [h.requests]
    cases stage with
    | idle => exact Nat.zero_le 1
    | flying | landed => exact le_rfl
  all_goals
    obtain ⟨i, hi⟩ := mem_iff_getElem?.mp hcall
    have hallows := h.phases i call hi
    rw [hphase] at hallows
  · obtain ⟨stored, rfl, rfl⟩ := hallows
    exact ⟨h.requests, stored, rfl, (h.landed stored rfl).2⟩
  · exact hallows

/-- However the calls interleave, one request is sent and what is returned is fresh, if the tokens
that are minted outlast the margin. -/
theorem minting_single_flight (py : Wire.Python) (account : Wire.Account) (events : List Event)
    {s s' : Session} (hexpired : s.Expired) (hlasts : Along (step py account) (Lasts py) s events)
    (hrun : runs (step py account) s events = some s') : SingleFlight s' := by
  obtain ⟨stage, h⟩ : ∃ stage, Flight s' stage :=
    runs_keeps (I := fun s => ∃ stage, Flight s stage)
      (fun _ _ _ h hC hs => step_flight h hC hs) ⟨.idle, hexpired.flight⟩ hlasts hrun
  exact h.single

end

/-! ## Two calls at once -/

def unlinked : Session where
  world :=
    { clients := [{ grant := .clientCredentials }, { grant := .clientCredentials }]
      store := none
      newest := "" }
  clock := 0

def together (response : Wire.Response) : List Event :=
  [.token 0, .token 1, .load 0, .load 1, .acquire 0, .load 0, .answer 0 (.response response 0),
    .tick 1000000, .save 0, .acquire 1, .load 1]

def granting (expiresIn : ℤ) : Wire.Response :=
  ⟨200, none, .json (.object [("access_token", .str "a"), ("expires_in", .int expiresIn)])⟩

theorem unlinked_expired : unlinked.Expired where
  calls := rfl
  holder := rfl
  requests := rfl
  stale token htoken := by cases htoken
  grants client hclient hgrant := by
    obtain rfl : client = { grant := .clientCredentials } := by
      rcases mem_cons.mp hclient with rfl | hclient
      · rfl
      · exact mem_singleton.mp hclient
    cases hgrant

def allStale (s : Session) : Bool :=
  s.world.calls.all fun call =>
    match call.phase with
    | .returned (some token) => token.needsRefresh call.client.refreshMarginSeconds s.clock
    | _ => false

/-- The first call mints a token for an hour, and the second one returns it. -/
theorem hour_single_flight : ∃ s,
    runs (step Wire.pythonOfDates Wire.crm) unlinked (together (granting 3600)) = some s ∧
      SingleFlight s := by
  have hsome : (runs (step Wire.pythonOfDates Wire.crm) unlinked
      (together (granting 3600))).isSome = true := by
    decide +kernel
  obtain ⟨s, hs⟩ := isSome_iff_exists.mp hsome
  exact ⟨s, hs, minting_single_flight _ _ _ unlinked_expired (by decide +kernel) hs⟩

/-- A token for a minute is stale as soon as it is minted: the second call mints again, and both
return what has to be refreshed. -/
theorem minute_minted_twice : ∃ s, unlinked.Expired ∧
    runs (step Wire.pythonOfDates Wire.crm) unlinked (together (granting 60) ++
      [.answer 1 (.response (granting 60) 0), .save 1]) = some s ∧
        s.requests = 2 ∧ s.allStale = true := by
  have hsome : (runs (step Wire.pythonOfDates Wire.crm) unlinked (together (granting 60) ++
      [.answer 1 (.response (granting 60) 0), .save 1])).isSome = true := by
    decide
  have hfacts : ∀ s ∈ runs (step Wire.pythonOfDates Wire.crm) unlinked (together (granting 60) ++
      [.answer 1 (.response (granting 60) 0), .save 1]), s.requests = 2 ∧ s.allStale = true := by
    decide
  obtain ⟨s, hs⟩ := isSome_iff_exists.mp hsome
  exact ⟨s, unlinked_expired, hs, hfacts s hs⟩

end Session

end OmniSense.Connectors.OAuth
