import Mathlib.Tactic.Tauto
import OmniSense.Connectors.OAuth

/-! What becomes of a response of the token endpoint, with every body that Python can decode and
every header: a token, an error of the connector taxonomy, or an exception outside of it. -/

namespace OmniSense.Connectors.OAuth.Wire

open Library Option

/-! ## Responses -/

inductive PyFloat
  | finite (q : ℚ)
  | infinity (negative : Bool)
  | nan

/-- What Python's `json` decodes; `Infinity` and `NaN` are numbers to it. -/
inductive Value
  | null
  | bool (b : Bool)
  | int (n : ℤ)
  | float (x : PyFloat)
  | str (s : String)
  | array (items : List Value)
  | object (fields : List (String × Value))

abbrev Fields := List (String × Value)

def get (fields : Fields) (key : String) : Option Value :=
  (fields.find? fun field => field.1 = key).map Prod.snd

def textOf (fields : Fields) (key : String) : Option String :=
  match get fields key with
  | some (.str s) => filled (some s)
  | _ => none

/-- What `response.json()` gives, or raises: a `ValueError` or a `RecursionError`. -/
inductive Body
  | json (value : Value)
  | notJson
  | tooDeep

structure Response where
  statusCode : ℕ
  -- `headers.get("retry-after")`, whatever the case of the header.
  retryAfter : Option String
  body : Body

/-- What `parsedate_to_datetime` gives, or raises: a `TypeError` or a `ValueError`, or another
exception. -/
inductive HttpDate
  | aware (time : ℤ)
  | naive
  | refused
  | failed

structure Python where
  int : String → Option ℤ
  float : String → Option PyFloat
  isAlnum : Char → Bool
  parsedateToDatetime : String → HttpDate

/-! ## Errors -/

inductive Kind
  | auth | quota | transient | permanent | configuration
  deriving DecidableEq

structure Account where
  connector : Option String
  accountId : String

structure ConnectorError where
  kind : Kind
  message : String
  account : Account
  statusCode : Option ℕ := none
  oauthError : Option String := none
  retryAfterSeconds : Option PyFloat := none

inductive Raised
  | connector (error : ConnectorError)
  | overflowError
  | valueError
  | typeError
  | recursionError
  | other

def Raised.IsConnectorError (raised : Raised) : Prop := ∃ error, raised = .connector error

/-! ## Parsing -/

/-- `max(0.0, x)`, which is `0.0` for what is not a number. -/
def PyFloat.atLeastZero : PyFloat → PyFloat
  | .finite q => .finite (max 0 q)
  | .infinity false => .infinity false
  | .infinity true | .nan => .finite 0

section

variable (py : Python)

/-- `_as_int`; `int` of a float that is not finite raises. -/
def asInt : Option Value → Except Raised (Option ℤ)
  | some (.int n) => .ok (some n)
  | some (.float (.finite q)) => .ok (some (if 0 ≤ q then ⌊q⌋ else ⌈q⌉))
  | some (.float (.infinity _)) => .error .overflowError
  | some (.float .nan) => .error .valueError
  | some (.str s) => .ok (py.int (strip s))
  | _ => .ok none

def errorCode (response : Response) : Except Raised (Option String) :=
  match response.body with
  | .tooDeep => .error .recursionError
  | .json (.object payload) =>
    match get payload "error" with
    | some (.str code) =>
      let code := (strip code).toList.take 64
      let bare := code.filter fun c => c ≠ '_' ∧ c ≠ '-'
      .ok (if bare ≠ [] ∧ bare.all py.isAlnum then some (String.ofList code) else none)
    | _ => .ok none
  | _ => .ok none

/-- `_retry_after_seconds`; a date without a time zone cannot be compared with the clock. -/
def retryAfterSeconds (raw : Option String) (utcnow : ℤ) : Except Raised (Option PyFloat) :=
  match filled raw with
  | none => .ok none
  | some raw =>
    match py.float raw with
    | some x => .ok (some x.atLeastZero)
    | none =>
      match py.parsedateToDatetime raw with
      | .aware time => .ok (some (.finite (max 0 ((time - utcnow : ℤ) / 1000000))))
      | .naive => .error .typeError
      | .refused => .ok none
      | .failed => .error .other

/-! ## The token request -/

variable (account : Account)

def raiseForTokenError {α : Type} (response : Response) (utcnow : ℤ) : Except Raised α := do
  let status := response.statusCode
  let code ← errorCode py response
  let error := fun kind message => ConnectorError.mk kind message account (some status) code
  if status = 429 then
    let seconds ← retryAfterSeconds py response.retryAfter utcnow
    throw (.connector (error .quota "token endpoint rate-limited the client" seconds))
  else if 500 ≤ status then
    throw (.connector (error .transient "token endpoint failed" none))
  else if ∃ c ∈ code, c ∈ CONFIGURATION_ERRORS then
    throw (.connector (error .configuration
      "token request was rejected as malformed or out of scope" none))
  else if (∃ c ∈ code, c ∈ TERMINAL_ERRORS) ∨ status ∈ [200, 400, 401, 403] then
    throw (.connector (error .auth "token request was rejected" none))
  else
    throw (.connector (error .permanent "token endpoint returned an unexpected status" none))

def decode (response : Response) : Except Raised Fields :=
  let error := fun message =>
    Raised.connector ⟨.permanent, message, account, some response.statusCode, none, none⟩
  match response.body with
  | .tooDeep => .error .recursionError
  | .notJson => .error (error "token endpoint returned a body that is not JSON")
  | .json (.object payload) => .ok payload
  | .json _ => .error (error "token endpoint returned a JSON value that is not an object")

/-- `_post_token`, from the response on. -/
def postToken (response : Response) (utcnow : ℤ) : Except Raised Fields :=
  if response.statusCode ≠ 200 then raiseForTokenError py account response utcnow
  else do
    let payload ← decode account response
    if (get payload "error").isSome then raiseForTokenError py account response utcnow
    else return payload

/-- A token. Its `extra` stands beside it, for its values may be any. -/
structure Issued where
  token : StoredToken
  extra : Fields

def tokenFromPayload (payload : Fields) (carried : Option String) (now : ℤ) :
    Except Raised Issued :=
  match textOf payload "access_token" with
  | none =>
    .error (.connector ⟨.permanent, "token response carried no access_token", account, none, none,
      none⟩)
  | some accessToken => do
    let lifetime ← asInt py (get payload "expires_in")
    let expiresAt := lifetime.map fun lifetime => now + seconds lifetime
    if ∃ time ∈ expiresAt, inRange time = false then throw .overflowError
    return {
      token :=
        { accessToken := accessToken
          tokenType := (textOf payload "token_type").getD "Bearer"
          expiresAt := expiresAt
          refreshToken := (textOf payload "refresh_token").or carried
          scope := match get payload "scope" with
            | some (.str scope) => some scope
            | _ => none
          obtainedAt := now }
      extra := payload.filter fun field => field.1 ∉ known }

/-- `_mint`, from the response on. -/
def mint (response : Response) (carried : Option String) (now utcnow : ℤ) :
    Except Raised Issued := do
  let payload ← postToken py account response utcnow
  tokenFromPayload py account payload carried now

end

/-! ## What stays within the taxonomy -/

/-- No `TypeError` or other exception reads the header. -/
def RetryReads (py : Python) (raw : Option String) : Prop :=
  ∀ text ∈ filled raw, py.float text = none →
    py.parsedateToDatetime text ≠ .naive ∧ py.parsedateToDatetime text ≠ .failed

/-- The lifetime, if there is one, is a number of seconds after which there is a `datetime`. -/
def LifetimeFits (py : Python) (now : ℤ) (payload : Fields) : Prop :=
  ∃ lifetime, asInt py (get payload "expires_in") = .ok lifetime ∧
    ∀ n ∈ lifetime, inRange (now + seconds n) = true

def Response.Grants (response : Response) (payload : Fields) : Prop :=
  response.body = .json (.object payload) ∧ (textOf payload "access_token").isSome ∧
    get payload "error" = none

def Response.granted? (response : Response) : Option Fields :=
  match response.body with
  | .json (.object payload) =>
    if (textOf payload "access_token").isSome ∧ (get payload "error").isNone then some payload
    else none
  | _ => none

section

variable {py : Python} {account : Account} {response : Response} {payload : Fields}
  {carried : Option String} {now utcnow : ℤ}

theorem granted?_eq_some : response.granted? = some payload ↔ response.Grants payload := by
  unfold Response.granted? Response.Grants
  split
  next fields hbody =>
    rw [hbody, ite_none_right_eq_some, isNone_iff_eq_none, Option.some.injEq]
    constructor
    · rintro ⟨⟨haccess, herror⟩, rfl⟩
      exact ⟨rfl, haccess, herror⟩
    · rintro ⟨heq, haccess, herror⟩
      cases heq
      exact ⟨⟨haccess, herror⟩, rfl⟩
  next hother => exact iff_of_false nofun fun h => hother payload h.1

theorem connector_error (error : ConnectorError) : (Raised.connector error).IsConnectorError :=
  ⟨error, rfl⟩

theorem confined_errorCode :
    Confined Raised.IsConnectorError (errorCode py response) ↔ response.body ≠ .tooDeep := by
  unfold errorCode
  split
  next hbody =>
    rw [confined_error]
    exact iff_of_false (by rintro ⟨error, h⟩; cases h) fun h => h hbody
  next payload hbody =>
    refine iff_of_true ?_ (by rw [hbody]; exact nofun)
    split <;> exact confined_ok _
  next hdeep _ => exact iff_of_true (confined_ok _) hdeep

theorem confined_retryAfterSeconds {raw : Option String} :
    Confined Raised.IsConnectorError (retryAfterSeconds py raw utcnow) ↔ RetryReads py raw := by
  unfold retryAfterSeconds RetryReads
  cases filled raw with
  | none => exact iff_of_true (confined_ok _) (by simp)
  | some text =>
    dsimp only
    cases hfloat : py.float text with
    | some x => exact iff_of_true (confined_ok _) (by simp [hfloat])
    | none =>
      cases hdate : py.parsedateToDatetime text with
      | aware | refused => exact iff_of_true (confined_ok _) (by simp [hdate])
      | naive | failed =>
        refine iff_of_false ?_ (by simp [hfloat, hdate])
        rw [confined_error]
        rintro ⟨error, h⟩
        cases h

variable {α : Type}

theorem raiseForTokenError_raises (a : α) :
    raiseForTokenError py account response utcnow ≠ .ok a := by
  unfold raiseForTokenError
  cases errorCode py response with
  | error raised => exact nofun
  | ok code =>
    change (if _ then _ else _) ≠ _
    split_ifs
    · cases retryAfterSeconds py response.retryAfter utcnow <;> exact nofun
    all_goals exact nofun

theorem confined_raiseForTokenError :
    Confined Raised.IsConnectorError (raiseForTokenError (α := α) py account response utcnow) ↔
      response.body ≠ .tooDeep ∧ (response.statusCode = 429 → RetryReads py response.retryAfter) := by
  have hthrow : ∀ error : ConnectorError,
      Confined Raised.IsConnectorError (throw (.connector error) : Except Raised α) := fun error =>
    confined_error.mpr (connector_error error)
  unfold raiseForTokenError
  rw [confined_bind, confined_errorCode]
  refine and_congr_right fun hdeep => ?_
  obtain ⟨code, hcode⟩ : ∃ code, errorCode py response = .ok code := by
    cases hcode : errorCode py response with
    | ok code => exact ⟨code, rfl⟩
    | error raised =>
      obtain ⟨error, rfl⟩ := confined_errorCode.mpr hdeep raised hcode
      unfold errorCode at hcode
      split at hcode
      · cases hcode
      · split at hcode <;> cases hcode
      · cases hcode
  constructor
  · intro h hstatus
    have hbranch := h code hcode
    rw [if_pos hstatus, confined_bind] at hbranch
    exact confined_retryAfterSeconds.mp hbranch.1
  · intro h code' _
    split_ifs with hstatus
    · exact confined_bind.mpr ⟨confined_retryAfterSeconds.mpr (h hstatus), fun _ _ => hthrow _⟩
    all_goals exact hthrow _

theorem confined_decode :
    Confined Raised.IsConnectorError (decode account response) ↔ response.body ≠ .tooDeep := by
  unfold decode
  split
  next hbody =>
    rw [confined_error]
    exact iff_of_false (by rintro ⟨error, h⟩; cases h) fun h => h hbody
  next hbody =>
    exact iff_of_true (confined_error.mpr (connector_error _)) (by rw [hbody]; exact nofun)
  next payload hbody => exact iff_of_true (confined_ok _) (by rw [hbody]; exact nofun)
  next value _ hbody =>
    exact iff_of_true (confined_error.mpr (connector_error _)) (by rw [hbody]; exact nofun)

theorem decode_eq_ok (account : Account) : decode account response = .ok payload ↔
    response.body = .json (.object payload) := by
  unfold decode
  constructor
  · intro h
    split at h
    · cases h
    · cases h
    · cases h
      assumption
    · cases h
  · intro h
    rw [h]

theorem postToken_eq_ok : postToken py account response utcnow = .ok payload ↔
    response.statusCode = 200 ∧ response.body = .json (.object payload) ∧
      get payload "error" = none := by
  unfold postToken
  by_cases hstatus : response.statusCode = 200
  · rw [if_neg (not_not.mpr hstatus), and_iff_right hstatus, ← decode_eq_ok account]
    cases hdecode : decode account response with
    | error raised => exact iff_of_false nofun (by rintro ⟨h, -⟩; cases h)
    | ok fields =>
      change (if _ then _ else _) = _ ↔ _
      split_ifs with herror
      · refine iff_of_false (raiseForTokenError_raises payload) ?_
        rintro ⟨hsame, hnone⟩
        cases hsame
        rw [hnone] at herror
        cases herror
      · rw [Bool.not_eq_true, isSome_eq_false_iff, isNone_iff_eq_none] at herror
        constructor
        · intro h
          cases h
          exact ⟨rfl, herror⟩
        · rintro ⟨h, -⟩
          exact h
  · rw [if_pos hstatus]
    exact iff_of_false (raiseForTokenError_raises payload) fun h => hstatus h.1

theorem confined_postToken : Confined Raised.IsConnectorError (postToken py account response utcnow) ↔
    response.body ≠ .tooDeep ∧ (response.statusCode = 429 → RetryReads py response.retryAfter) := by
  unfold postToken
  by_cases hstatus : response.statusCode = 200
  · have hdated : response.statusCode = 429 → RetryReads py response.retryAfter := by
      rw [hstatus]
      exact fun h => absurd h (by decide)
    rw [if_neg (not_not.mpr hstatus), confined_bind, confined_decode]
    refine and_congr_right fun hdeep => iff_of_true (fun fields _ => ?_) hdated
    split_ifs
    · exact confined_raiseForTokenError.mpr ⟨hdeep, hdated⟩
    · exact confined_ok fields
  · rw [if_pos hstatus]
    exact confined_raiseForTokenError

theorem tokenFromPayload_eq_ok (account : Account) (carried : Option String) {accessToken : String}
    (haccess : textOf payload "access_token" = some accessToken) {lifetime : Option ℤ}
    (hlifetime : asInt py (get payload "expires_in") = .ok lifetime)
    (hrange : ∀ n ∈ lifetime, inRange (now + seconds n) = true) :
    ∃ issued, tokenFromPayload py account payload carried now = .ok issued ∧
      issued.token.accessToken = accessToken ∧
      issued.token.expiresAt = lifetime.map (fun n => now + seconds n) ∧
      issued.token.refreshToken = (textOf payload "refresh_token").or carried := by
  have hfits : ¬∃ time ∈ lifetime.map fun n => now + seconds n, inRange time = false := by
    rintro ⟨time, htime, hfar⟩
    obtain ⟨n, hn, rfl⟩ := mem_map.mp htime
    rw [hrange n hn] at hfar
    cases hfar
  unfold tokenFromPayload
  rw [haccess]
  rw [hlifetime]
  dsimp only [bind, Except.bind]
  rw [if_neg hfits]
  exact ⟨_, rfl, rfl, rfl, rfl⟩

theorem confined_tokenFromPayload :
    Confined Raised.IsConnectorError (tokenFromPayload py account payload carried now) ↔
      ((textOf payload "access_token").isSome → LifetimeFits py now payload) := by
  cases haccess : textOf payload "access_token" with
  | none =>
    unfold tokenFromPayload
    rw [haccess]
    exact iff_of_true (confined_error.mpr (connector_error _)) nofun
  | some accessToken =>
    rw [forall_prop_of_true (isSome_some)]
    constructor
    · intro h
      unfold tokenFromPayload at h
      rw [haccess] at h
      obtain ⟨hread, hlater⟩ := confined_bind.mp h
      cases hlifetime : asInt py (get payload "expires_in") with
      | error raised =>
        obtain ⟨error, rfl⟩ := hread raised hlifetime
        unfold asInt at hlifetime
        split at hlifetime <;> cases hlifetime
      | ok lifetime =>
        refine ⟨lifetime, hlifetime, fun n hn => ?_⟩
        by_contra hfar
        have hbranch := hlater lifetime hlifetime
        have hexists : ∃ time ∈ lifetime.map fun lifetime => now + seconds lifetime,
            inRange time = false :=
          ⟨_, mem_map.mpr ⟨n, hn, rfl⟩, Bool.eq_false_iff.mpr hfar⟩
        rw [if_pos hexists] at hbranch
        obtain ⟨error, h⟩ := hbranch .overflowError rfl
        cases h
    · rintro ⟨lifetime, hlifetime, hrange⟩
      obtain ⟨issued, hissued, -⟩ :=
        tokenFromPayload_eq_ok account carried haccess hlifetime hrange
      rw [hissued]
      exact confined_ok issued

def Raised.Names (account : Account) (raised : Raised) : Prop :=
  ∀ error, raised = .connector error → error.account = account

theorem names_connector {error : ConnectorError} (h : error.account = account) :
    (Raised.connector error).Names account := by
  rintro error' ⟨⟩
  exact h

theorem raiseForTokenError_names :
    Confined (Raised.Names account) (raiseForTokenError (α := α) py account response utcnow) := by
  refine confined_bind.mpr ⟨fun raised hraised error herror => ?_, fun code _ => ?_⟩
  · subst herror
    unfold errorCode at hraised
    split at hraised
    · cases hraised
    · split at hraised <;> cases hraised
    · cases hraised
  · dsimp only
    split_ifs
    · refine confined_bind.mpr ⟨fun raised hraised error herror => ?_, fun seconds _ => ?_⟩
      · subst herror
        unfold retryAfterSeconds at hraised
        split at hraised
        · cases hraised
        · split at hraised
          · cases hraised
          · split at hraised <;> cases hraised
      · exact confined_error.mpr (names_connector rfl)
    all_goals exact confined_error.mpr (names_connector rfl)

/-- Nothing but a token or an error of the taxonomy comes out of a response; and a success gives a
token, with the refresh token of the response or else the one that was carried. -/
structure Settled (py : Python) (account : Account) (response : Response)
    (carried : Option String) (now utcnow : ℤ) : Prop where
  contained : ∀ raised, mint py account response carried now utcnow = .error raised →
    raised.IsConnectorError
  granted : ∀ payload, response.Grants payload → ∃ issued,
    mint py account response carried now utcnow = .ok issued ∧
      textOf payload "access_token" = some issued.token.accessToken ∧
      issued.token.refreshToken = (textOf payload "refresh_token").or carried

/-- A response settles exactly where its body and its headers can be read, and where a success has
the status of one and a lifetime that fits. -/
theorem settled_iff (py : Python) (account : Account) (response : Response)
    (carried : Option String) (now utcnow : ℤ) :
    Settled py account response carried now utcnow ↔
      response.body ≠ .tooDeep ∧ (response.statusCode = 429 → RetryReads py response.retryAfter) ∧
        ∀ payload, response.Grants payload →
          response.statusCode = 200 ∧ LifetimeFits py now payload := by
  have hconfined : (∀ raised, mint py account response carried now utcnow = .error raised →
      raised.IsConnectorError) ↔ Confined Raised.IsConnectorError (postToken py account response utcnow) ∧
        ∀ payload, postToken py account response utcnow = .ok payload →
          Confined Raised.IsConnectorError (tokenFromPayload py account payload carried now) :=
    confined_bind
  constructor
  · rintro ⟨hcontained, hgranted⟩
    obtain ⟨hpost, htoken⟩ := hconfined.mp hcontained
    obtain ⟨hdeep, hdated⟩ := confined_postToken.mp hpost
    refine ⟨hdeep, hdated, fun payload hgrants => ?_⟩
    obtain ⟨issued, hissued, -⟩ := hgranted payload hgrants
    have hstatus : response.statusCode = 200 := by
      unfold mint at hissued
      cases hpost' : postToken py account response utcnow with
      | error raised =>
        rw [hpost'] at hissued
        cases hissued
      | ok fields => exact (postToken_eq_ok.mp hpost').1
    refine ⟨hstatus, ?_⟩
    exact confined_tokenFromPayload.mp
      (htoken payload (postToken_eq_ok.mpr ⟨hstatus, hgrants.1, hgrants.2.2⟩)) hgrants.2.1
  · rintro ⟨hdeep, hdated, hgrants⟩
    refine ⟨hconfined.mpr ⟨confined_postToken.mpr ⟨hdeep, hdated⟩, fun payload hpayload => ?_⟩,
      fun payload hgrant => ?_⟩
    · obtain ⟨-, hbody, herror⟩ := postToken_eq_ok.mp hpayload
      exact confined_tokenFromPayload.mpr fun haccess =>
        (hgrants payload ⟨hbody, haccess, herror⟩).2
    · obtain ⟨hstatus, lifetime, hlifetime, hrange⟩ := hgrants payload hgrant
      obtain ⟨accessToken, haccess⟩ := isSome_iff_exists.mp hgrant.2.1
      obtain ⟨issued, hissued, rfl, -, hrefresh⟩ :=
        tokenFromPayload_eq_ok account carried haccess hlifetime hrange
      have hpost : postToken py account response utcnow = .ok payload :=
        postToken_eq_ok.mpr ⟨hstatus, hgrant.1, hgrant.2.2⟩
      refine ⟨issued, ?_, haccess, hrefresh⟩
      unfold mint
      rw [hpost]
      exact hissued

end

/-! ## Responses that do not settle -/

def pythonOfDates : Python where
  int _ := none
  float _ := none
  isAlnum := Char.isAlphanum
  parsedateToDatetime text := if text = "Wed, 21 Oct 2026 07:28:00" then .naive else .refused

def crm : Account := ⟨some "crm", "acct-1"⟩

def granted (expiresIn : Value) : Response :=
  ⟨200, none, .json (.object [("access_token", .str "a"), ("refresh_token", .str "r1"),
    ("expires_in", expiresIn)])⟩

theorem not_settled {response : Response} {carried : Option String} (raised : Raised)
    (hraised : mint pythonOfDates crm response carried 0 0 = .error raised)
    (hother : ¬raised.IsConnectorError) : ¬Settled pythonOfDates crm response carried 0 0 :=
  fun h => hother (h.contained raised hraised)

/-- A success whose lifetime is infinite, or a thousand billion seconds, and a rate limit until a
date without a time zone. -/
theorem responses_escape :
    ¬Settled pythonOfDates crm (granted (.float (.infinity false))) (some "r0") 0 0 ∧
      ¬Settled pythonOfDates crm (granted (.int 1000000000000)) (some "r0") 0 0 ∧
      ¬Settled pythonOfDates crm ⟨429, some "Wed, 21 Oct 2026 07:28:00", .notJson⟩ (some "r0") 0 0 := by
  refine ⟨not_settled .overflowError rfl ?_, not_settled .overflowError rfl ?_,
    not_settled .typeError rfl ?_⟩
  all_goals
    rintro ⟨error, h⟩
    cases h

end OmniSense.Connectors.OAuth.Wire
