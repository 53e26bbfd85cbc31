import Mathlib.Data.Rat.Floor
import OmniSense.Connectors.Base
import OmniSense.Library.Runs
import OmniSense.Models.Json

/-! Any number of `OAuth2Client`s for one account, on one `TokenStore`, against a provider that
rotates its refresh tokens. Times are microseconds. -/

namespace OmniSense.Connectors.OAuth

open Library

/-! ## Tokens -/

def seconds (n : ℤ) : ℤ := n * 1000000

structure StoredToken where
  accessToken : String
  tokenType : String := "Bearer"
  expiresAt : Option ℤ := none
  refreshToken : Option String := none
  scope : Option String := none
  obtainedAt : ℤ
  extra : List (String × Json) := []

def StoredToken.needsRefresh (token : StoredToken) (marginSeconds now : ℤ) : Bool :=
  match token.expiresAt with
  | none => false
  | some expiresAt => expiresAt ≤ now + seconds marginSeconds

inductive OAuth2Grant
  | clientCredentials | refreshToken
  deriving DecidableEq

structure OAuth2Config where
  grant : OAuth2Grant := .refreshToken
  -- The seed, from the consent flow.
  refreshToken : Option String := none
  refreshMarginSeconds : ℤ := 300
  deriving DecidableEq

/-- What `or` and `if` take a text for. -/
def filled (text : Option String) : Option String := text.filter fun s => s ≠ ""

def held (cached : Option StoredToken) : Option String :=
  filled (cached.bind StoredToken.refreshToken)

/-- `(cached.refresh_token if cached else None) or config.refresh_token`. -/
def OAuth2Config.carried (config : OAuth2Config) (cached : Option StoredToken) : Option String :=
  (held cached).or (filled config.refreshToken)

/-! ## Responses -/

/-- `datetime` ends with the year 9999, and starts with the year 1. -/
def inRange (time : ℤ) : Bool :=
  seconds (-62135596800) ≤ time ∧ time < seconds 253402300800

/-- What `client.post` comes back with; a body is `none` where it is not JSON. -/
inductive Reply
  | transportError
  | httpError
  | response (statusCode : ℕ) (retryAfter : Option ℚ) (body : Option Json)

def TERMINAL_ERRORS : List String :=
  ["invalid_grant", "invalid_client", "unauthorized_client", "access_denied", "invalid_token"]

def CONFIGURATION_ERRORS : List String :=
  ["invalid_scope", "unsupported_grant_type", "invalid_request", "unsupported_response_type"]

/-- `_error_code`: the codes that decide anything pass the check on what may be logged. -/
def errorCode (body : Option Json) : Option String := do
  let payload ← body.bind Json.asMapping
  let code ← (Json.get payload "error").bind Json.asString
  return String.ofList ((strip code).toList.take 64)

/-- `_raise_for_token_error`. -/
def tokenError (statusCode : ℕ) (retryAfter : Option ℚ) (body : Option Json) : Failure :=
  let code := errorCode body
  if statusCode = 429 then .quota none retryAfter
  else if 500 ≤ statusCode then .transient none
  else if ∃ c ∈ code, c ∈ CONFIGURATION_ERRORS then .configuration
  else if (∃ c ∈ code, c ∈ TERMINAL_ERRORS) ∨ statusCode ∈ [200, 400, 401, 403] then .auth
  else .permanent

/-- `_post_token`, from the reply on. -/
def postToken : Reply → Except Failure (List (String × Json))
  | .transportError => .error (.transient none)
  | .httpError => .error .permanent
  | .response statusCode retryAfter body =>
    if statusCode ≠ 200 then .error (tokenError statusCode retryAfter body)
    else
      match body.bind Json.asMapping with
      | none => .error .permanent
      | some payload =>
        if (Json.get payload "error").isSome then .error (tokenError statusCode retryAfter body)
        else .ok payload

section

-- Python's `int` of a text.
variable (parse : String → Option ℤ)

def asInt : Option Json → Option ℤ
  | some (.number q) => some (if 0 ≤ q then ⌊q⌋ else ⌈q⌉)
  | some (.str s) => parse (strip s)
  | _ => none

variable (payload : List (String × Json))

def textOf (key : String) : Option String :=
  filled ((Json.get payload key).bind Json.asString)

def known : List String :=
  ["access_token", "refresh_token", "expires_in", "token_type", "scope", "id_token"]

def expiry (now : ℤ) : Option ℤ :=
  (asInt parse (Json.get payload "expires_in")).map fun lifetime => now + seconds lifetime

/-- `_token_from_payload`; an expiry that is no `datetime` raises an `OverflowError`. -/
def tokenFromPayload (carried : Option String) (now : ℤ) :
    Except Failure StoredToken :=
  match textOf payload "access_token" with
  | none => .error .permanent
  | some accessToken =>
    if ∀ time ∈ expiry parse payload now, inRange time then
      .ok
        { accessToken := accessToken
          tokenType := (textOf payload "token_type").getD "Bearer"
          expiresAt := expiry parse payload now
          refreshToken := (textOf payload "refresh_token").or carried
          scope := (Json.get payload "scope").bind Json.asString
          obtainedAt := now
          extra := payload.filter fun field => field.1 ∉ known }
    else .error .defect

/-- `_mint`, from the reply on. -/
def mint (carried : Option String) (reply : Reply) (now : ℤ) : Except Failure StoredToken := do
  let payload ← postToken reply
  tokenFromPayload parse payload carried now

end

/-! ## Calls -/

/-- Where a call of `token` or of `invalidate` is suspended. -/
inductive Phase
  | reading
  | waiting
  -- Inside the lock, before the second read, the response and the save.
  | locked
  | requesting (carried : Option String)
  | saving (minted : StoredToken)
  | invalidating
  | expiring (cached : StoredToken)
  | returned (token : Option StoredToken)
  | raised (failure : Failure)

namespace Phase

def locks : Phase → Bool
  | .locked | .requesting _ | .saving _ => true
  | _ => false

def isSaving : Phase → Bool
  | .saving _ => true
  | _ => false

/-- What an `invalidate` has read and is about to write back. -/
def cached? : Phase → Option StoredToken
  | .expiring cached => some cached
  | _ => none

end Phase

structure Call where
  client : OAuth2Config
  phase : Phase

/-- `newest` is the refresh token that the provider issued last, by a response or before that. -/
structure World where
  clients : List OAuth2Config
  store : Option StoredToken
  holder : Option ℕ := none
  calls : List Call := []
  newest : String
  hasRotated : Bool := false

inductive Act
  | load (now : ℤ)
  | acquire
  | reply (reply : Reply) (now : ℤ)
  | save (now : ℤ)
  -- Cancelled. A request that is given up has not reached the provider.
  | giveUp

inductive Event
  | token (client : ℕ)
  | invalidate (client : ℕ)
  | act (i : ℕ) (act : Act)

namespace World

variable (w : World)

/-- What a successful reply says of the provider: it was given the newest refresh token, where it
was given one, and has issued the refresh token in the reply. -/
def succeeds (client : OAuth2Config) (carried : Option String) (payload : List (String × Json)) :
    Bool :=
  (textOf payload "access_token").isSome ∧
    (client.grant = .refreshToken → carried = some w.newest ∧
      (textOf payload "refresh_token").isSome)

def issue (payload : List (String × Json)) : World :=
  match textOf payload "refresh_token" with
  | some refreshToken => { w with newest := refreshToken, hasRotated := true }
  | none => w

def put (i : ℕ) (client : OAuth2Config) (phase : Phase) : World :=
  { w with calls := w.calls.set i ⟨client, phase⟩ }

def release (i : ℕ) (client : OAuth2Config) (phase : Phase) : World :=
  { w.put i client phase with holder := none }

section

variable (parse : String → Option ℤ)

def answer (i : ℕ) (client : OAuth2Config) (carried : Option String) (reply : Reply) (now : ℤ) :
    Option World :=
  let next := fun (w : World) =>
    match mint parse carried reply now with
    | .ok minted => w.put i client (.saving minted)
    | .error failure => w.release i client (.raised failure)
  match postToken reply with
  | .error _ => some (next w)
  | .ok payload =>
    if w.succeeds client carried payload then some (next (w.issue payload)) else none

def callStep (i : ℕ) (client : OAuth2Config) : Phase → Act → Option World
  | .reading, .load now =>
    match w.store with
    | some cached =>
      if cached.needsRefresh client.refreshMarginSeconds now then some (w.put i client .waiting)
      else some (w.put i client (.returned cached))
    | none => some (w.put i client .waiting)
  | .waiting, .acquire =>
    if w.holder = none then some { w.put i client .locked with holder := i } else none
  | .locked, .load now =>
    let isFresh := w.store.any fun cached => !cached.needsRefresh client.refreshMarginSeconds now
    let carried := client.carried w.store
    if isFresh then some (w.release i client (.returned w.store))
    else if client.grant = .refreshToken ∧ carried = none then
      some (w.release i client (.raised .auth))
    else some (w.put i client (.requesting carried))
  | .requesting carried, .reply reply now => w.answer parse i client carried reply now
  | .saving minted, .save _ =>
    some { w.release i client (.returned (some minted)) with store := some minted }
  | .invalidating, .load _ =>
    match w.store with
    | some cached => some (w.put i client (.expiring cached))
    | none => some (w.put i client (.returned none))
  | .expiring cached, .save now =>
    some
      { w.put i client (.returned none) with store := some { cached with expiresAt := some now } }
  | .returned _, _ | .raised _, _ => none
  | phase, .giveUp =>
    if phase.locks then some (w.release i client (.raised .cancelled))
    else some (w.put i client (.raised .cancelled))
  | _, _ => none

def step (w : World) : Event → Option World
  | .token k => (w.clients[k]?).map fun c => { w with calls := w.calls ++ [⟨c, .reading⟩] }
  | .invalidate k =>
    (w.clients[k]?).map fun c => { w with calls := w.calls ++ [⟨c, .invalidating⟩] }
  | .act i act =>
    (w.calls[i]?).bind fun call => w.callStep parse i call.client call.phase act

end

/-! ## What the account needs -/

def Renewable : Prop :=
  held w.store = some w.newest ∨
    w.hasRotated = false ∧ held w.store = none ∧
      ∀ c ∈ w.clients, filled c.refreshToken = some w.newest

/-- A `token` call is between its response and its save. -/
def isSaving : Bool := w.calls.any fun call => call.phase.isSaving

def Linked : Prop := w.calls = [] ∧ w.holder = none ∧ w.Renewable

/-- No step of a call loses a refresh token: a success can be made a token, an `invalidate` finds
what it has read wherever a save does not follow, and no call is given up before its save. -/
def Respects (parse : String → Option ℤ) (w : World) : Event → Prop
  | .act _ (.reply reply now) =>
    ∀ payload ∈ (postToken reply).toOption, ∀ time ∈ expiry parse payload now, inRange time
  | .act i (.save _) =>
    ∀ call ∈ w.calls[i]?, ∀ cached ∈ call.phase.cached?,
      w.isSaving = true ∨ held w.store = held (some cached)
  | .act i .giveUp => ∀ call ∈ w.calls[i]?, call.phase.isSaving = false
  | _ => True

instance (parse : String → Option ℤ) (w : World) : (e : Event) → Decidable (w.Respects parse e)
  | .act _ (.reply reply now) =>
    inferInstanceAs (Decidable (∀ payload ∈ (postToken reply).toOption,
      ∀ time ∈ expiry parse payload now, inRange time))
  | .act i (.save _) =>
    inferInstanceAs (Decidable (∀ call ∈ w.calls[i]?, ∀ cached ∈ call.phase.cached?,
      w.isSaving = true ∨ held w.store = held (some cached)))
  | .act i .giveUp =>
    inferInstanceAs (Decidable (∀ call ∈ w.calls[i]?, call.phase.isSaving = false))
  | .token _ | .invalidate _ | .act _ (.load _) | .act _ .acquire => .isTrue trivial

end World

end OmniSense.Connectors.OAuth
