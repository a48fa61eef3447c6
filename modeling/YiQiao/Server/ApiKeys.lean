import Mathlib.Data.List.Nodup
import YiQiao.Lib.Rows
import YiQiao.Lib.Runs
import YiQiao.Server.Members

/-!
# Project API keys

`verify_auth` of `auth.py` for a request with a project API key, between any two accesses to the database or to the
cache of verified keys: the row that a request is validated with was read before, and others may have changed it since.
-/

namespace YiQiao

open Lib

namespace ApiKeys

def memoryReadScope : String := "memory:read"

def memoryWriteScope : String := "memory:write"

/-- `API_KEY_SCOPES`. -/
def apiKeyScopes : List String := [memoryReadScope, memoryWriteScope]

def cacheLimit : Nat := 1024

/-- A row of `api_keys`. -/
structure ApiKey where
  id : String
  keyPrefix : String
  keyHash : String
  projectId : String
  keyType : String
  scopes : Option (List String)
  createdBy : String
  expiresAt : Option Int
  lastUsedAt : Option Int
  revokedAt : Option Int
  deriving DecidableEq, Repr

/-- The columns that no statement changes. -/
def ApiKey.fixed (row : ApiKey) : ApiKey := { row with lastUsedAt := none, revokedAt := none }

structure AuthError where
  status : Nat
  code : String
  message : String
  deriving DecidableEq, Repr

/-! ## Requests -/

/-- What `verify_auth` is given of a request: the bearer token and the key are those that FastAPI extracts. -/
structure HttpRequest where
  projectHeader : Option String
  projectQuery : Option String
  authorization : String
  bearer : Option String
  xApiKey : Option String
  deriving DecidableEq, Repr

/-- The fields of `request.state` that the authentication sets; `apiKeyScopes` may be unset. -/
structure RequestState where
  projectId : Option String
  authType : AuthType
  apiKeyId : Option String
  apiKeyType : Option String
  apiKeyScopes : Option (Option (List String))
  actorUserId : Option String
  deriving DecidableEq, Repr

/-- `or` of two texts. -/
def orText (left right : Option String) : Option String := if left = none ∨ left = some "" then right else left

/-- `get_project_id`. -/
def getProjectId (state : RequestState) (request : HttpRequest) : ProjectId :=
  ProjectId.normalize (orText (orText state.projectId request.projectHeader) request.projectQuery)

def HttpRequest.explicitProject (request : HttpRequest) : Option String :=
  orText request.projectHeader request.projectQuery

/-- The state with which the middleware starts. -/
def RequestState.initial : RequestState := ⟨none, .none, none, none, none, none⟩

structure Config where
  adminApiKey : String
  authDisabled : Bool
  deriving DecidableEq, Repr

inductive Credential where
  | adminApiKey
  | disabled
  | apiKey (key : String)
  | bearer (token : String)
  | missing
  deriving DecidableEq, Repr

def Config.projectKey (config : Config) (key : String) : Credential :=
  if config.adminApiKey ≠ "" ∧ key = config.adminApiKey then .adminApiKey
  else if config.authDisabled then .disabled
  else .apiKey key

/-- Which of its branches `verify_auth` takes. -/
def Config.credential (config : Config) (request : HttpRequest) : Credential :=
  if (request.authorization.toList.take 6).map Char.toLower = "token ".toList then
    config.projectKey (strip (String.ofList (request.authorization.toList.drop 6)))
  else
    match request.bearer, request.xApiKey with
    | some token, _ => .bearer token
    | none, some key => config.projectKey key
    | none, none => if config.authDisabled then .disabled else .missing

/-- The state when the key of a request is to be resolved. -/
def HttpRequest.begun (request : HttpRequest) : RequestState :=
  { RequestState.initial with projectId := some (getProjectId .initial request).text, authType := .apiKey }

/-! ## The cache of verified keys -/

/-- The fingerprints of keys, the least recently used one first, with the ids of their rows. -/
abbrev KeyCache := List (String × String)

/-- `_get_cached_api_key_id`: the id, and the cache with the entry at its end. -/
def KeyCache.touch (cache : KeyCache) (fingerprint : String) : Option String × KeyCache :=
  match cache.lookup fingerprint with
  | some id => (some id, cache.filter (fun entry => entry.1 ≠ fingerprint) ++ [(fingerprint, id)])
  | none => (none, cache)

/-- `_cache_api_key`. -/
def KeyCache.put (cache : KeyCache) (fingerprint id : String) : KeyCache :=
  let entries := cache.filter (fun entry => entry.1 ≠ fingerprint) ++ [(fingerprint, id)]
  entries.drop (entries.length - cacheLimit)

/-- `invalidate_api_key_auth_cache`. -/
def KeyCache.invalidate (cache : KeyCache) : Option String → KeyCache
  | none => []
  | some id => cache.filter fun entry => entry.2 ≠ id

/-! ## Checks -/

def hasProject (L : Lowering) (settings : Settings) (projectId : String) : Bool :=
  (normalizeWorkspace L settings).projects.any fun project => project.id.val = projectId

/-- The checks of `_validate_api_key`, and the state that it leaves. -/
def validateApiKey (L : Lowering) (settings : Settings) (now : Int) (request : HttpRequest) (state : RequestState)
    (candidate : ApiKey) : Except AuthError RequestState :=
  if candidate.keyType ≠ "standard" then
    .error ⟨401, "unsupported_key_type", "This API key type is not supported."⟩
  else if candidate.revokedAt ≠ none then .error ⟨401, "key_revoked", "API key has been revoked."⟩
  else if candidate.expiresAt.any fun expiry => expiry ≤ now then .error ⟨401, "auth_expired", "API key has expired."⟩
  else if ¬ hasProject L settings candidate.projectId then
    .error ⟨401, "project_not_found", "API key project no longer exists."⟩
  else if request.explicitProject ≠ none ∧
      (ProjectId.normalize request.explicitProject).text ≠ candidate.projectId then
    .error ⟨403, "project_scope_mismatch", "API key is bound to a different project."⟩
  else
    .ok { state with
      projectId := some candidate.projectId
      apiKeyId := some candidate.id
      apiKeyType := some candidate.keyType
      apiKeyScopes := some candidate.scopes }

/-- `enforce_api_key_scope`. -/
def enforceApiKeyScope (state : RequestState) (write : Bool) : Except AuthError Unit :=
  let requiredScope := if write then memoryWriteScope else memoryReadScope
  let insufficient : AuthError :=
    ⟨403, "insufficient_scope", "API key requires the " ++ requiredScope ++ " scope."⟩
  if state.authType ≠ .apiKey then .ok ()
  else
    match state.apiKeyScopes with
    | none => .error insufficient
    | some none => .ok ()
    | some (some scopes) => if requiredScope ∈ scopes then .ok () else .error insufficient

def Role.allowsWrite : Option Role → Bool
  | some .owner | some .editor => true
  | _ => false

/-- What lets a handler run. -/
inductive Guard where
  /-- `require_project_read`. -/
  | read
  /-- `require_project_write`. -/
  | write
  /-- `_ensure_project_write` of `routers/webhooks.py`, with the project of the path. -/
  | webhook (projectId : String)
  deriving DecidableEq, Repr

def Guard.writes : Guard → Bool
  | .read => false
  | .write | .webhook _ => true

def Guard.requiredScope (guard : Guard) : String := if guard.writes then memoryWriteScope else memoryReadScope

/-- `_project_role`, for the role that the members give. -/
def projectRole (user : Account) (state : RequestState) (member : Option Role) : Option Role :=
  if user.isAdmin ∧ state.authType ≠ .apiKey then some .owner
  else if state.authType = .apiKey then some .owner
  else member

/-- `_require_project_role` and `_ensure_project_write` for a request with a user: the state that the handler sees. -/
def Guard.check (L : Lowering) (settings : Settings) (user : Account) (request : HttpRequest) (state : RequestState)
    (guard : Guard) : Except AuthError RequestState := do
  let denied : AuthError := ⟨403, "", "Project access denied."⟩
  enforceApiKeyScope state guard.writes
  match guard with
  | .webhook projectId =>
      if state.authType = .apiKey ∧ (getProjectId state request).text ≠ projectId then .error denied
      else .ok { state with projectId := some projectId }
  | _ =>
      let role := projectRole user state
        (memberRole L (normalizeWorkspace L settings) (some user.email) (getProjectId state request).scopeId)
      if (if guard.writes then Role.allowsWrite role else role.isSome) then .ok state else .error denied

/-! ## Requests on their way -/

/-- How far a request with a key has come. -/
inductive Phase where
  | arrived
  /-- The cache named a row. -/
  | cached (id : String)
  /-- The rows with the prefix of the key are to be read. -/
  | missed
  /-- The hashes of these rows are to be verified. -/
  | checking (candidates : List ApiKey)
  | matched (candidate : ApiKey)
  | found (candidate : ApiKey)
  /-- The checks are passed, and the time of the use is to be stored. -/
  | validated (candidate : ApiKey) (state : RequestState)
  | stored (candidate : ApiKey) (state : RequestState)
  | owned (candidate : ApiKey) (state : RequestState) (user : Account)
  | authenticated (candidate : ApiKey) (state : RequestState) (user : Account)
  | running (guard : Guard) (candidate : ApiKey) (state : RequestState)
  | refused (error : AuthError)

structure Flight where
  request : HttpRequest
  key : String
  phase : Phase

/-- The database, the cache and the clock. -/
structure Shared where
  keys : List ApiKey
  /-- Every id that was drawn for a key; no column. -/
  issued : List String
  cache : KeyCache
  settings : Settings
  users : String → Option Account
  now : Int

structure KeyWorld where
  shared : Shared
  flights : Nat → Option Flight

inductive FlightStep where
  | lookup
  | fetch
  | select
  | verify
  | remember
  | validate
  | store
  | findOwner
  | enforceQuotas (within : Bool)
  | enter (guard : Guard)
  deriving DecidableEq, Repr

/-- The step reads rows of `api_keys`. -/
def FlightStep.reads : FlightStep → Bool
  | .fetch | .select => true
  | _ => false

/-- `CreateKeyRequest`, with what `generate_api_key` draws. -/
structure NewKey where
  id : String
  keyPrefix : String
  keyHash : String
  projectId : Option String
  scopes : List String
  expiresAt : Option Int
  deriving DecidableEq, Repr

/-- What others do meanwhile. -/
inductive Change where
  /-- `create_key`, for a user who was authorized to. -/
  | create (request : HttpRequest) (user : String) (body : NewKey)
  /-- `revoke_key`, up to its commit. -/
  | revoke (id : String)
  | invalidate (id : Option String)
  | saveSettings (settings : Settings)
  /-- `_purge_project_resources`. -/
  | purge (projectId : String)
  | saveUser (id : String) (user : Account)
  /-- The keys of a user go with it. -/
  | deleteUser (id : String)
  | tick (now : Int)

inductive KeyStep where
  | arrive (flight : Nat) (request : HttpRequest)
  | advance (flight : Nat) (step : FlightStep)
  | change (change : Change)

/-- `_api_key_fingerprint` and `verify_api_key_hash`, with the settings of the process. -/
structure AuthServer where
  lowering : Lowering
  config : Config
  fingerprint : String → String
  verifyHash : String → String → Bool

section
variable (server : AuthServer)

/-- A step of a request, with the phase that it leads to. -/
def Flight.step (flight : Flight) (s : Shared) (step : FlightStep) : Option (Shared × Phase) :=
  match flight.phase, step with
  | .arrived, .lookup =>
      let touched := s.cache.touch (server.fingerprint flight.key)
      some ({ s with cache := touched.2 }, (touched.1.map Phase.cached).getD .missed)
  | .cached id, .fetch =>
      match s.keys.find? fun row => row.id = id with
      | some candidate => some (s, .found candidate)
      | none => some ({ s with cache := s.cache.invalidate (some id) }, .missed)
  | .missed, .select =>
      some (s, .checking (s.keys.filter fun row => row.keyPrefix = String.ofList (flight.key.toList.take 12)))
  | .checking [], .verify => some (s, .refused ⟨401, "", "Invalid API key."⟩)
  | .checking (candidate :: candidates), .verify =>
      some (s, if server.verifyHash flight.key candidate.keyHash then .matched candidate else .checking candidates)
  | .matched candidate, .remember =>
      some ({ s with cache := s.cache.put (server.fingerprint flight.key) candidate.id }, .found candidate)
  | .found candidate, .validate =>
      match validateApiKey server.lowering s.settings s.now flight.request flight.request.begun candidate with
      | .ok state => some (s, .validated { candidate with lastUsedAt := some s.now } state)
      | .error error => some ({ s with
          cache := if error.status = 401 then s.cache.invalidate (some candidate.id) else s.cache }, .refused error)
  | .validated candidate state, .store =>
      if s.keys.any fun row => row.id = candidate.id then
        some ({ s with
          keys := updateRows (fun row => row.id = candidate.id)
            (fun row => { row with lastUsedAt := candidate.lastUsedAt }) s.keys }, .stored candidate state)
      else some (s, .refused ⟨500, "", ""⟩)
  | .stored candidate state, .findOwner =>
      match s.users candidate.createdBy with
      | some user => some (s, .owned candidate { state with actorUserId := some candidate.createdBy } user)
      | none => some ({ s with cache := s.cache.invalidate (some candidate.id) },
          .refused ⟨401, "", "API key owner not found."⟩)
  | .owned candidate state user, .enforceQuotas within =>
      some (s, if within then .authenticated candidate state user else .refused ⟨429, "quota_exceeded", ""⟩)
  | .authenticated candidate state user, .enter guard =>
      match guard.check server.lowering s.settings user flight.request state with
      | .ok state => some (s, .running guard candidate state)
      | .error error => some (s, .refused error)
  | _, _ => none

/-- The row that a new key is stored as; `none` where the request is refused. -/
def NewKey.row (s : Shared) (request : HttpRequest) (user : String) (body : NewKey) : Option ApiKey :=
  let projectId := (getProjectId { RequestState.initial with projectId := some (getProjectId .initial request).text }
    request).text
  if hasProject server.lowering s.settings projectId ∧ (body.projectId = none ∨ body.projectId = some "" ∨
      body.projectId = some projectId) ∧ body.scopes.Nodup ∧ (body.scopes.all fun scope => scope ∈ apiKeyScopes) ∧
      (body.expiresAt.all fun expiry => s.now < expiry) ∧ (s.users user).isSome then
    some ⟨body.id, body.keyPrefix, body.keyHash, projectId, "standard", some body.scopes, user, body.expiresAt, none,
      none⟩
  else none

def Shared.change (s : Shared) : Change → Option Shared
  | .create request user body =>
      if body.id ∈ s.issued then none
      else (body.row server s request user).map fun row =>
        { s with keys := s.keys ++ [row], issued := body.id :: s.issued }
  | .revoke id => some { s with
      keys := updateRows (fun row => row.id = id && row.revokedAt.isNone)
        (fun row => { row with revokedAt := some s.now }) s.keys }
  | .invalidate id => some { s with cache := s.cache.invalidate id }
  | .saveSettings settings => some { s with settings }
  | .purge projectId => some { s with keys := deleteRows (fun row => row.projectId = projectId) s.keys }
  | .saveUser id user => some { s with users := Function.update s.users id (some user) }
  | .deleteUser id => some { s with
      users := Function.update s.users id none
      keys := deleteRows (fun row => row.createdBy = id) s.keys }
  | .tick now => if s.now ≤ now then some { s with now } else none

def KeyWorld.step (w : KeyWorld) : KeyStep → Option KeyWorld
  | .arrive n request =>
      match w.flights n, server.config.credential request with
      | none, .apiKey key => some { w with flights := Function.update w.flights n (some ⟨request, key, .arrived⟩) }
      | _, _ => none
  | .advance n step => do
      let flight ← w.flights n
      let (shared, phase) ← flight.step server w.shared step
      pure ⟨shared, Function.update w.flights n (some { flight with phase })⟩
  | .change change => (w.shared.change server change).map fun shared => { w with shared }

end

end ApiKeys

end YiQiao
