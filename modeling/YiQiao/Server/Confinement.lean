import YiQiao.Server.ApiKeys

/-!
# Keys stay in their project

What a request with a project API key can reach, along every run of requests, revocations and deletions.
-/

namespace YiQiao

open Lib

namespace ApiKeys

/-! ## The rows of a table of keys -/

section

variable {row row' : ApiKey}

theorem ApiKey.id_of_fixed (h : row.fixed = row'.fixed) : row.id = row'.id := by
  injection h

theorem ApiKey.keyHash_of_fixed (h : row.fixed = row'.fixed) : row.keyHash = row'.keyHash := by
  injection h

theorem ApiKey.expiresAt_of_fixed (h : row.fixed = row'.fixed) : row.expiresAt = row'.expiresAt := by
  injection h

theorem ApiKey.projectId_of_fixed (h : row.fixed = row'.fixed) : row.projectId = row'.projectId := by
  injection h

end

/-- Normalizing leaves the id as it is. -/
def Normal (projectId : String) : Prop := (ProjectId.normalize (some projectId)).text = projectId

namespace Shared

structure Sound (s : Shared) : Prop where
  ids : (s.keys.map ApiKey.id).Nodup
  issued : ∀ row ∈ s.keys, row.id ∈ s.issued
  normal : ∀ row ∈ s.keys, Normal row.projectId

/-- Later rows with ids that were drawn are earlier rows. -/
structure Evolves (s s' : Shared) : Prop where
  issued : s.issued ⊆ s'.issued
  keys : ∀ row ∈ s'.keys, row.id ∈ s.issued → ∃ old ∈ s.keys, old.fixed = row.fixed

/-- Nothing is added to the rows. -/
structure Kept (s s' : Shared) : Prop where
  issued : s'.issued = s.issued
  ids : (s'.keys.map ApiKey.id).Sublist (s.keys.map ApiKey.id)
  keys : ∀ row ∈ s'.keys, ∃ old ∈ s.keys, old.fixed = row.fixed

variable {s s' : Shared}

theorem Kept.of_eq (hissued : s'.issued = s.issued) (hkeys : s'.keys = s.keys) : s.Kept s' := by
  constructor
  · exact hissued
  · rw [hkeys]
  · intro row hrow
    rw [hkeys] at hrow
    exact ⟨row, hrow, rfl⟩

theorem Kept.of_update {hit : ApiKey → Bool} {change : ApiKey → ApiKey} (hfixed : ∀ row, (change row).fixed = row.fixed)
    (hissued : s'.issued = s.issued) (hkeys : s'.keys = updateRows hit change s.keys) : s.Kept s' := by
  constructor
  · exact hissued
  · rw [hkeys, updateRows_map]
    exact fun row => ApiKey.id_of_fixed (hfixed row)
  · intro row hrow
    rw [hkeys] at hrow
    rcases mem_updateRows.mp hrow with ⟨hrow, -⟩ | ⟨old, hold, -, rfl⟩
    · exact ⟨row, hrow, rfl⟩
    · exact ⟨old, hold, (hfixed old).symm⟩

theorem Kept.of_delete {hit : ApiKey → Bool} (hissued : s'.issued = s.issued)
    (hkeys : s'.keys = deleteRows hit s.keys) : s.Kept s' := by
  constructor
  · exact hissued
  · rw [hkeys]
    exact List.filter_sublist.map _
  · intro row hrow
    rw [hkeys] at hrow
    exact ⟨row, (mem_deleteRows.mp hrow).1, rfl⟩

theorem Kept.evolves (h : s.Kept s') : s.Evolves s' :=
  ⟨fun id hid => by rwa [h.issued], fun row hrow _ => h.keys row hrow⟩

theorem Kept.sound (h : s.Kept s') (hs : s.Sound) : s'.Sound := by
  constructor
  · exact hs.ids.sublist h.ids
  · intro row hrow
    obtain ⟨old, hold, hfixed⟩ := h.keys row hrow
    rw [h.issued, ← ApiKey.id_of_fixed hfixed]
    exact hs.issued old hold
  · intro row hrow
    obtain ⟨old, hold, hfixed⟩ := h.keys row hrow
    rw [← ApiKey.projectId_of_fixed hfixed]
    exact hs.normal old hold

theorem Sound.unique (h : s.Sound) {row row' : ApiKey} (hrow : row ∈ s.keys) (hrow' : row' ∈ s.keys)
    (hid : row.id = row'.id) : row = row' := List.inj_on_of_nodup_map h.ids hrow hrow' hid

end Shared

section

variable {L : Lowering} {server : AuthServer} {s s' : Shared}

theorem normal_getProjectId (state : RequestState) (request : HttpRequest) :
    Normal (getProjectId state request).text := by
  rw [Normal, getProjectId]
  apply ProjectId.normalize_normalize

theorem create_row {request : HttpRequest} {user : String} {body : NewKey} {row : ApiKey}
    (h : body.row server s request user = some row) : row.id = body.id ∧ Normal row.projectId := by
  rw [NewKey.row] at h
  split_ifs at h
  rw [← Option.some.inj h]
  refine ⟨rfl, ?_⟩
  dsimp only
  apply normal_getProjectId

theorem create_sound {request : HttpRequest} {user : String} {body : NewKey} (hs : s.Sound)
    (h : s.change server (.create request user body) = some s') : s'.Sound ∧ s.Evolves s' := by
  simp only [Shared.change] at h
  split at h
  · cases h
  · rename_i hfresh
    obtain ⟨row, hrow, rfl⟩ := Option.map_eq_some_iff.mp h
    obtain ⟨hid, hnormal⟩ := create_row hrow
    refine ⟨⟨?_, ?_, ?_⟩, ⟨List.subset_cons_self _ _, ?_⟩⟩
    · simp only [List.map_append, List.map_cons, List.map_nil]
      rw [List.nodup_append_comm]
      refine List.nodup_cons.mpr ⟨fun hmem => ?_, hs.ids⟩
      obtain ⟨old, hold, hsame⟩ := List.mem_map.mp hmem
      apply hfresh
      rw [← hid, ← hsame]
      exact hs.issued old hold
    · intro other hother
      rcases List.mem_append.mp hother with hold | hnew
      · exact List.mem_cons_of_mem _ (hs.issued other hold)
      · rw [List.mem_singleton.mp hnew, hid]
        exact List.mem_cons_self
    · intro other hother
      rcases List.mem_append.mp hother with hold | hnew
      · exact hs.normal other hold
      · rw [List.mem_singleton.mp hnew]
        exact hnormal
    · intro other hother hissued
      rcases List.mem_append.mp hother with hold | hnew
      · exact ⟨other, hold, rfl⟩
      · rw [List.mem_singleton.mp hnew, hid] at hissued
        exact absurd hissued hfresh

theorem change_sound {change : Change} (hs : s.Sound) (h : s.change server change = some s') :
    s'.Sound ∧ s.Evolves s' := by
  suffices hkept : (∃ request user body, change = .create request user body) ∨ s.Kept s' by
    rcases hkept with ⟨request, user, body, rfl⟩ | hkept
    · exact create_sound hs h
    · exact ⟨hkept.sound hs, hkept.evolves⟩
  cases change with
  | create request user body => exact .inl ⟨request, user, body, rfl⟩
  | revoke id =>
      cases h
      refine .inr (.of_update ?_ rfl rfl)
      exact fun _ => rfl
  | invalidate id =>
      cases h
      exact .inr (.of_eq rfl rfl)
  | saveSettings settings =>
      cases h
      exact .inr (.of_eq rfl rfl)
  | purge projectId =>
      cases h
      exact .inr (.of_delete rfl rfl)
  | saveUser id user =>
      cases h
      exact .inr (.of_eq rfl rfl)
  | deleteUser id =>
      cases h
      exact .inr (.of_delete rfl rfl)
  | tick now =>
      simp only [Shared.change] at h
      split at h <;> cases h
      exact .inr (.of_eq rfl rfl)

theorem flight_kept {flight : Flight} {step : FlightStep} {phase : Phase}
    (h : flight.step server s step = some (s', phase)) : s.Kept s' := by
  unfold Flight.step at h
  split at h
  · cases h
    exact .of_eq rfl rfl
  · split at h <;> cases h <;> exact .of_eq rfl rfl
  · cases h
    exact .of_eq rfl rfl
  · cases h
    exact .of_eq rfl rfl
  · cases h
    exact .of_eq rfl rfl
  · cases h
    exact .of_eq rfl rfl
  · split at h <;> cases h <;> exact .of_eq rfl rfl
  · split at h <;> cases h
    · refine .of_update ?_ rfl rfl
      exact fun _ => rfl
    · exact .of_eq rfl rfl
  · split at h <;> cases h <;> exact .of_eq rfl rfl
  · cases h
    exact .of_eq rfl rfl
  · split at h <;> cases h <;> exact .of_eq rfl rfl
  · cases h

/-! ## Checks that are passed -/

/-- The row is neither revoked nor expired, and its project exists. -/
theorem validateApiKey_ok {settings : Settings} {now : Int} {request : HttpRequest} {state state' : RequestState}
    {candidate : ApiKey} (h : validateApiKey L settings now request state candidate = .ok state') :
    candidate.revokedAt = none ∧ (∀ expiry, candidate.expiresAt = some expiry → now < expiry) ∧
      hasProject L settings candidate.projectId = true ∧ state'.projectId = some candidate.projectId ∧
      state'.authType = state.authType ∧ state'.apiKeyScopes = some candidate.scopes := by
  unfold validateApiKey at h
  split_ifs at h with htype hrevoked hexpired hproject hmismatch
  cases h
  refine ⟨by simpa using hrevoked, fun expiry hexpiry => ?_, by simpa using hproject, rfl, rfl, rfl⟩
  simpa [hexpiry] using hexpired

theorem enforceApiKeyScope_ok {state : RequestState} {write : Bool} {scopes : List String}
    (h : enforceApiKeyScope state write = .ok ()) (hauth : state.authType = .apiKey)
    (hscopes : state.apiKeyScopes = some (some scopes)) :
    (if write then memoryWriteScope else memoryReadScope) ∈ scopes := by
  simp only [enforceApiKeyScope, hauth, hscopes, ne_eq, not_true_eq_false, if_false] at h
  by_cases hmem : (if write then memoryWriteScope else memoryReadScope) ∈ scopes
  · exact hmem
  · rw [if_neg hmem] at h
    cases h

/-- A guard lets a state pass as it is, but for the project of a webhook. -/
theorem Guard.check_ok {settings : Settings} {user : Account} {request : HttpRequest} {state state' : RequestState}
    {guard : Guard} (h : guard.check L settings user request state = .ok state') :
    enforceApiKeyScope state guard.writes = .ok () ∧ state'.authType = state.authType ∧
      state'.apiKeyScopes = state.apiKeyScopes ∧
      (state.authType = .apiKey → state'.projectId = state.projectId ∨
        state'.projectId = some (getProjectId state request).text) := by
  unfold Guard.check at h
  cases henforce : enforceApiKeyScope state guard.writes with
  | error e =>
      rw [henforce] at h
      cases h
  | ok u =>
      rw [henforce] at h
      refine ⟨rfl, ?_⟩
      cases guard with
      | webhook projectId =>
          simp only [bind, Except.bind] at h
          split at h
          · cases h
          · rename_i hsame
            cases h
            refine ⟨rfl, rfl, fun hauth => .inr ?_⟩
            simp only [hauth, true_and, ne_eq, not_not] at hsame
            rw [hsame]
      | read =>
          simp only [bind, Except.bind, Guard.writes] at h
          split_ifs at h <;> cases h <;> exact ⟨rfl, rfl, fun _ => .inl rfl⟩
      | write =>
          simp only [bind, Except.bind, Guard.writes] at h
          split_ifs at h <;> cases h <;> exact ⟨rfl, rfl, fun _ => .inl rfl⟩

/-- The state of a request that is bound to the project of a row. -/
structure Bound (candidate : ApiKey) (state : RequestState) : Prop where
  project : state.projectId = some candidate.projectId
  auth : state.authType = .apiKey
  scopes : state.apiKeyScopes = some candidate.scopes

theorem Bound.getProjectId {candidate : ApiKey} {state : RequestState} (h : Bound candidate state)
    (hnormal : Normal candidate.projectId) (request : HttpRequest) :
    (getProjectId state request).text = candidate.projectId := by
  have hne : candidate.projectId ≠ "" := by
    rw [← hnormal]
    intro hempty
    apply (ProjectId.normalize (some candidate.projectId)).nonempty
    simp [hempty]
  rw [ApiKeys.getProjectId, h.project, orText, if_neg, orText, if_neg]
  · exact hnormal
  · simpa using hne
  · simp [orText, hne]

/-! ## The cache -/

/-- The hash of the row verifies a key with the fingerprint. -/
def AuthServer.Verifies (server : AuthServer) (print : String) (row : ApiKey) : Prop :=
  ∃ key, server.fingerprint key = print ∧ server.verifyHash key row.keyHash = true

theorem AuthServer.Verifies.of_fixed {print : String} {row row' : ApiKey} (h : server.Verifies print row)
    (hfixed : row.fixed = row'.fixed) : server.Verifies print row' := by
  obtain ⟨key, hprint, hverify⟩ := h
  exact ⟨key, hprint, ApiKey.keyHash_of_fixed hfixed ▸ hverify⟩

variable (server) in
/-- The entry names a row whose hash verifies a key with the fingerprint. -/
def Shared.Vouches (s : Shared) (print id : String) : Prop :=
  id ∈ s.issued ∧ ∀ row ∈ s.keys, row.id = id → server.Verifies print row

variable (server) in
/-- Every entry was verified. -/
def Shared.Verified (s : Shared) : Prop := ∀ entry ∈ s.cache, s.Vouches server entry.1 entry.2

theorem Shared.Vouches.mono {print id : String} (h : s.Vouches server print id) (hs : s.Evolves s') :
    s'.Vouches server print id := by
  refine ⟨hs.issued h.1, fun row hrow hid => ?_⟩
  obtain ⟨old, hold, hfixed⟩ := hs.keys row hrow (hid ▸ h.1)
  exact (h.2 old hold ((ApiKey.id_of_fixed hfixed).trans hid)).of_fixed hfixed

theorem mem_touch {cache : KeyCache} {print : String} {entry : String × String} (h : entry ∈ (cache.touch print).2) :
    entry ∈ cache := by
  unfold KeyCache.touch at h
  split at h
  · rename_i id hlookup
    rcases List.mem_append.mp h with h | h
    · exact (List.mem_filter.mp h).1
    · rw [List.mem_singleton.mp h]
      exact Dict.mem_of_lookup hlookup
  · exact h

theorem touch_some {cache : KeyCache} {print id : String} (h : (cache.touch print).1 = some id) :
    (print, id) ∈ cache := by
  unfold KeyCache.touch at h
  split at h <;> cases h
  rename_i hlookup
  exact Dict.mem_of_lookup hlookup

theorem mem_invalidate {cache : KeyCache} {id : Option String} {entry : String × String}
    (h : entry ∈ cache.invalidate id) : entry ∈ cache := by
  cases id with
  | none => cases h
  | some id => exact (List.mem_filter.mp h).1

theorem mem_put {cache : KeyCache} {print id : String} {entry : String × String} (h : entry ∈ cache.put print id) :
    entry ∈ cache ∨ entry = (print, id) := by
  rcases List.mem_append.mp (List.mem_of_mem_drop h) with h | h
  · exact .inl (List.mem_filter.mp h).1
  · exact .inr (List.mem_singleton.mp h)

end

/-! ## Requests on their way -/

section

variable (server : AuthServer) (start : KeyWorld) (n : Nat)

/-- A step of the request read the row, as it was in the table. -/
def WasRead (steps : List KeyStep) (candidate : ApiKey) : Prop :=
  Happened (KeyWorld.step server) start steps (fun e => ∃ step, e = .advance n step ∧ step.reads = true) fun mid =>
    (∃ row ∈ mid.shared.keys, row.fixed = candidate.fixed) ∧
      ∀ row ∈ mid.shared.keys, row.id = candidate.id → row.revokedAt = candidate.revokedAt

/-- When the request was validated, the key had not expired, and its project existed. -/
def WasLive (steps : List KeyStep) (candidate : ApiKey) : Prop :=
  Happened (KeyWorld.step server) start steps (· = .advance n .validate) fun mid =>
    (∀ expiry, candidate.expiresAt = some expiry → mid.shared.now < expiry) ∧
      hasProject server.lowering mid.shared.settings candidate.projectId = true ∧
      ∀ row ∈ mid.shared.keys, row.id = candidate.id → row.fixed = candidate.fixed

/-- What is known of a row that a request holds. -/
structure Held (steps : List KeyStep) (s : Shared) (candidate : ApiKey) : Prop where
  normal : Normal candidate.projectId
  issued : candidate.id ∈ s.issued
  fixed : ∀ row ∈ s.keys, row.id = candidate.id → row.fixed = candidate.fixed
  read : WasRead server start n steps candidate

/-- The row that a request is resolved to. -/
structure Resolved (steps : List KeyStep) (s : Shared) (key : String) (candidate : ApiKey) : Prop
    extends Held server start n steps s candidate where
  verified : start.shared.Verified server → server.Verifies (server.fingerprint key) candidate

/-- The row that a request is validated with. -/
structure Valid (steps : List KeyStep) (s : Shared) (key : String) (candidate : ApiKey) (state : RequestState) : Prop
    extends Resolved server start n steps s key candidate, Bound candidate state where
  unrevoked : candidate.revokedAt = none
  live : WasLive server start n steps candidate

/-- What every request keeps. -/
def PhaseOk (steps : List KeyStep) (s : Shared) (key : String) : Phase → Prop
  | .arrived | .missed | .refused _ => True
  | .cached id => start.shared.Verified server → s.Vouches server (server.fingerprint key) id
  | .checking candidates => ∀ candidate ∈ candidates, Held server start n steps s candidate
  | .matched candidate | .found candidate => Resolved server start n steps s key candidate
  | .validated candidate state | .stored candidate state | .owned candidate state _ | .authenticated candidate state _ =>
      Valid server start n steps s key candidate state
  | .running guard candidate state => Valid server start n steps s key candidate state ∧
      ∀ scopes, candidate.scopes = some scopes → guard.requiredScope ∈ scopes

end

section

variable {server : AuthServer} {start w w' : KeyWorld} {n : Nat} {steps : List KeyStep} {e : KeyStep} {s s' : Shared}
  {key : String} {candidate : ApiKey} {state : RequestState} {phase : Phase}

theorem Held.mono (h : Held server start n steps s candidate) (hs : s.Evolves s') :
    Held server start n (steps ++ [e]) s' candidate := by
  refine ⟨h.normal, hs.issued h.issued, fun row hrow hid => ?_, h.read.snoc⟩
  obtain ⟨old, hold, hfixed⟩ := hs.keys row hrow (hid ▸ h.issued)
  rw [← hfixed]
  exact h.fixed old hold ((ApiKey.id_of_fixed hfixed).trans hid)

theorem Resolved.mono (h : Resolved server start n steps s key candidate) (hs : s.Evolves s') :
    Resolved server start n (steps ++ [e]) s' key candidate :=
  ⟨h.toHeld.mono hs, h.verified⟩

theorem Valid.mono (h : Valid server start n steps s key candidate state) (hs : s.Evolves s') :
    Valid server start n (steps ++ [e]) s' key candidate state :=
  ⟨h.toResolved.mono hs, h.toBound, h.unrevoked, h.live.snoc⟩

theorem PhaseOk.mono (h : PhaseOk server start n steps s key phase) (hs : s.Evolves s') :
    PhaseOk server start n (steps ++ [e]) s' key phase := by
  cases phase with
  | arrived => trivial
  | missed => trivial
  | refused error => trivial
  | cached id => exact fun hverified => (h hverified).mono hs
  | checking candidates => exact fun candidate hmem => (h candidate hmem).mono hs
  | matched candidate => exact Resolved.mono h hs
  | found candidate => exact Resolved.mono h hs
  | validated candidate state => exact Valid.mono h hs
  | stored candidate state => exact Valid.mono h hs
  | owned candidate state user => exact Valid.mono h hs
  | authenticated candidate state user => exact Valid.mono h hs
  | running guard candidate state => exact ⟨Valid.mono h.1 hs, h.2⟩

/-- A row of the table, when a step of the request reads it. -/
theorem held_of_read {step : FlightStep} (hrun : runFrom (KeyWorld.step server) start steps = some w)
    (hs : w.shared.Sound) (hreads : step.reads = true) (hmem : candidate ∈ w.shared.keys) (hsame : s'.keys = w.shared.keys)
    (hissued : s'.issued = w.shared.issued) : Held server start n (steps ++ [.advance n step]) s' candidate := by
  constructor
  · exact hs.normal candidate hmem
  · rw [hissued]
    exact hs.issued candidate hmem
  · intro row hrow hid
    rw [hsame] at hrow
    rw [hs.unique hrow hmem hid]
  · refine .last hrun ⟨step, rfl, hreads⟩ ⟨⟨candidate, hmem, rfl⟩, fun row hrow hid => ?_⟩
    rw [hs.unique hrow hmem hid]

/-- What the steps of a request do to its phase. -/
theorem flight_phaseOk {flight : Flight} {step : FlightStep} (hrun : runFrom (KeyWorld.step server) start steps = some w)
    (hs : w.shared.Sound) (hcache : start.shared.Verified server → w.shared.Verified server)
    (h : PhaseOk server start n steps w.shared flight.key flight.phase)
    (hstep : flight.step server w.shared step = some (s', phase)) :
    PhaseOk server start n (steps ++ [.advance n step]) s' flight.key phase := by
  have hkept := (flight_kept hstep).evolves
  unfold Flight.step at hstep
  split at hstep
  · cases hstep
    cases hid : (w.shared.cache.touch (server.fingerprint flight.key)).1 with
    | none => simp [PhaseOk]
    | some id =>
        simp only [Option.map_some, Option.getD_some]
        intro hverified
        exact (hcache hverified _ (touch_some hid)).mono hkept
  · rename_i id hphase
    rw [hphase] at h
    split at hstep
    · rename_i candidate hfind
      cases hstep
      have hmem := List.mem_of_find?_eq_some hfind
      refine ⟨held_of_read hrun hs rfl hmem rfl rfl, fun hverified => ?_⟩
      exact (h hverified).2 candidate hmem (by simpa using List.find?_some hfind)
    · cases hstep
      trivial
  · cases hstep
    exact fun candidate hmem => held_of_read hrun hs rfl (List.mem_filter.mp hmem).1 rfl rfl
  · cases hstep
    trivial
  · rename_i candidate candidates hphase
    rw [hphase] at h
    cases hstep
    split
    · rename_i hverify
      exact ⟨(h candidate List.mem_cons_self).mono hkept, fun _ => ⟨flight.key, rfl, hverify⟩⟩
    · exact fun other hmem => (h other (List.mem_cons_of_mem _ hmem)).mono hkept
  · rename_i candidate hphase
    rw [hphase] at h
    cases hstep
    exact Resolved.mono h hkept
  · rename_i candidate hphase
    rw [hphase] at h
    split at hstep
    · rename_i state hvalid
      cases hstep
      obtain ⟨hunrevoked, hlive, hproject, hbound, hauth, hscopes⟩ := validateApiKey_ok hvalid
      have hresolved := Resolved.mono (e := .advance n .validate) h hkept
      refine ⟨⟨⟨hresolved.normal, hresolved.issued, hresolved.fixed, hresolved.read⟩, hresolved.verified⟩,
        ⟨hbound, hauth, hscopes⟩, hunrevoked, ?_⟩
      exact .last hrun rfl ⟨hlive, hproject, hresolved.fixed⟩
    · cases hstep
      trivial
  · rename_i candidate state hphase
    rw [hphase] at h
    split at hstep
    · cases hstep
      exact Valid.mono h hkept
    · cases hstep
      trivial
  · rename_i candidate state hphase
    rw [hphase] at h
    split at hstep
    · cases hstep
      have hvalid := Valid.mono (e := .advance n .findOwner) h hkept
      exact ⟨hvalid.toResolved, ⟨hvalid.project, hvalid.auth, hvalid.scopes⟩, hvalid.unrevoked, hvalid.live⟩
    · cases hstep
      trivial
  · rename_i candidate state user within hphase
    rw [hphase] at h
    cases hstep
    cases within with
    | true => exact Valid.mono h hkept
    | false => trivial
  · rename_i candidate state user guard hphase
    rw [hphase] at h
    split at hstep
    · rename_i state' hcheck
      cases hstep
      have hvalid := Valid.mono (e := .advance n (.enter guard)) h hkept
      obtain ⟨henforce, hauth, hscopes, hproject⟩ := Guard.check_ok hcheck
      refine ⟨⟨hvalid.toResolved, ⟨?_, hauth.trans hvalid.auth, hscopes.trans hvalid.scopes⟩, hvalid.unrevoked,
        hvalid.live⟩, fun scopes hsome => ?_⟩
      · rcases hproject hvalid.auth with hsame | hsame
        · exact hsame.trans hvalid.project
        · rw [hsame, hvalid.toBound.getProjectId hvalid.normal]
      · exact enforceApiKeyScope_ok henforce hvalid.auth (hvalid.scopes.trans (congrArg some hsome))
    · cases hstep
      trivial
  · cases hstep

/-- What the steps of a request put into the cache. -/
theorem flight_verified {flight : Flight} {step : FlightStep} (hcache : w.shared.Verified server)
    (hstart : start.shared.Verified server) (h : PhaseOk server start n steps w.shared flight.key flight.phase)
    (hstep : flight.step server w.shared step = some (s', phase)) : s'.Verified server := by
  have hkept := (flight_kept hstep).evolves
  suffices hentries : ∀ entry ∈ s'.cache, entry ∈ w.shared.cache ∨ w.shared.Vouches server entry.1 entry.2 by
    intro entry hentry
    rcases hentries entry hentry with hold | hnew
    · exact (hcache entry hold).mono hkept
    · exact hnew.mono hkept
  intro entry hentry
  unfold Flight.step at hstep
  split at hstep
  · cases hstep
    exact .inl (mem_touch hentry)
  · split at hstep <;> cases hstep
    · exact .inl hentry
    · dsimp only at hentry
      exact .inl (mem_invalidate hentry)
  · cases hstep
    exact .inl hentry
  · cases hstep
    exact .inl hentry
  · cases hstep
    exact .inl hentry
  · rename_i candidate hphase
    rw [hphase] at h
    cases hstep
    dsimp only at hentry
    have hresolved : Resolved server start n steps w.shared flight.key candidate := h
    rcases mem_put hentry with hold | rfl
    · exact .inl hold
    · exact .inr ⟨hresolved.issued,
        fun row hrow hid => (hresolved.verified hstart).of_fixed (hresolved.fixed row hrow hid).symm⟩
  · split at hstep <;> cases hstep
    · exact .inl hentry
    · dsimp only at hentry
      split at hentry
      · exact .inl (mem_invalidate hentry)
      · exact .inl hentry
  · split at hstep <;> cases hstep <;> exact .inl hentry
  · split at hstep <;> cases hstep
    · exact .inl hentry
    · dsimp only at hentry
      exact .inl (mem_invalidate hentry)
  · cases hstep
    exact .inl hentry
  · split at hstep <;> cases hstep <;> exact .inl hentry
  · cases hstep

theorem change_verified {change : Change} (hcache : s.Verified server) (hs : s.Evolves s')
    (h : s.change server change = some s') : s'.Verified server := by
  suffices hentries : ∀ entry ∈ s'.cache, entry ∈ s.cache from
    fun entry hentry => (hcache entry (hentries entry hentry)).mono hs
  intro entry hentry
  cases change with
  | create request user body =>
      simp only [Shared.change] at h
      split at h
      · cases h
      · obtain ⟨row, -, rfl⟩ := Option.map_eq_some_iff.mp h
        exact hentry
  | revoke id =>
      cases h
      exact hentry
  | invalidate id =>
      cases h
      exact mem_invalidate hentry
  | saveSettings settings =>
      cases h
      exact hentry
  | purge projectId =>
      cases h
      exact hentry
  | saveUser id user =>
      cases h
      exact hentry
  | deleteUser id =>
      cases h
      exact hentry
  | tick now =>
      simp only [Shared.change] at h
      split at h <;> cases h
      exact hentry

/-! ## Runs -/

variable (server) in
/-- What holds after every run. -/
structure History (start : KeyWorld) (steps : List KeyStep) (w : KeyWorld) : Prop where
  sound : w.shared.Sound
  verified : start.shared.Verified server → w.shared.Verified server
  phases : ∀ n flight, w.flights n = some flight → PhaseOk server start n steps w.shared flight.key flight.phase

theorem history_step (hrun : runFrom (KeyWorld.step server) start steps = some w) (h : History server start steps w)
    (hstep : w.step server e = some w') : History server start (steps ++ [e]) w' := by
  cases e with
  | arrive n request =>
      simp only [KeyWorld.step] at hstep
      split at hstep <;> cases hstep
      refine ⟨h.sound, h.verified, fun m flight hflight => ?_⟩
      by_cases hsame : m = n
      · subst hsame
        simp only [Function.update_self, Option.some.injEq] at hflight
        rw [← hflight]
        trivial
      · simp only [ne_eq, hsame, not_false_eq_true, Function.update_of_ne] at hflight
        exact (h.phases m flight hflight).mono ⟨List.Subset.refl _, fun row hrow _ => ⟨row, hrow, rfl⟩⟩
  | advance n step =>
      simp only [KeyWorld.step, bind, Option.bind_eq_some_iff] at hstep
      obtain ⟨flight, hflight, ⟨shared, phase⟩, hnext, hw⟩ := hstep
      cases hw
      have hok := h.phases n flight hflight
      have hkept := flight_kept hnext
      refine ⟨hkept.sound h.sound, fun hstart => flight_verified (h.verified hstart) hstart hok hnext,
        fun m other hother => ?_⟩
      by_cases hsame : m = n
      · subst hsame
        simp only [Function.update_self, Option.some.injEq] at hother
        rw [← hother]
        have hnew := flight_phaseOk hrun h.sound h.verified hok hnext
        exact hnew
      · simp only [ne_eq, hsame, not_false_eq_true, Function.update_of_ne] at hother
        exact (h.phases m other hother).mono hkept.evolves
  | change change =>
      obtain ⟨shared, hchange, rfl⟩ := Option.map_eq_some_iff.mp hstep
      obtain ⟨hsound, hevolves⟩ := change_sound h.sound hchange
      exact ⟨hsound, fun hstart => change_verified (h.verified hstart) hevolves hchange,
        fun m flight hflight => (h.phases m flight hflight).mono hevolves⟩

/-- No request has come yet; the cache may hold anything. -/
structure KeyWorld.Started (w : KeyWorld) : Prop where
  sound : w.shared.Sound
  flights : ∀ n, w.flights n = none

theorem run_history (hstart : start.Started) (hrun : runFrom (KeyWorld.step server) start steps = some w) :
    History server start steps w := by
  refine runFrom_history ⟨hstart.sound, id, fun n flight hflight => ?_⟩
    (fun pre s₁ e s₂ hpre hs hstep => history_step hpre hs hstep) hrun
  rw [hstart.flights n] at hflight
  cases hflight

/-- The row and the state of a request that was let in. -/
def Phase.admitted : Phase → Option (ApiKey × RequestState)
  | .authenticated candidate state _ | .running _ candidate state => some (candidate, state)
  | _ => none

theorem PhaseOk.admitted (h : PhaseOk server start n steps s key phase)
    (hphase : phase.admitted = some (candidate, state)) : Valid server start n steps s key candidate state := by
  cases phase with
  | authenticated candidate' state' user =>
      cases hphase
      exact h
  | running guard candidate' state' =>
      cases hphase
      exact h.1
  | _ => cases hphase

/-- A request that is let in runs in the project of its key, which was not revoked when it was read, had not expired
when it was validated, and has the scope of the guard, if it has scopes. -/
theorem api_key_confined (hstart : start.Started) (hrun : runFrom (KeyWorld.step server) start steps = some w)
    {flight : Flight} (hflight : w.flights n = some flight) (hphase : flight.phase.admitted = some (candidate, state)) :
    (getProjectId state flight.request).text = candidate.projectId ∧
      (start.shared.Verified server → server.Verifies (server.fingerprint flight.key) candidate) ∧
      Happened (KeyWorld.step server) start steps (fun e => e = .advance n .fetch ∨ e = .advance n .select) (fun mid =>
        (∃ row ∈ mid.shared.keys, row.fixed = candidate.fixed) ∧
          ∀ row ∈ mid.shared.keys, row.id = candidate.id → row.revokedAt = none) ∧
      Happened (KeyWorld.step server) start steps (· = .advance n .validate) (fun mid =>
        hasProject server.lowering mid.shared.settings candidate.projectId = true ∧
          ∀ row ∈ mid.shared.keys, row.id = candidate.id → ∀ expiry, row.expiresAt = some expiry →
            mid.shared.now < expiry) ∧
      ∀ guard, flight.phase = .running guard candidate state → ∀ scopes, candidate.scopes = some scopes →
        guard.requiredScope ∈ scopes := by
  have hok := (run_history hstart hrun).phases n flight hflight
  have hvalid := hok.admitted hphase
  refine ⟨hvalid.toBound.getProjectId hvalid.normal _, hvalid.verified, ?_, ?_, fun guard hrunning => ?_⟩
  · obtain ⟨pre, e, post, mid, hsteps, ⟨step, rfl, hreads⟩, hmid, hrow, hrows⟩ := hvalid.read
    refine ⟨pre, _, post, mid, hsteps, ?_, hmid, hrow, fun row hmem hid => ?_⟩
    · cases step with
      | fetch => exact .inl rfl
      | select => exact .inr rfl
      | _ => cases hreads
    · rw [hrows row hmem hid, hvalid.unrevoked]
  · apply hvalid.live.mono
    intro mid hmid
    refine ⟨hmid.2.1, fun row hmem hid expiry hexpiry => hmid.1 expiry ?_⟩
    rw [← ApiKey.expiresAt_of_fixed (hmid.2.2 row hmem hid)]
    exact hexpiry
  · rw [hrunning] at hok
    exact hok.2

end

/-! ## A key without scopes, and a key that is revoked meanwhile -/

def plainServer : AuthServer := ⟨Lowering.ascii, ⟨"", false⟩, id, fun key hash => key = hash⟩

def issuedKey (scopes : Option (List String)) : ApiKey :=
  ⟨"k1", "yqsk_0", "yqsk_0", defaultProjectId, "standard", scopes, "u1", none, none, none⟩

def worldWith (scopes : Option (List String)) : KeyWorld where
  shared := {
    keys := [issuedKey scopes]
    issued := ["k1"]
    cache := []
    settings := ⟨none, [], none, [], []⟩
    users := fun _ => some ⟨"owner@example.com", false⟩
    now := 0 }
  flights := fun _ => none

def keyRequest : HttpRequest := ⟨none, none, "", none, some "yqsk_0"⟩

/-- The steps of one request up to the validation, and those after it. -/
def resolveSteps : List KeyStep :=
  .arrive 0 keyRequest :: [.lookup, .select, .verify, .remember].map (.advance 0)

def admitSteps (guard : Guard) : List KeyStep :=
  [.validate, .store, .findOwner, .enforceQuotas true, .enter guard].map (.advance 0)

def usedKey (scopes : Option (List String)) : ApiKey := { issuedKey scopes with lastUsedAt := some 0 }

def boundState (scopes : Option (List String)) : RequestState :=
  ⟨some defaultProjectId, .apiKey, some "k1", some "standard", some scopes, some "u1"⟩

def phaseAfter (w : KeyWorld) (steps : List KeyStep) : Option Phase :=
  (runFrom (KeyWorld.step plainServer) w steps).bind fun w => (w.flights 0).map Flight.phase

theorem phaseAfter_some {w : KeyWorld} {steps : List KeyStep} {phase : Phase} (h : phaseAfter w steps = some phase) :
    ∃ w' flight, runFrom (KeyWorld.step plainServer) w steps = some w' ∧ w'.flights 0 = some flight ∧
      flight.phase = phase := by
  obtain ⟨w', hrun, hphase⟩ := Option.bind_eq_some_iff.mp h
  obtain ⟨flight, hflight, hphase⟩ := Option.map_eq_some_iff.mp hphase
  exact ⟨w', flight, hrun, hflight, hphase⟩

theorem default_normal : Normal defaultProjectId := by
  rw [Normal]
  decide +kernel

theorem worldWith_started (scopes : Option (List String)) : (worldWith scopes).Started := by
  refine ⟨⟨List.nodup_singleton _, fun row hrow => ?_, fun row hrow => ?_⟩, fun _ => rfl⟩
  · rw [List.mem_singleton.mp hrow]
    exact List.mem_cons_self
  · rw [List.mem_singleton.mp hrow]
    exact default_normal

theorem scoped_key_confined : ∃ w flight,
    runFrom (KeyWorld.step plainServer) (worldWith (some [memoryWriteScope])) (resolveSteps ++ admitSteps .write) =
      some w ∧ w.flights 0 = some flight ∧
      (getProjectId (boundState (some [memoryWriteScope])) flight.request).text = "default-project" ∧
      plainServer.Verifies flight.key (usedKey (some [memoryWriteScope])) ∧
      memoryWriteScope ∈ [memoryWriteScope] := by
  obtain ⟨w, flight, hrun, hflight, hphase⟩ := @phaseAfter_some (worldWith (some [memoryWriteScope]))
    (resolveSteps ++ admitSteps .write) (.running .write (usedKey _) (boundState _)) rfl
  obtain ⟨hproject, hverified, -, -, hscopes⟩ := api_key_confined (worldWith_started _) hrun hflight
    (show flight.phase.admitted = some _ by rw [hphase]; rfl)
  exact ⟨w, flight, hrun, hflight, hproject, hverified (fun _ h => by cases h), hscopes .write hphase _ rfl⟩

/-- A key without a list of scopes may write, and a key is let in that is revoked when it is validated. -/
theorem confinement_leaks :
    (∃ w flight candidate state, runFrom (KeyWorld.step plainServer) (worldWith none) (resolveSteps ++ admitSteps .write) =
      some w ∧ w.flights 0 = some flight ∧ flight.phase = .running .write candidate state ∧
      ¬ ∃ scopes, candidate.scopes = some scopes ∧ memoryWriteScope ∈ scopes) ∧
    ∃ steps w flight candidate state,
      runFrom (KeyWorld.step plainServer) (worldWith (some [memoryWriteScope])) steps = some w ∧
      w.flights 0 = some flight ∧ flight.phase.admitted = some (candidate, state) ∧
      Happened (KeyWorld.step plainServer) (worldWith (some [memoryWriteScope])) steps (· = .advance 0 .validate) fun mid =>
        ∃ row ∈ mid.shared.keys, row.id = candidate.id ∧ row.revokedAt ≠ none := by
  constructor
  · obtain ⟨w, flight, hrun, hflight, hphase⟩ := @phaseAfter_some (worldWith none) (resolveSteps ++ admitSteps .write)
      (.running .write (usedKey none) (boundState none)) rfl
    refine ⟨w, flight, usedKey none, boundState none, hrun, hflight, hphase, ?_⟩
    rintro ⟨scopes, hscopes, -⟩
    cases hscopes
  · obtain ⟨w, flight, hrun, hflight, hphase⟩ := @phaseAfter_some (worldWith (some [memoryWriteScope]))
      (resolveSteps ++ .change (.revoke "k1") :: admitSteps .write) (.running .write (usedKey _) (boundState _)) rfl
    refine ⟨_, w, flight, _, _, hrun, hflight, by rw [hphase]; rfl, ?_⟩
    obtain ⟨mid, hmid, hrow⟩ := Option.bind_eq_some_iff.mp (show ((runFrom (KeyWorld.step plainServer)
      (worldWith (some [memoryWriteScope])) (resolveSteps ++ [.change (.revoke "k1")])).bind fun mid =>
        mid.shared.keys.head?) = some { issuedKey (some [memoryWriteScope]) with revokedAt := some 0 } from rfl)
    exact ⟨resolveSteps ++ [.change (.revoke "k1")], _, _, mid, rfl, rfl, hmid, _, List.mem_of_head? hrow, rfl,
      Option.some_ne_none _⟩

end ApiKeys

end YiQiao
