import Mathlib.Data.List.Nodup
import Mathlib.Data.List.Perm.Subperm
import Mathlib.Algebra.Order.Ring.Rat
import Mathlib.Tactic.Tauto
import YiQiao.Lib.Fallible
import YiQiao.Lib.Runs

/-!
# Request quotas

`enforce_request_quotas` of `usage_service.py` counts rows of the request log. The row of a request is written by an
executor after its response, so that the requests on their way are not counted.
-/

namespace YiQiao

open Lib

namespace RequestQuota

/-! ## Policies -/

inductive ScopeKind where
  | organization | project | apiKey | member
  deriving DecidableEq, Repr

inductive Metric where
  | apiRequests | memoryWrites | memorySearches
  deriving DecidableEq, Repr

inductive Period where
  | minute | day | month | total
  deriving DecidableEq, Repr

inductive Mode where
  | monitor | soft | hard
  deriving DecidableEq, Repr

/-- A `QuotaPolicy` on requests. -/
structure Policy where
  scopeType : ScopeKind
  scopeId : String
  projectId : String
  metric : Metric
  period : Period
  limitValue : Nat
  mode : Mode
  warningThreshold : ℚ
  deriving DecidableEq, Repr

/-- A `datetime` in UTC. -/
structure DateTime where
  year : Nat
  month : Nat
  day : Nat
  hour : Nat
  minute : Nat
  second : Nat
  microsecond : Nat
  deriving DecidableEq, Repr

def DateTime.parts (t : DateTime) : List Nat := [t.year, t.month, t.day, t.hour, t.minute, t.second, t.microsecond]

def lexLe : List Nat → List Nat → Bool
  | [], _ => true
  | _ :: _, [] => false
  | m :: ms, n :: ns => m < n || (m = n && lexLe ms ns)

def DateTime.le (t t' : DateTime) : Bool := lexLe t.parts t'.parts

/-- `period_start`. -/
def periodStart (period : Period) (now : DateTime) : Option DateTime :=
  match period with
  | .minute => some { now with second := 0, microsecond := 0 }
  | .day => some { now with hour := 0, minute := 0, second := 0, microsecond := 0 }
  | .month => some { now with day := 1, hour := 0, minute := 0, second := 0, microsecond := 0 }
  | .total => none

/-! ## Requests -/

inductive Operation where
  | memoryWrite | memorySearch | memoryRead | apiRequest
  deriving DecidableEq, Repr

def hasPrefix (start path : String) : Bool := start.toList.isPrefixOf path.toList

/-- `path.rstrip("/") or "/"`. -/
def normalizedPath (path : String) : String :=
  let stripped := String.ofList (path.toList.reverse.dropWhile (· = '/')).reverse
  if stripped = "" then "/" else stripped

/-- `classify_operation`. -/
def classifyOperation (method path : String) : Operation :=
  let method := String.ofList (method.toList.map Char.toUpper)
  let normalized := normalizedPath path
  if method = "POST" ∧ normalized = "/memories/query" then .memoryRead
  else if method ∈ ["POST", "PUT", "PATCH"] ∧
      (normalized = "/memories" ∨ hasPrefix "/memories/" normalized ∨ normalized = "/v3/memories/add") then .memoryWrite
  else if method = "POST" ∧ normalized ∈ ["/search", "/v3/memories/search"] then .memorySearch
  else if method ∈ ["GET", "POST"] ∧ normalized ∈ ["/memories", "/v3/memories"] then .memoryRead
  else .apiRequest

def managementPathPrefixes : List String := ["/usage", "/auth", "/settings", "/api-keys"]

def skippedRequestLogPaths : List String := ["/api/health", "/docs", "/redoc", "/openapi.json"]

def skippedRequestLogPrefixes : List String := ["/requests"]

/-- An authenticated request, with its scopes; the email of its user is in lower case. -/
structure ApiRequest where
  method : String
  path : String
  organizationId : String
  projectId : String
  apiKeyId : Option String
  memberEmail : Option String
  suppressLog : Bool
  deriving DecidableEq, Repr

def ApiRequest.operation (request : ApiRequest) : Operation := classifyOperation request.method request.path

/-- The metrics that a request is checked against. -/
def ApiRequest.metrics (request : ApiRequest) : List Metric :=
  match request.operation with
  | .memoryWrite => [.apiRequests, .memoryWrites]
  | .memorySearch => [.apiRequests, .memorySearches]
  | _ => [.apiRequests]

/-- `_should_log_request`. -/
def ApiRequest.logged (request : ApiRequest) : Bool :=
  request.method ≠ "OPTIONS" && !request.suppressLog && request.path ∉ skippedRequestLogPaths &&
    !skippedRequestLogPrefixes.any fun start => hasPrefix start request.path

def ApiRequest.managed (request : ApiRequest) : Bool :=
  managementPathPrefixes.any fun start => hasPrefix start request.path

/-- `applicable_scope_keys`. -/
def ApiRequest.scopeKeys (request : ApiRequest) : List (ScopeKind × String × String) :=
  [(.organization, request.organizationId, ""), (.project, request.projectId, request.projectId)] ++
    (request.apiKeyId.toList.map fun id => (.apiKey, id, request.projectId)) ++
    request.memberEmail.toList.map fun email => (.member, email, request.projectId)

/-- `applicable_policies`. -/
def Policy.governs (policy : Policy) (request : ApiRequest) : Bool :=
  (policy.scopeType, policy.scopeId, policy.projectId) ∈ request.scopeKeys && policy.metric ∈ request.metrics

/-! ## The log -/

/-- A row of `request_logs`. -/
structure LogRow where
  method : String
  path : String
  statusCode : Nat
  projectId : String
  organizationId : Option String
  apiKeyId : Option String
  actorUserId : Option String
  operation : Operation
  createdAt : DateTime
  /-- The admitted request that the row is about; no column. -/
  request : Option Nat
  deriving DecidableEq, Repr

/-- The accounts by their emails, and the projects of an organization. -/
structure Site where
  userByEmail : String → Option String
  projectsOf : String → List String

variable (site : Site)

/-- `_persist_request_log`. -/
def ApiRequest.row (request : ApiRequest) (id statusCode : Nat) (createdAt : DateTime) : LogRow where
  method := request.method
  path := request.path
  statusCode := statusCode
  projectId := request.projectId
  organizationId := some request.organizationId
  apiKeyId := request.apiKeyId
  actorUserId := request.memberEmail.bind site.userByEmail
  operation := request.operation
  createdAt := createdAt
  request := some id

/-- The user that the request was authenticated for has an account. -/
def ApiRequest.authenticated (request : ApiRequest) : Bool :=
  request.memberEmail.all fun email => (site.userByEmail email).isSome

/-- `policy_log_filters`. -/
def Policy.inScope (policy : Policy) (row : LogRow) : Bool :=
  match policy.scopeType with
  | .organization => row.organizationId = some policy.scopeId ||
      (row.organizationId.isNone && row.projectId ∈ site.projectsOf policy.scopeId)
  | .project => row.projectId = policy.scopeId
  | .apiKey => row.apiKeyId = some policy.scopeId
  | .member => (site.userByEmail policy.scopeId).any (fun id => row.actorUserId = some id) &&
      row.projectId = policy.projectId

def legacyMemoryQueryPaths : List String := ["/memories/query", "/memories/query/"]

/-- `request_log_operation_clause` of the operation of a metric, and that the request succeeded. -/
def Metric.counts (metric : Metric) (row : LogRow) : Bool :=
  match metric with
  | .apiRequests => true
  | .memoryWrites => row.operation = .memoryWrite && !(row.method = "POST" && row.path ∈ legacyMemoryQueryPaths) &&
      decide (row.statusCode < 400)
  | .memorySearches => row.operation = .memorySearch && decide (row.statusCode < 400)

def Policy.counts (policy : Policy) (start : Option DateTime) (row : LogRow) : Bool :=
  policy.inScope site row && start.all (·.le row.createdAt) &&
    policy.metric.counts row

/-- `policy_usage`. -/
def Policy.usage (policy : Policy) (logs : List LogRow) (now : DateTime) : Nat :=
  logs.countP (policy.counts site (periodStart policy.period now))

/-- The status 429, with its header `Retry-After`. -/
structure QuotaExceeded where
  policy : Policy
  retryAfter : Option Nat

/-- A turn of the loop over the policies. -/
def checkPolicy (logs : List LogRow) (now : DateTime) (warnings : List (Metric × Nat × Nat)) (policy : Policy) :
    Except QuotaExceeded (List (Metric × Nat × Nat)) :=
  let used : Nat := policy.usage site logs now
  let projected : Nat := used + 1
  if policy.mode = .hard ∧ policy.limitValue < projected then
    .error ⟨policy, if policy.period = .minute then some 60 else none⟩
  else if policy.mode = .soft ∧ policy.limitValue * policy.warningThreshold ≤ (projected : ℚ) then
    .ok (warnings ++ [(policy.metric, used, policy.limitValue)])
  else .ok warnings

/-- `enforce_request_quotas`: the warnings, if the request is admitted. -/
def enforceRequestQuotas (policies : List Policy) (logs : List LogRow) (request : ApiRequest) (now : DateTime) :
    Except QuotaExceeded (List (Metric × Nat × Nat)) :=
  if request.managed then .ok []
  else (policies.filter (·.governs request)).foldlM (checkPolicy site logs now) []

/-! ## Admission -/

/-- An admitted request; its status is there once it has ended. -/
structure Admitted where
  id : Nat
  request : ApiRequest
  admittedAt : DateTime
  status : Option Nat
  deriving DecidableEq, Repr

structure QuotaWorld where
  logs : List LogRow
  admitted : List Admitted

inductive QuotaStep where
  /-- A request is checked and admitted. -/
  | accept (id : Nat) (request : ApiRequest) (now : DateTime)
  | finish (id status : Nat)
  /-- The row of an ended request is written. -/
  | persist (id : Nat) (createdAt : DateTime)
  /-- A row of a request that was not admitted, or is not checked, is written. -/
  | other (row : LogRow)

/-- The policy is checked for the request and counts it, or is going to. -/
def Policy.countsAdmitted (policy : Policy) (start : Option DateTime) (a : Admitted) : Bool :=
  policy.governs a.request && !a.request.managed && a.request.logged &&
    (policy.metric = .apiRequests || a.status.all (· < 400)) && periodStart policy.period a.admittedAt = start

namespace QuotaWorld

variable (policies : List Policy)

def step (w : QuotaWorld) : QuotaStep → Option QuotaWorld
  | .accept id request now =>
      if id ∈ w.admitted.map Admitted.id ∨ request.authenticated site = false then none
      else match enforceRequestQuotas site policies w.logs request now with
        | .ok _ => some { w with admitted := w.admitted ++ [⟨id, request, now, none⟩] }
        | .error _ => none
  | .finish id status =>
      some { w with admitted := w.admitted.map fun a => if a.id = id ∧ a.status = none then { a with status := some status } else a }
  | .persist id createdAt =>
      match w.admitted.find? fun a => a.id = id with
      | some ⟨_, request, _, some status⟩ =>
          if request.logged ∧ some id ∉ w.logs.map LogRow.request then
            some { w with logs := w.logs ++ [request.row site id status createdAt] }
          else none
      | _ => none
  | .other row => if row.request = none then some { w with logs := w.logs ++ [row] } else none

/-- A request is admitted only once the rows of those before it are there: of every request that a hard policy has
admitted in the period and counts. -/
def Careful (w : QuotaWorld) : QuotaStep → Prop
  | .accept _ request now => ∀ policy ∈ policies, policy.mode = .hard → policy.governs request = true →
      ∀ a ∈ w.admitted, policy.countsAdmitted (periodStart policy.period now) a = true →
        ∃ row ∈ w.logs, row.request = some a.id ∧
          (periodStart policy.period now).all (·.le row.createdAt) = true
  | _ => True

/-! ## Rows of admitted requests -/

variable {site policies} {policy : Policy} {request : ApiRequest} {w w' : QuotaWorld}

theorem governs_iff : policy.governs request = true ↔
    (policy.scopeType, policy.scopeId, policy.projectId) ∈ request.scopeKeys ∧ policy.metric ∈ request.metrics := by
  simp [Policy.governs]

/-- The row of a request is in the scope of the policies that are checked for it. -/
theorem inScope_row {id status : Nat} {createdAt : DateTime}
    (hkeys : (policy.scopeType, policy.scopeId, policy.projectId) ∈ request.scopeKeys)
    (hauth : request.authenticated site = true) : policy.inScope site (request.row site id status createdAt) = true := by
  simp only [ApiRequest.scopeKeys, List.mem_append, List.mem_cons, List.not_mem_nil, or_false, List.mem_map,
    Option.mem_toList, Prod.mk.injEq] at hkeys
  rcases hkeys with ((⟨htype, hid, -⟩ | ⟨htype, hid, -⟩) | ⟨key, hkey, htype, hid, -⟩) | ⟨email, hemail, htype, hid, hproject⟩
  · simp [Policy.inScope, htype, hid, ApiRequest.row]
  · simp [Policy.inScope, htype, hid, ApiRequest.row]
  · simp [Policy.inScope, ← htype, ← hid, ApiRequest.row, hkey]
  · simp only [ApiRequest.authenticated, hemail, Option.all_some] at hauth
    obtain ⟨user, huser⟩ := Option.isSome_iff_exists.mp hauth
    simp [Policy.inScope, ← htype, ← hid, ApiRequest.row, hemail, huser, hproject]

theorem operation_query {path : String} (h : path ∈ legacyMemoryQueryPaths) :
    classifyOperation "POST" path = .memoryRead := by
  simp only [legacyMemoryQueryPaths, List.mem_cons, List.not_mem_nil, or_false] at h
  rcases h with rfl | rfl
  · decide +kernel
  · decide +kernel

theorem metric_counts_row {id status : Nat} {createdAt : DateTime} (hmetric : policy.metric ∈ request.metrics)
    (hstatus : policy.metric = .apiRequests ∨ status < 400) :
    policy.metric.counts (request.row site id status createdAt) = true := by
  have hoperation : policy.metric = .apiRequests ∨
      policy.metric = .memoryWrites ∧ request.operation = .memoryWrite ∨
        policy.metric = .memorySearches ∧ request.operation = .memorySearch := by
    rw [ApiRequest.metrics] at hmetric
    split at hmetric <;> simp_all
  rcases hoperation with hapi | ⟨hwrites, hop⟩ | ⟨hsearches, hop⟩
  · simp [hapi, Metric.counts]
  · have hlow : status < 400 := hstatus.resolve_left (by simp [hwrites])
    have hquery : ¬ (request.method = "POST" ∧ request.path ∈ legacyMemoryQueryPaths) := by
      rintro ⟨hmethod, hpath⟩
      rw [ApiRequest.operation, hmethod, operation_query hpath] at hop
      cases hop
    simp only [hwrites, Metric.counts, ApiRequest.row, hop, hlow, decide_true, Bool.and_true, Bool.true_and]
    simpa only [Bool.not_eq_true', Bool.and_eq_false_iff, decide_eq_false_iff_not, not_and_or] using hquery
  · have hlow : status < 400 := hstatus.resolve_left (by simp [hsearches])
    simp [hsearches, Metric.counts, ApiRequest.row, hop, hlow]

/-- The row of an admitted request counts, if it is dated in the period. -/
theorem counts_row {a : Admitted} {status : Nat} {createdAt : DateTime} {start : Option DateTime}
    (hcounts : policy.countsAdmitted start a = true) (hstatus : a.status = some status)
    (hauth : a.request.authenticated site = true)
    (hstart : start.all (·.le createdAt) = true) :
    policy.counts site start (a.request.row site a.id status createdAt) = true := by
  simp only [Policy.countsAdmitted, Bool.and_eq_true, Bool.or_eq_true, decide_eq_true_eq, hstatus, Option.all_some]
    at hcounts
  obtain ⟨⟨⟨⟨hgoverns, -⟩, -⟩, hlow⟩, -⟩ := hcounts
  obtain ⟨hkeys, hmetric⟩ := governs_iff.mp hgoverns
  rw [Policy.counts, inScope_row hkeys hauth, metric_counts_row hmetric hlow]
  simpa [ApiRequest.row] using hstart

/-! ## The limit -/

/-- Rows are those of ended requests, and no hard policy has admitted more than its limit in a period. -/
structure WithinQuota (site : Site) (policies : List Policy) (w : QuotaWorld) : Prop where
  ids : (w.admitted.map Admitted.id).Nodup
  authenticated : ∀ a ∈ w.admitted, a.request.authenticated site = true
  rows : ∀ row ∈ w.logs, ∀ id, row.request = some id → ∃ a ∈ w.admitted, a.id = id ∧ ∃ status,
    a.status = some status ∧ row = a.request.row site id status row.createdAt
  within : ∀ policy ∈ policies, policy.mode = .hard → ∀ start,
    w.admitted.countP (policy.countsAdmitted start) ≤ policy.limitValue

/-- The usage is no less than what was admitted, where the rows are there. -/
theorem admitted_le_usage {now : DateTime} (h : w.WithinQuota site policies)
    (hrows : ∀ a ∈ w.admitted, policy.countsAdmitted (periodStart policy.period now) a = true →
      ∃ row ∈ w.logs, row.request = some a.id ∧
        (periodStart policy.period now).all (·.le row.createdAt) = true) :
    w.admitted.countP (policy.countsAdmitted (periodStart policy.period now)) ≤ policy.usage site w.logs now := by
  rw [Policy.usage, List.countP_eq_length_filter, List.countP_eq_length_filter]
  have hnodup : ((w.admitted.filter (policy.countsAdmitted (periodStart policy.period now))).map
      fun a => some a.id).Nodup := by
    have hids := h.ids.sublist ((List.filter_sublist (p := policy.countsAdmitted (periodStart policy.period now))).map
      Admitted.id)
    have hsome := hids.map (Option.some_injective Nat)
    rwa [List.map_map] at hsome
  have hsub : ((w.admitted.filter (policy.countsAdmitted (periodStart policy.period now))).map fun a => some a.id) ⊆
      (w.logs.filter (policy.counts site (periodStart policy.period now))).map LogRow.request := by
    intro id hid
    obtain ⟨a, ha, rfl⟩ := List.mem_map.mp hid
    obtain ⟨ha, hcounts⟩ := List.mem_filter.mp ha
    obtain ⟨row, hrow, hrequest, hstart⟩ := hrows a ha hcounts
    obtain ⟨a', ha', hid', status, hstatus, hsame⟩ := h.rows row hrow a.id hrequest
    obtain rfl := List.inj_on_of_nodup_map h.ids ha' ha hid'
    refine List.mem_map.mpr ⟨row, List.mem_filter.mpr ⟨hrow, ?_⟩, hrequest⟩
    rw [hsame]
    exact counts_row hcounts hstatus (h.authenticated a' ha') hstart
  simpa using (hnodup.subperm hsub).length_le

/-- A policy that an admitted request was checked for had room for it. -/
theorem room_of_admitted {logs : List LogRow} {now : DateTime} {warnings : List (Metric × Nat × Nat)}
    (h : enforceRequestQuotas site policies logs request now = .ok warnings) (hmanaged : request.managed = false)
    (hpolicy : policy ∈ policies) (hgoverns : policy.governs request = true) (hhard : policy.mode = .hard) :
    policy.usage site logs now + 1 ≤ policy.limitValue := by
  rw [enforceRequestQuotas, if_neg (by simp [hmanaged])] at h
  have hmem : policy ∈ policies.filter (·.governs request) := List.mem_filter.mpr ⟨hpolicy, hgoverns⟩
  clear hpolicy
  generalize policies.filter (·.governs request) = checked at h hmem
  generalize ([] : List (Metric × Nat × Nat)) = before at h
  induction checked generalizing before with
  | nil => cases hmem
  | cons first checked ih =>
      rw [List.foldlM_cons] at h
      obtain ⟨next, hfirst, h⟩ := Fallible.bind_ok.mp h
      rcases List.mem_cons.mp hmem with rfl | hrest
      · simp only [checkPolicy] at hfirst
        split at hfirst
        · cases hfirst
        · rename_i hroom
          simp only [hhard, true_and, not_lt] at hroom
          exact hroom
      · exact ih hrest _ h

/-- The end of a request. -/
theorem finished_id {id status : Nat} (a : Admitted) :
    (if a.id = id ∧ a.status = none then { a with status := some status } else a).id = a.id := by
  split <;> rfl

theorem finished_request {id status : Nat} (a : Admitted) :
    (if a.id = id ∧ a.status = none then { a with status := some status } else a).request = a.request := by
  split <;> rfl

theorem counts_of_finished {id status : Nat} {a : Admitted} {start : Option DateTime}
    (h : policy.countsAdmitted start (if a.id = id ∧ a.status = none then { a with status := some status } else a) =
      true) : policy.countsAdmitted start a = true := by
  split at h
  · rename_i hopen
    simp only [Policy.countsAdmitted, Bool.and_eq_true, Bool.or_eq_true, decide_eq_true_eq, hopen.2, Option.all_none,
      or_true, and_true] at h ⊢
    exact ⟨h.1.1, h.2⟩
  · exact h

theorem step_within {s : QuotaStep} (h : w.WithinQuota site policies) (hcareful : w.Careful policies s)
    (hstep : w.step site policies s = some w') : w'.WithinQuota site policies := by
  cases s with
  | accept id request now =>
      simp only [step] at hstep
      split at hstep
      · cases hstep
      · rename_i hnew
        simp only [not_or, Bool.not_eq_false] at hnew
        split at hstep <;> cases hstep
        rename_i warnings hadmitted
        refine ⟨?_, ?_, ?_, ?_⟩
        · rw [List.map_append, List.nodup_append_comm]
          exact List.nodup_cons.mpr ⟨hnew.1, h.ids⟩
        · intro a ha
          rcases List.mem_append.mp ha with hold | hlast
          · exact h.authenticated a hold
          · rw [List.mem_singleton.mp hlast]
            exact hnew.2
        · intro row hrow id' hrequest
          obtain ⟨a, ha, hrest⟩ := h.rows row hrow id' hrequest
          exact ⟨a, List.mem_append_left _ ha, hrest⟩
        · intro policy hpolicy hhard start
          rw [List.countP_append, List.countP_singleton]
          split
          · rename_i hcounts
            simp only [Policy.countsAdmitted, Bool.and_eq_true, decide_eq_true_eq, Bool.not_eq_true'] at hcounts
            obtain ⟨⟨⟨⟨hgoverns, hmanaged⟩, -⟩, -⟩, rfl⟩ := hcounts
            have hroom := room_of_admitted hadmitted hmanaged hpolicy hgoverns hhard
            have husage := admitted_le_usage h (hcareful policy hpolicy hhard hgoverns)
            omega
          · simpa using h.within policy hpolicy hhard start
  | finish id status =>
      simp only [step] at hstep
      cases hstep
      refine ⟨?_, ?_, ?_, ?_⟩
      · rw [List.map_map]
        exact (List.map_congr_left fun a _ => finished_id a) ▸ h.ids
      · intro a' ha'
        obtain ⟨a, ha, rfl⟩ := List.mem_map.mp ha'
        rw [finished_request]
        exact h.authenticated a ha
      · intro row hrow id' hrequest
        obtain ⟨a, ha, hid, status', hstatus, hsame⟩ := h.rows row hrow id' hrequest
        refine ⟨a, List.mem_map.mpr ⟨a, ha, ?_⟩, hid, status', hstatus, hsame⟩
        rw [if_neg (by simp [hstatus])]
      · intro policy hpolicy hhard start
        refine le_trans ?_ (h.within policy hpolicy hhard start)
        rw [List.countP_map]
        exact List.countP_mono_left fun a _ hcounts => counts_of_finished hcounts
  | persist id createdAt =>
      simp only [step] at hstep
      split at hstep
      · rename_i id' request admittedAt status hfind
        split at hstep <;> cases hstep
        have hid : id' = id := by simpa using List.find?_some hfind
        refine ⟨h.ids, h.authenticated, fun row hrow other hrequest => ?_, h.within⟩
        rcases List.mem_append.mp hrow with hold | hlast
        · exact h.rows row hold other hrequest
        · rw [List.mem_singleton.mp hlast] at hrequest ⊢
          cases hrequest
          exact ⟨_, List.mem_of_find?_eq_some hfind, hid, status, rfl, rfl⟩
      · cases hstep
  | other row =>
      simp only [step] at hstep
      split at hstep <;> cases hstep
      rename_i hnone
      refine ⟨h.ids, h.authenticated, fun row' hrow id hrequest => ?_, h.within⟩
      rcases List.mem_append.mp hrow with hold | hlast
      · exact h.rows row' hold id hrequest
      · rw [List.mem_singleton.mp hlast, hnone] at hrequest
        cases hrequest

/-- Nobody is admitted yet; rows may be there. -/
structure Opening (w : QuotaWorld) : Prop where
  admitted : w.admitted = []
  rows : ∀ row ∈ w.logs, row.request = none

/-- With careful admissions no hard policy admits more counted requests in a period than its limit. -/
theorem admissions_within_limit {w₀ : QuotaWorld} {steps : List QuotaStep} {period : Option DateTime}
    (h : w₀.Opening) (hcareful : AlongRun (step site policies) (Careful policies) w₀ steps)
    (hrun : runFrom (step site policies) w₀ steps = some w) (hpolicy : policy ∈ policies) (hhard : policy.mode = .hard) :
    w.admitted.countP (policy.countsAdmitted period) ≤ policy.limitValue := by
  have hinit : w₀.WithinQuota site policies := by
    refine ⟨by simp [h.admitted], by simp [h.admitted], fun row hrow id hrequest => ?_, by simp [h.admitted]⟩
    rw [h.rows row hrow] at hrequest
    cases hrequest
  exact (runFrom_keeps (fun _ _ _ => step_within) hinit hcareful hrun).within policy hpolicy hhard period

/-! ## Two searches -/

/-- One search a minute. -/
def oneSearch : Policy := ⟨.project, "p", "p", .memorySearches, .minute, 1, .hard, 4 / 5⟩

def searchRequest : ApiRequest := ⟨"POST", "/search", "org", "p", none, none, false⟩

def noAccounts : Site := ⟨fun _ => none, fun _ => []⟩

def atSecond (second : Nat) : DateTime := ⟨2026, 1, 1, 12, 0, second, 0⟩

def afterSearches (steps : List QuotaStep) : QuotaWorld :=
  (runFrom (step noAccounts [oneSearch]) ⟨[], []⟩ steps).getD ⟨[], []⟩

theorem opening_empty : (⟨[], []⟩ : QuotaWorld).Opening := ⟨rfl, by simp⟩

/-- A search that is over and logged. -/
def oneAfterAnother : List QuotaStep := [.accept 1 searchRequest (atSecond 1), .finish 1 200, .persist 1 (atSecond 2)]

theorem oneAfterAnother_careful :
    AlongRun (step noAccounts [oneSearch]) (Careful [oneSearch]) ⟨[], []⟩ oneAfterAnother := by
  refine .cons ?_ rfl (.cons trivial rfl (.cons trivial rfl trivial))
  intro policy _ _ _ a ha
  cases ha

theorem oneAfterAnother_run :
    runFrom (step noAccounts [oneSearch]) ⟨[], []⟩ oneAfterAnother = some (afterSearches oneAfterAnother) := rfl

theorem one_search_admitted :
    (afterSearches oneAfterAnother).admitted.countP (oneSearch.countsAdmitted (periodStart .minute (atSecond 1))) ≤ 1 :=
  @admissions_within_limit noAccounts [oneSearch] oneSearch (afterSearches oneAfterAnother) _ _ _ opening_empty
    oneAfterAnother_careful oneAfterAnother_run (List.mem_singleton_self _) rfl

/-- The second search is checked while the first one is on its way. -/
def twoAtOnce : List QuotaStep :=
  [.accept 1 searchRequest (atSecond 1), .accept 2 searchRequest (atSecond 2), .finish 1 200, .finish 2 200,
    .persist 1 (atSecond 3), .persist 2 (atSecond 3)]

theorem two_searches_admitted :
    (⟨[], []⟩ : QuotaWorld).Opening ∧
      runFrom (step noAccounts [oneSearch]) ⟨[], []⟩ twoAtOnce = some (afterSearches twoAtOnce) ∧
      oneSearch.limitValue <
        (afterSearches twoAtOnce).admitted.countP (oneSearch.countsAdmitted (periodStart .minute (atSecond 1))) :=
  ⟨opening_empty, rfl, by decide +kernel⟩

end QuotaWorld

end RequestQuota

end YiQiao
