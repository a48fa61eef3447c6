import YiQiao.Filter.Process
import YiQiao.Memory.Write

/-!
# Scopes

An `add` runs in the scope of its identifiers. `_build_filters_and_metadata` puts them into the
metadata that is stored with a memory and into the filters its duplicates are looked up with.
-/

namespace YiQiao

open Lib Filters

variable {V S : Type}

/-- `_SESSION_SCOPE_KEYS`. -/
def sessionScopeKeys : List String := ["agent_id", "app_id", "project_id", "run_id", "user_id"]

/-- The trimmed identifiers of a request, in the order in which they are assigned. -/
abbrev ScopeIds := List (String × String)

/-- The identifiers that `add` takes. -/
structure AddIds where
  userId : Option String
  agentId : Option String
  appId : Option String
  runId : Option String

/-- `_validate_and_trim_entity_id` on an argument. -/
def trimArgument (name : String) : Option String → Except PyError (Option String)
  | none => .ok none
  | some value => (trimEntityId name value).map some

/-- `_validate_and_trim_entity_id` on a value of the metadata. -/
def trimMetadata (name : String) : Value → Except PyError (Option String)
  | .null => .ok none
  | .str s => (trimEntityId name s).map some
  | _ => .error .attributeError

/-- `app_id or base_metadata_template.get("app_id")`, trimmed. -/
def trimAppId (appId : Option String) (metadata : Entries) : Except PyError (Option String) :=
  match appId with
  | some (value) => if value = "" then trimMetadata "app_id" (Payload.get metadata "app_id")
      else trimArgument "app_id" (some value)
  | none => trimMetadata "app_id" (Payload.get metadata "app_id")

/-- `_validate_and_trim_entity_id` on every identifier of a request. -/
def requestIds (ids : AddIds) (metadata : Entries) : Except PyError (List (String × Option String)) := do
  let userId ← trimArgument "user_id" ids.userId
  let agentId ← trimArgument "agent_id" ids.agentId
  let appId ← trimAppId ids.appId metadata
  let runId ← trimArgument "run_id" ids.runId
  let projectId ← trimMetadata "project_id" (Payload.get metadata "project_id")
  pure [("user_id", userId), ("agent_id", agentId), ("app_id", appId), ("run_id", runId),
    ("project_id", projectId)]

/-- The identifiers that are set. -/
def givenIds (ids : List (String × Option String)) : ScopeIds :=
  ids.filterMap fun e => e.2.map (e.1, ·)

/-- `_build_filters_and_metadata`: the metadata template and the identifiers of the filters. -/
def buildFiltersAndMetadata (ids : AddIds) (metadata : Option Entries) :
    Except PyError (Entries × ScopeIds) := do
  let template := metadata.getD []
  let scope := givenIds (← requestIds ids template)
  if scope.any fun e => e.1 ≠ "project_id" then pure (Dict.update template (idFilters scope), scope)
  else .error (.validationError "VALIDATION_001")

/-- `_build_session_scope`. -/
def buildSessionScope (scope : ScopeIds) : String :=
  "&".intercalate (sessionScopeKeys.filterMap fun k => (scope.lookup k).map fun v => k ++ "=" ++ v)

/-- `filters` cut down to the keys of the session scope. -/
def scopeFilters (scope : ScopeIds) : Entries :=
  idFilters (scope.filter fun e => e.1 ∈ sessionScopeKeys && e.2 ≠ "")

/-- `_memory_id_for_hash`. -/
def memoryIdForHash (W : Writer V S) (scope : ScopeIds) (hash : String) : String :=
  W.uuid5 (buildSessionScope scope ++ "\x00" ++ hash)

/-- `_existing_payload_values` for a key of the payload: the candidates that stand in the scope.
Where the statement fails, so do the listings that replace it. -/
def existingPayloadValues (P : Platform) (t : Table V) (key : String) (candidates : List String)
    (filters : Entries) : List String :=
  match Table.select P filters t.rows with
  | .error _ => []
  | .ok rows => candidates.filter fun c => rows.any fun row => row.payload.text P key == some c

theorem scopeFilters_keys (scope : ScopeIds) :
    ∀ e ∈ scope.filter fun e => decide (e.1 ∈ sessionScopeKeys) && decide (e.2 ≠ ""),
      e.1 ≠ "$or" ∧ e.1 ≠ "$not" := by
  intro e he
  have hkey : e.1 ∈ sessionScopeKeys := by
    have := (List.mem_filter.mp he).2
    simp only [Bool.and_eq_true, decide_eq_true_eq] at this
    exact this.1
  exact (by decide : ∀ k ∈ sessionScopeKeys, k ≠ "$or" ∧ k ≠ "$not") e.1 hkey

/-- The payload carries every identifier of the scope. -/
def inScope (P : Platform) (scope : ScopeIds) (payload : Payload) : Bool :=
  (scope.filter fun e => e.1 ∈ sessionScopeKeys && e.2 ≠ "").all fun e => idMatches P payload e.1 e.2

theorem select_scope (P : Platform) (scope : ScopeIds) (rows : List (Row V)) :
    Table.select P (scopeFilters scope) rows = .ok (rows.filter fun row => inScope P scope row.payload) :=
  select_ids (scopeFilters_keys scope) rows

/-- A row that an answer in the scope may contain carries the scope. -/
theorem inScope_of_admits {P : Platform} {t : Table V} {scope : ScopeIds} {row : Row V}
    (h : t.Admits P (scopeFilters scope) row) : row ∈ t.rows ∧ inScope P scope row.payload = true := by
  obtain ⟨hrow, conds, hconds, hselects⟩ := h
  rw [scopeFilters, buildFilterConditions_ids P (scopeFilters_keys scope)] at hconds
  cases hconds
  rw [selects_ids] at hselects
  exact ⟨hrow, hselects⟩

/-- The lookup in a scope never fails. -/
theorem existingPayloadValues_scope (P : Platform) (t : Table V) (key : String) (candidates : List String)
    (scope : ScopeIds) : existingPayloadValues P t key candidates (scopeFilters scope) =
      candidates.filter fun c => (t.rows.filter fun row => inScope P scope row.payload).any
        fun row => row.payload.text P key == some c := by
  rw [existingPayloadValues, select_scope]

/-! ## Categories -/

/-- `str.split()`. -/
def splitWords (s : String) : List String :=
  ((s.toList.splitOnP isSpace).filter fun w => !w.isEmpty).map String.ofList

/-- `str(item or "")`. -/
def textOrEmpty (P : Platform) (v : Value) : String := if v.truthy then v.pyStr P else ""

/-- `_category_match_key`. -/
def categoryMatchKey (W : Writer V S) (text : String) : String :=
  " ".intercalate (splitWords (W.lower (text.map fun c => if c = '_' ∨ c = '-' then ' ' else c)))

/-- The last allowed category with the key. -/
def allowedCategory (W : Writer V S) (allowed : List String) (text : String) : String :=
  let named := (allowed.filter fun item => strip item ≠ "").map fun item =>
    (categoryMatchKey W item, strip item)
  (Dict.update [] named).lookup (categoryMatchKey W text) |>.getD ""

/-- One item of `_normalize_memory_categories`. -/
def addCategory (W : Writer V S) (allowed categories : List String) (item : Value) : List String :=
  let given := strip (textOrEmpty W.platform item)
  let text := if given = "" || allowed.isEmpty then given else allowedCategory W allowed given
  if text = "" || categories.contains text then categories else categories ++ [text]

/-- `_normalize_memory_categories`. -/
def normalizeMemoryCategories (W : Writer V S) (value : Value) (allowed : List String) : List String :=
  match value with
  | .null => []
  | .bool _ => []
  | .list items => items.foldl (addCategory W allowed) []
  | v => addCategory W allowed [] v

/-- `value or other`. -/
def Value.orElse (v other : Value) : Value := if v.truthy then v else other

/-- `_normalize_memory_categories` of the categories or the category of an object. -/
def categoriesOf (W : Writer V S) (object : Entries) (allowed : List String) : List String :=
  normalizeMemoryCategories W
    ((Payload.get object "categories").orElse (Payload.get object "category")) allowed

/-- The categories the metadata allows. -/
def allowedCategories (W : Writer V S) (metadata : Entries) : List String :=
  normalizeMemoryCategories W (Payload.get metadata "_allowed_categories") []

end YiQiao
