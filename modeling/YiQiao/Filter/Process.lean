import YiQiao.Value

/-!
# Processing of search filters

`Memory._process_metadata_filters` flattens a client's filter dictionary into the dictionary the
vector store compiles, and `Memory.search` assembles the effective filters around it.
-/

namespace YiQiao.Filters

open Lib

/-! ## Conditions and branches -/

/-- The comparison operators, the keys of `operator_map`. -/
def operators : List String :=
  ["eq", "ne", "gt", "gte", "lt", "lte", "in", "nin", "contains", "icontains"]

/-- `AND`, `OR` and `NOT`. -/
def logicalKeys : List String := ["AND", "OR", "NOT"]

/-- `result.setdefault(key, {})[operator_map[operator]] = value` for one item of a condition. -/
def addOperator (ops : Entries) (e : String × Value) : Except PyError Entries :=
  if e.1 ∈ operators then .ok (Dict.set e.1 e.2 ops)
  else .error (.valueError s!"Unsupported metadata filter operator: {e.1}")

/-- `process_condition`. -/
def processCondition (key : String) : Value → Except PyError Entries
  | .dict ops => do
      let result ← ops.foldlM addOperator []
      pure (if result.isEmpty then [] else [(key, .dict result)])
  | condition => .ok [(key, condition)]

/-- One assignment of `merge_filters`: two operator dictionaries are merged, anything else replaces. -/
def mergeEntry (target : Entries) (e : String × Value) : Entries :=
  match target.lookup e.1, e.2 with
  | some (.dict old), .dict new => Dict.set e.1 (.dict (Dict.update old new)) target
  | _, _ => Dict.set e.1 e.2 target

/-- `merge_filters`. -/
def mergeFilters (target source : Entries) : Entries := source.foldl mergeEntry target

/-- `merge_filters(target, process_condition(key, value))`. -/
def mergeCondition (target : Entries) (e : String × Value) : Except PyError Entries := do
  let source ← processCondition e.1 e.2
  pure (mergeFilters target source)

/-- `for sub_key, sub_value in condition.items()` over one listed condition. -/
def mergeBranch (target : Entries) : Value → Except PyError Entries
  | .dict d => d.foldlM mergeCondition target
  | _ => .error .attributeError

/-- The conditions an `OR` or `NOT` collects, each into a dictionary of its own. -/
def processGroup (conditions : List Value) : Except PyError Value := do
  let groups ← conditions.mapM (mergeBranch [])
  pure (.list (groups.map .dict))

/-! ## The processor -/

/-- One iteration of the loop of `_process_metadata_filters`. -/
def processEntry (processed : Entries) (e : String × Value) : Except PyError Entries :=
  if e.1 = "AND" then
    match e.2 with
    | .list conditions => conditions.foldlM mergeBranch processed
    | _ => .error (.valueError "AND operator requires a list of conditions")
  else if e.1 = "OR" then
    match e.2 with
    | .list (c :: cs) => do
        let group ← processGroup (c :: cs)
        pure (Dict.set "$or" group processed)
    | _ => .error (.valueError "OR operator requires a non-empty list of conditions")
  else if e.1 = "NOT" then
    match e.2 with
    | .list (c :: cs) => do
        let group ← processGroup (c :: cs)
        pure (Dict.set "$not" group processed)
    | _ => .error (.valueError "NOT operator requires a non-empty list of conditions")
  else mergeCondition processed e

/-- `Memory._process_metadata_filters`. -/
def processMetadataFilters (filters : Entries) : Except PyError Entries :=
  filters.foldlM processEntry []

/-- `Memory._has_advanced_operators`. -/
def hasAdvancedOperators (filters : Entries) : Bool :=
  filters.any fun e =>
    e.1 ∈ logicalKeys ||
      (match e.2 with
        | .dict ops => ops.any fun o => o.1 ∈ operators
        | v => v.isStar)

/-! ## Assembly in `Memory.search` -/

/-- `_validate_and_trim_entity_id` on a value that is not `None`. -/
def trimEntityId (name : String) (value : String) : Except PyError String :=
  let trimmed := strip value
  if trimmed = "" then
    .error (.valueError
      s!"Invalid {name}: cannot be empty or whitespace-only. Provide a valid identifier.")
  else if trimmed.toList.any isSpace then
    .error (.valueError
      s!"Invalid {name}: cannot contain whitespace. Provide a valid identifier without spaces.")
  else .ok trimmed

/-- `_validate_and_trim_entity_id` on a filter value. -/
def validateEntityId (name : String) : Value → Except PyError Value
  | .null => .ok .null
  | .str s => do
      let trimmed ← trimEntityId name s
      pure (.str trimmed)
  | _ => .error .attributeError

/-- The identifiers a filter may be scoped by. -/
def scopeIds : List String := ["user_id", "agent_id", "run_id"]

/-- `if name in effective_filters: effective_filters[name] = _validate_and_trim_entity_id(...)`. -/
def validateKey (filters : Entries) (name : String) : Except PyError Entries :=
  match filters.lookup name with
  | none => .ok filters
  | some v => do
      let trimmed ← validateEntityId name v
      pure (Dict.set name trimmed filters)

/-- The validated copy of the filters: identifiers trimmed, at least one of them given. -/
def validateFilters (filters : Entries) : Except PyError Entries := do
  let effective ← scopeIds.foldlM validateKey filters
  if scopeIds.any fun k => (effective.lookup k).isSome then pure effective
  else .error (.valueError
    "filters must contain at least one of: user_id, agent_id, run_id. Example: filters=\x7b'user_id': 'u1'\x7d")

/-- The keys `Memory.search` drops before it puts the processed ones in. -/
def isReprocessed (e : String × Value) : Bool :=
  e.1 ∈ logicalKeys || (e.1 ∉ scopeIds && e.2.isDict)

/-- The effective filters of `Memory.search`. -/
def effectiveFilters (validated : Entries) : Except PyError Entries :=
  if hasAdvancedOperators validated then do
    let processed ← processMetadataFilters validated
    pure (Dict.update (validated.filter fun e => !isReprocessed e) processed)
  else .ok validated

/-- `process_telemetry_filters` encodes the identifiers, so each of them must be a text. -/
def telemetryFilters (filters : Entries) : Except PyError Unit :=
  if scopeIds.all fun k => match filters.lookup k with
      | none => true
      | some (.str _) => true
      | _ => false
  then .ok () else .error .attributeError

end YiQiao.Filters
