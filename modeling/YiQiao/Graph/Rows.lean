import Mathlib.Data.Finset.Image
import Mathlib.Data.List.Basic
import YiQiao.Lib.Firsts
import YiQiao.Lib.Marks
import YiQiao.Memory.Scope
import YiQiao.Server.Project

/-!
# Rows for the graph

What a memory becomes before it is written into Neo4j: its scope, its categories and its entities, each with the key
under which the graph knows it.
-/

namespace YiQiao

open Lib

/-- What extraction asks outside: the core extractor, the patterns, and the normal form of a name. -/
structure EntityReader where
  /-- `_coerce_entities(_core_extract_entities(text))`, empty where that raises. -/
  coreEntities : String → List (String × String)
  fallbackEntities : String → List (String × String)
  /-- `_norm`. -/
  norm : String → String
  /-- `str.upper`. -/
  upper : String → String

inductive EntityKind where
  | scope
  | memory
  deriving DecidableEq, Repr

def EntityKind.text : EntityKind → String
  | scope => "scope"
  | memory => "memory"

structure EntityRow where
  type : String
  name : String
  norm : String
  kind : EntityKind
  deriving DecidableEq, Repr

/-- `project_id + ':' + entity.kind + ':' + entity.norm`. -/
def entityNodeKey (projectId : String) (kind : EntityKind) (norm : String) : String :=
  projectId ++ ":" ++ kind.text ++ ":" ++ norm

/-- `project_id + ':' + category`. -/
def categoryNodeKey (projectId category : String) : String := projectId ++ ":" ++ category

/-- `_props`. -/
structure GraphScope where
  userId : String
  agentId : String
  appId : String
  runId : String
  deriving DecidableEq, Repr

namespace GraphScope

/-- The identifiers as a list. -/
def ids (s : GraphScope) : List String := [s.userId, s.agentId, s.appId, s.runId]

/-- The `WHERE` of the query of the relations: an identifier is shared, or both have none. -/
def overlaps (s other : GraphScope) : Bool :=
  (s.userId != "" && s.userId == other.userId) || (s.agentId != "" && s.agentId == other.agentId) ||
    (s.appId != "" && s.appId == other.appId) || (s.runId != "" && s.runId == other.runId) ||
    (s.ids.all (· == "") && other.ids.all (· == ""))

end GraphScope

/-- A row as `upsert_memory` and `upsert_memories_batch` receive it. -/
structure GraphRow where
  memoryId : String
  text : Option String
  entities : List (String × Option String)
  metadata : Entries

/-- A row as the queries receive it. -/
structure GraphUpsert where
  memoryId : String
  text : Option String
  projectId : String
  scope : GraphScope
  entities : List EntityRow
  categories : List String

section

variable (R : EntityReader) (P : Platform)

def extractGraphEntities (text : Option String) : List EntityRow :=
  let given := text.getD ""
  let core := if given = "" then [] else R.coreEntities given
  let fallback := if given = "" then [] else R.fallbackEntities given
  let entities := if core.isEmpty then fallback else core ++ fallback.filter fun e => e.1 = "IDENTIFIER"
  firstsBy EntityRow.norm <| (entities.filter fun e => R.norm e.2 ≠ "").map fun e =>
    ⟨R.upper e.1, e.2, R.norm e.2, .memory⟩

/-- `key.replace("_id", "")`. -/
def withoutId : List Char → List Char
  | '_' :: 'i' :: 'd' :: rest => withoutId rest
  | c :: rest => c :: withoutId rest
  | [] => []

def scopeEntities (entities : List (String × Option String)) : List EntityRow :=
  entities.filterMap fun e => match e.2 with
    | none => none
    | some value =>
        if value = "" then none
        else some ⟨R.upper (String.ofList (withoutId e.1.toList)), value, R.norm value, .scope⟩

def graphScope (entities : List (String × Option String)) : GraphScope :=
  let prop := fun key => ((entities.lookup key).getD none).getD ""
  ⟨prop "user_id", prop "agent_id", prop "app_id", prop "run_id"⟩

/-- `str(metadata.get("project_id") or "default-project")`. -/
def graphProject (metadata : Entries) : String :=
  ((Payload.get metadata "project_id").orElse (.str defaultProjectId)).pyStr P

/-- `[str(category) for category in categories if category]`. -/
def graphCategories (metadata : Entries) : List String :=
  let raw := (Payload.get metadata "categories").orElse (Payload.get metadata "category")
  let categories := match raw with
    | .list vs => vs
    | v => if v.truthy then [v] else []
  (categories.filter Value.truthy).map (Value.pyStr P)

/-- What both ways of writing make of a row. -/
def GraphRow.prepare (row : GraphRow) : GraphUpsert where
  memoryId := row.memoryId
  text := row.text
  projectId := graphProject P row.metadata
  scope := graphScope row.entities
  entities := scopeEntities R row.entities ++ extractGraphEntities R row.text
  categories := graphCategories P row.metadata

/-- `_prepare_memory_batch`; the ids of a batch are stripped. -/
def prepareMemoryBatch (rows : List GraphRow) : Except PyError (List GraphUpsert) :=
  rows.mapM fun row =>
    let memoryId := strip row.memoryId
    if memoryId = "" then .error (.valueError "Neo4j batch row is missing memory_id")
    else .ok { row.prepare R P with memoryId := memoryId }

end

/-! ## Keys -/

theorem EntityKind.colonFree (kind : EntityKind) : ':' ∉ kind.text.toList := by
  cases kind <;> decide

theorem EntityKind.text_injective {kind kind' : EntityKind} (h : kind.text.toList = kind'.text.toList) :
    kind = kind' := by
  cases kind <;> cases kind' <;> first | rfl | (revert h; decide)

/-- A key tells the project, the kind and the norm apart. -/
theorem entityNodeKey_inj {projectId projectId' : String} {kind kind' : EntityKind} {norm norm' : String}
    (hfree : ':' ∉ projectId.toList) (hfree' : ':' ∉ projectId'.toList)
    (h : entityNodeKey projectId kind norm = entityNodeKey projectId' kind' norm') :
    projectId = projectId' ∧ kind = kind' ∧ norm = norm' := by
  have hlist := congrArg String.toList h
  simp only [entityNodeKey, String.toList_append, List.append_assoc, show ":".toList = [':'] from rfl,
    List.singleton_append] at hlist
  obtain ⟨hproject, hrest⟩ := first_mark hfree hfree' hlist
  obtain ⟨hkind, hnorm⟩ := first_mark kind.colonFree kind'.colonFree hrest
  exact ⟨String.toList_inj.mp hproject, EntityKind.text_injective hkind, String.toList_inj.mp hnorm⟩

theorem categoryNodeKey_inj {projectId projectId' category category' : String} (hfree : ':' ∉ projectId.toList)
    (hfree' : ':' ∉ projectId'.toList) (h : categoryNodeKey projectId category = categoryNodeKey projectId' category') :
    projectId = projectId' ∧ category = category' := by
  have hlist := congrArg String.toList h
  simp only [categoryNodeKey, String.toList_append, List.append_assoc, show ":".toList = [':'] from rfl,
    List.singleton_append] at hlist
  obtain ⟨hproject, hcategory⟩ := first_mark hfree hfree' hlist
  exact ⟨String.toList_inj.mp hproject, String.toList_inj.mp hcategory⟩

end YiQiao
