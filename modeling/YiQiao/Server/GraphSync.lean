import YiQiao.Graph.Runs
import YiQiao.Memory.Additions
import YiQiao.Memory.DeleteAll
import YiQiao.Server.Tally

/-!
# Keeping the graph in step

The routes write the vector store and then the graph. They agree while each route gives the graph the scope that the row
has, and deletes there what it deletes in the store.
-/

namespace YiQiao

open Lib Fallible

variable {V S : Type}

/-! ## Requests -/

/-- What the routes read of the settings of a project. -/
structure StoreSettings where
  /-- `_category_names`. -/
  categoryNames : List String
  /-- `_build_extraction_prompt`. -/
  extractionPrompt : Option String
  /-- The expiration date of the retention, where memories decay. -/
  retentionDate : Option String
  /-- `DEFAULT_MEMORY_INFER`. -/
  defaultInfer : Bool

/-- `MemoryCreate`. -/
structure CreateBody where
  messages : Value
  ids : AddIds
  metadata : Option Object
  categories : Option (List String)
  /-- `_coerce_memory_timestamp` of the timestamp. -/
  createdAt : Option String
  expirationDate : Option String
  infer : Option Bool
  memoryType : Option String
  prompt : Option String
  preVectorWrite : Nat → Except PyError Unit

/-- `MemoryUpdate`; the outer option says whether the field is set. -/
structure UpdateBody where
  text : Option (Option String)
  metadata : Option (Option Object)
  categories : Option (Option (List String))
  expirationDate : Option (Option String)

inductive MemoryRequest where
  /-- `POST /memories` -/
  | add (body : CreateBody)
  /-- `PUT /memories/{memory_id}` -/
  | update (memoryId : String) (body : UpdateBody)
  /-- `DELETE /memories/{memory_id}` -/
  | delete (memoryId : String)
  /-- `DELETE /memories` -/
  | deleteAll (ids : AddIds)
  /-- `DELETE /entities/{entity_type}/{entity_id}` -/
  | deleteEntity (type : EntityType) (id : String)

/-- A request in a project, with the providers that answer while it runs. -/
structure MemoryCall (V : Type) where
  project : ProjectId
  settings : StoreSettings
  providers : Providers V
  request : MemoryRequest

/-- The memories and their graph. -/
structure SyncWorld (V : Type) where
  memory : MemoryState V
  graph : MemoryGraph

/-! ## Adding -/

/-- `if v: ..` on the list of categories of a request. -/
def categoriesValue : Option (List String) → Value
  | none => .null
  | some categories => .list (categories.map .str)

/-- `d.setdefault(k, v)`. -/
def setDefault (k : String) (v : Value) (d : Entries) : Entries := if (d.lookup k).isSome then d else Dict.set k v d

/-- `if categories: metadata["categories"] = categories`. -/
def setCategories (categories : List String) (metadata : Entries) : Entries :=
  if categories.isEmpty then metadata else Dict.set "categories" (.list (categories.map .str)) metadata

section

variable (W : Writer V S)

/-- `_request_categories`. -/
def requestCategories (settings : StoreSettings) (categories : Option (List String)) (metadata : Entries) :
    List String :=
  normalizeMemoryCategories W ((categoriesValue categories).orElse
    ((Payload.get metadata "categories").orElse (Payload.get metadata "category"))) settings.categoryNames

def Object.given (metadata : Option Object) : Entries := (metadata.map Object.entries).getD []

/-- The metadata that `_store_memory` stores. -/
def storeMetadata (settings : StoreSettings) (project : ProjectId) (body : CreateBody) : Entries :=
  let given := Object.given body.metadata
  let explicit := requestCategories W settings body.categories given
  let sorted := setCategories explicit (Dict.erase "categories" (Dict.erase "category" given))
  let allowed :=
    if settings.categoryNames.isEmpty then sorted
    else Dict.set "_allowed_categories" (.list (settings.categoryNames.map .str)) sorted
  let owned := Dict.set "project_id" (.str project.text) allowed
  match body.createdAt with
  | none => owned
  | some createdAt => setDefault "source_created_at" (.str createdAt) (setDefault "created_at" (.str createdAt) owned)

/-- `_memory_metadata_for_graph` of a result of `add`. -/
def addedMetadataForGraph (item : AddedMemory) (fallback : Entries) : Entries :=
  let metadata := Dict.erase "_allowed_categories" fallback
  setCategories (normalizeMemoryCategories W ((Value.list (item.categories.map .str)).orElse
    ((Payload.get metadata "categories").orElse (Payload.get metadata "category"))) []) metadata

/-- `_memory_metadata_for_graph` of what `get` answers. -/
def memoryMetadataForGraph (item : MemoryItem Unit) (fallback : Entries) : Entries :=
  let stored := Dict.update (Dict.erase "_allowed_categories" fallback) item.metadata
  let metadata := Dict.erase "_allowed_categories" stored
  setCategories (normalizeMemoryCategories W ((Payload.get item.promoted "categories").orElse
    ((Payload.get metadata "categories").orElse (Payload.get metadata "category"))) []) metadata

end

/-! ### Well-formed metadata -/

theorem Object.given_wf (metadata : Option Object) : (Value.dict (Object.given metadata)).WF := by
  cases metadata with
  | none => exact ⟨List.nodup_nil, trivial⟩
  | some metadata => exact metadata.wf

theorem Value.WF.erase {d : Entries} (h : (Value.dict d).WF) (k : String) : (Value.dict (Dict.erase k d)).WF := by
  have hall : Value.WFEntries d := h.2
  exact ⟨h.1.erase k, Value.wfEntries_of_mem fun e he => hall.mem (List.mem_of_mem_filter he)⟩

theorem setCategories_wf {metadata : Entries} (h : (Value.dict metadata).WF) (categories : List String) :
    (Value.dict (setCategories categories metadata)).WF := by
  rw [setCategories]
  split
  · exact h
  · exact h.set _ (texts_wf categories)

theorem setDefault_wf {metadata : Entries} (h : (Value.dict metadata).WF) (k text : String) :
    (Value.dict (setDefault k (.str text) metadata)).WF := by
  rw [setDefault]
  split
  · exact h
  · exact h.set _ trivial

theorem storeMetadata_wf (W : Writer V S) (settings : StoreSettings) (project : ProjectId) (body : CreateBody) :
    (Value.dict (storeMetadata W settings project body)).WF := by
  have howned : ∀ sorted : Entries, (Value.dict sorted).WF → (Value.dict (Dict.set "project_id" (.str project.text)
      (if settings.categoryNames.isEmpty then sorted
        else Dict.set "_allowed_categories" (.list (settings.categoryNames.map .str)) sorted))).WF := by
    intro sorted h
    refine Value.WF.set ?_ _ trivial
    split
    · exact h
    · exact h.set _ (texts_wf _)
  have hsorted := setCategories_wf (((Object.given_wf body.metadata).erase "category").erase "categories")
    (requestCategories W settings body.categories (Object.given body.metadata))
  rw [storeMetadata]
  split
  · exact howned _ hsorted
  · exact setDefault_wf (setDefault_wf (howned _ hsorted) _ _) _ _

section

variable (W : Writer V S)

/-- The arguments with which `_store_memory` calls `add`. -/
def storeRequest (settings : StoreSettings) (project : ProjectId) (body : CreateBody) : AddRequest where
  messages := body.messages
  ids := body.ids
  metadata := some ⟨storeMetadata W settings project body, storeMetadata_wf W settings project body⟩
  timestamp := none
  expirationDate := match body.expirationDate.or settings.retentionDate with
    | none => .null
    | some date => .str date
  infer := body.infer.getD settings.defaultInfer
  memoryType := body.memoryType
  prompt := match body.prompt with
    | none => settings.extractionPrompt
    | some prompt => if prompt = "" then settings.extractionPrompt.or (some prompt) else some prompt
  preVectorWrite := body.preVectorWrite

/-- `{key: getattr(memory_create, key, None) for key in ..}`. -/
def graphEntities (ids : AddIds) : List (String × Option String) :=
  [("user_id", ids.userId), ("agent_id", ids.agentId), ("app_id", ids.appId), ("run_id", ids.runId)]

def addedRow (body : CreateBody) (metadata : Entries) (item : AddedMemory) : GraphRow where
  memoryId := item.id
  text := if item.memory = "" then none else some item.memory
  entities := graphEntities body.ids
  metadata := addedMetadataForGraph W item metadata

/-- One of the identifiers is given, and not empty. -/
def namesSome (ids : AddIds) : Bool := (graphEntities ids).any fun e => e.2.any (· != "")

variable (R : EntityReader)

/-- `add_memory`. -/
def addMemoryRoute [Score S] (call : MemoryCall V) (body : CreateBody) (w : SyncWorld V) : SyncWorld V :=
  if namesSome body.ids = false then w
  else match (add W call.providers (storeRequest W call.settings call.project body)).run w.memory with
    | (.error _, memory) => { w with memory := memory }
    | (.ok results, memory) =>
        let metadata := storeMetadata W call.settings call.project body
        ⟨memory, results.foldl (fun g item =>
          g.upsertMemory ((addedRow W body metadata item).prepare R W.platform)) w.graph⟩

/-! ## Updating -/

/-- `metadata_patch` of `update_memory`, before the project is set. -/
def categorizedPatch (settings : StoreSettings) (body : UpdateBody) : Option Entries :=
  let given := body.metadata.map Object.given
  match body.categories with
  | some categories =>
      let normalized := normalizeMemoryCategories W (categoriesValue categories) settings.categoryNames
      some (Dict.erase "category" (Dict.set "categories" (.list (normalized.map .str)) (given.getD [])))
  | none => given.map fun patch =>
      if (patch.lookup "category").isSome || (patch.lookup "categories").isSome then
        setCategories (requestCategories W settings none patch) (Dict.erase "categories" (Dict.erase "category" patch))
      else patch

/-- `metadata_patch`. -/
def metadataPatch (settings : StoreSettings) (project : ProjectId) (body : UpdateBody) : Option Entries :=
  (categorizedPatch W settings body).map (Dict.set "project_id" (.str project.text))

theorem metadataPatch_wf (settings : StoreSettings) (project : ProjectId) (body : UpdateBody) {patch : Entries}
    (h : metadataPatch W settings project body = some patch) : (Value.dict patch).WF := by
  obtain ⟨base, hbase, rfl⟩ := Option.map_eq_some_iff.mp h
  refine Value.WF.set ?_ _ trivial
  have hgiven : (Value.dict ((body.metadata.map Object.given).getD [])).WF := by
    cases body.metadata with
    | none => exact ⟨List.nodup_nil, trivial⟩
    | some metadata => exact Object.given_wf metadata
  rw [categorizedPatch] at hbase
  cases hcategories : body.categories with
  | some categories =>
      rw [hcategories] at hbase
      cases hbase
      exact (hgiven.set _ (texts_wf _)).erase _
  | none =>
      rw [hcategories] at hbase
      obtain ⟨given, hsome, rfl⟩ := Option.map_eq_some_iff.mp hbase
      rw [hsome] at hgiven
      split
      · exact setCategories_wf ((hgiven.erase _).erase _) _
      · exact hgiven

/-- The arguments with which `update_memory` calls `update`. -/
def patchRequest (settings : StoreSettings) (project : ProjectId) (memoryId : String) (body : UpdateBody) :
    UpdateRequest where
  memoryId := memoryId
  data := body.text.join
  metadata := match h : metadataPatch W settings project body with
    | none => none
    | some patch => some ⟨patch, metadataPatch_wf W settings project body h⟩
  expirationDate := body.expirationDate.map fun date => match date with
    | none => .null
    | some date => .str date

/-- `_ensure_memory_project`. -/
def ensureMemoryProject (P : Platform) (t : Table V) (memoryId : String) (project : ProjectId) : Bool :=
  match t.get memoryId with
  | none => false
  | some row => match formatItem row.id () row.payload with
    | .error _ => false
    | .ok item => memoryProjectId P item = project.text

/-- The update is one that the graph is told of. -/
def UpdateBody.touchesGraph (body : UpdateBody) : Bool :=
  body.text.isSome || body.metadata.isSome || body.categories.isSome

/-- The row that `update_memory` gives to the graph, from the memories after the update. -/
def patchedRow (settings : StoreSettings) (project : ProjectId) (memoryId : String) (body : UpdateBody) (t : Table V) :
    GraphRow :=
  let patch := metadataPatch W settings project body
  let current := (t.get memoryId).bind fun row => (formatItem row.id () row.payload).toOption
  let told : Option String × Entries := match body.text.join, current with
    | some text, _ => (some text, patch.getD [])
    | none, none => (none, patch.getD [])
    | none, some item => (if item.memory = "" then none else some item.memory,
        memoryMetadataForGraph W item (patch.getD []))
  ⟨memoryId, told.1, [], if told.2.isEmpty then [("project_id", .str project.text)] else told.2⟩

/-- `update_memory`. -/
def updateMemoryRoute [Score S] (call : MemoryCall V) (memoryId : String) (body : UpdateBody) (w : SyncWorld V) :
    SyncWorld V :=
  if ensureMemoryProject W.platform w.memory.memories memoryId call.project = false then w
  else match (update W call.providers (patchRequest W call.settings call.project memoryId body)).run w.memory with
    | (.error _, memory) => { w with memory := memory }
    | (.ok _, memory) =>
        if body.touchesGraph then
          ⟨memory, w.graph.upsertMemory
            ((patchedRow W call.settings call.project memoryId body memory.memories).prepare R W.platform)⟩
        else { w with memory := memory }

/-! ## Deleting -/

/-- `delete_memory`. -/
def deleteMemoryRoute (call : MemoryCall V) (memoryId : String) (w : SyncWorld V) : SyncWorld V :=
  if ensureMemoryProject W.platform w.memory.memories memoryId call.project = false then w
  else match (delete W call.providers memoryId).run w.memory with
    | (.error _, memory) => { w with memory := memory }
    | (.ok _, memory) => ⟨memory, w.graph.deleteMemory memoryId⟩

/-- `v for v in .. if v`. -/
def givenId : Option String → Option String
  | none => none
  | some id => if id = "" then none else some id

/-- The scope that `delete_all_memories` passes. -/
def routeScope (project : ProjectId) (ids : AddIds) : DeleteScope :=
  ⟨givenId ids.userId, givenId ids.agentId, givenId ids.runId, givenId ids.appId, some project.text⟩

def routeFilters (ids : AddIds) : MemoryGraph.GraphFilters :=
  ⟨givenId ids.userId, givenId ids.agentId, givenId ids.appId, givenId ids.runId⟩

/-- `delete_all_memories`. -/
def deleteAllRoute (call : MemoryCall V) (ids : AddIds) (w : SyncWorld V) : SyncWorld V :=
  if namesSome ids = false then w
  else match (deleteAll W call.providers (routeScope call.project ids)).run w.memory with
    | (.error _, memory) => { w with memory := memory }
    | (.ok _, memory) => ⟨memory, w.graph.deleteMemories call.project.text (routeFilters ids)⟩

/-- `**{TYPE_TO_FIELD[entity_type]: entity_id}`. -/
def entityScope (project : ProjectId) (type : EntityType) (id : String) : DeleteScope :=
  match type with
  | .user => ⟨some id, none, none, none, some project.text⟩
  | .agent => ⟨none, some id, none, none, some project.text⟩
  | .app => ⟨none, none, none, some id, some project.text⟩
  | .run => ⟨none, none, some id, none, some project.text⟩

/-- `delete_entity`. -/
def deleteEntityRoute (call : MemoryCall V) (type : EntityType) (id : String) (w : SyncWorld V) : SyncWorld V :=
  { w with memory := ((deleteAll W call.providers (entityScope call.project type id)).run w.memory).2 }

/-- The stores after a request, whether it returned or raised. -/
def MemoryCall.after [Score S] (call : MemoryCall V) (w : SyncWorld V) : SyncWorld V :=
  match call.request with
  | .add body => addMemoryRoute W R call body w
  | .update memoryId body => updateMemoryRoute W R call memoryId body w
  | .delete memoryId => deleteMemoryRoute W call memoryId w
  | .deleteAll ids => deleteAllRoute W call ids w
  | .deleteEntity type id => deleteEntityRoute W call type id w

end

end YiQiao
