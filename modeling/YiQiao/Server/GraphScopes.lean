import YiQiao.Server.GraphSync

/-!
# Where the graph agrees with the store

The node of a memory carries the project and the identifiers of its row, and no other node stands. The routes keep that
where the scope they tell the graph is the scope that they store, and where they delete the same memories on both sides.
-/

namespace YiQiao

open Lib Fallible

variable {V S : Type}

/-! ## Agreement -/

/-- The identifiers of a row, as texts. -/
def Payload.scopeTexts (P : Platform) (payload : Payload) : GraphScope :=
  let prop := fun key => textOrEmpty P (Payload.get payload key)
  ⟨prop "user_id", prop "agent_id", prop "app_id", prop "run_id"⟩

/-- Every live memory has its node, and every node its memory. -/
structure SyncWorld.Agreed (P : Platform) (w : SyncWorld V) : Prop where
  nodes : ∀ row ∈ w.memory.memories.rows, ∃ node, w.graph.memories row.id = some node ∧
    node.projectId = row.payload.projectId P ∧ node.scope = row.payload.scopeTexts P
  live : ∀ m, (w.graph.memories m).isSome = true → m ∈ w.memory.memories.rows.map Row.id

/-- The operation returns, and then the condition holds, or it raises and has written no memory. -/
def Clean {α : Type} (x : Op V α) (s : MemoryState V) (condition : Prop) : Prop :=
  match (x.run s).1 with
  | .ok _ => condition
  | .error _ => SameMemories s (x.run s).2

/-- The identifiers are given without blanks around them, and the metadata brings none that are not given. -/
def CreateBody.Plain (body : CreateBody) : Prop :=
  ∀ e ∈ graphEntities body.ids, strip (e.2.getD "") = e.2.getD "" ∧
    (e.2.getD "" = "" → (Payload.get (Object.given body.metadata) e.1).truthy = false)

/-- A payload with the patch of an update in it. -/
def patchedPayload (W : Writer V S) (settings : StoreSettings) (project : ProjectId) (body : UpdateBody)
    (payload : Payload) : Payload := Dict.update payload ((metadataPatch W settings project body).getD [])

/-- The request tells the graph what it does to the store. -/
def MemoryCall.Careful [Score S] (W : Writer V S) (call : MemoryCall V) (w : SyncWorld V) : Prop :=
  match call.request with
  | .add body => namesSome body.ids = true →
      Clean (add W call.providers (storeRequest W call.settings call.project body)) w.memory body.Plain
  | .update memoryId body => body.touchesGraph = true →
      Clean (update W call.providers (patchRequest W call.settings call.project memoryId body)) w.memory
        (∀ row, w.memory.memories.get memoryId = some row → row.payload.projectId W.platform = call.project.text →
          (patchedPayload W call.settings call.project body row.payload).scopeTexts W.platform = ⟨"", "", "", ""⟩)
  | .delete memoryId => Clean (delete W call.providers memoryId) w.memory True
  | .deleteAll ids => namesSome ids = true →
      Clean (deleteAll W call.providers (routeScope call.project ids)) w.memory
        (((routeScope call.project ids).covered W.platform w.memory.memories).length ≤ defaultListLimit ∧
          ∀ row ∈ w.memory.memories.rows, (routeScope call.project ids).covers W.platform row.payload =
            (decide (row.payload.projectId W.platform = call.project.text) &&
              (routeFilters ids).match (row.payload.scopeTexts W.platform)))
  | .deleteEntity type id => ∀ row ∈ w.memory.memories.rows,
      (entityScope call.project type id).covers W.platform row.payload = false

/-- No memories and no graph. -/
def SyncWorld.start : SyncWorld V := ⟨noMemories, .empty⟩

def SyncWorld.run [Score S] (W : Writer V S) (R : EntityReader) (w : SyncWorld V) (calls : List (MemoryCall V)) :
    SyncWorld V := calls.foldl (fun w call => call.after W R w) w

/-- Every call of the run is careful in the world it meets. -/
def SyncWorld.Careful [Score S] (W : Writer V S) (R : EntityReader) : SyncWorld V → List (MemoryCall V) → Prop
  | _, [] => True
  | w, call :: calls => call.Careful W w ∧ (call.after W R w).Careful W R calls

/-! ## Nodes of the graph -/

section

variable {g : MemoryGraph} {rows : List GraphUpsert}

theorem batchRelatedQuery_memories (g : MemoryGraph) (rows : List GraphUpsert) :
    (g.batchRelatedQuery rows).memories = g.memories := by
  rw [MemoryGraph.batchRelatedQuery]
  induction rows generalizing g with
  | nil => rfl
  | cons row rows ih => exact ih (g.mergeRelations row)

theorem upsertMemory_memories {row : GraphUpsert} (hid : row.memoryId ≠ "") :
    (g.upsertMemory row).memories = Function.update g.memories row.memoryId (some row.node) := by
  rw [upsertMemory_eq hid, writeMemoryBatch_eq, batchRelatedQuery_memories]
  rfl

theorem foldl_upsertMemory_memories (hids : ∀ row ∈ rows, row.memoryId ≠ "") :
    (rows.foldl MemoryGraph.upsertMemory g).memories =
      write g.memories (rows.map fun row => (row.memoryId, row.node)) := by
  induction rows generalizing g with
  | nil => rfl
  | cons row rows ih =>
      rw [List.foldl_cons, ih fun r hr => hids r (List.mem_cons_of_mem _ hr),
        upsertMemory_memories (hids row List.mem_cons_self)]
      rfl

end

/-! ## Identifiers as texts -/

section

variable {P : Platform} {payload payload' : Payload}

@[simp] theorem textOrEmpty_null : textOrEmpty P .null = "" := rfl

@[simp] theorem textOrEmpty_str (s : String) : textOrEmpty P (.str s) = s := by
  by_cases h : s = ""
  · simp [textOrEmpty, Value.truthy, h]
  · simp [textOrEmpty, Value.truthy, Value.pyStr, h]

theorem textOrEmpty_of_falsy {v : Value} (h : v.truthy = false) : textOrEmpty P v = "" := by simp [textOrEmpty, h]

theorem project_ne_empty (project : ProjectId) : project.text ≠ "" := by
  intro h
  exact project.nonempty (by rw [h]; rfl)

theorem projectId_of_get {project : ProjectId} (h : Payload.get payload "project_id" = .str project.text) :
    payload.projectId P = project.text := by
  simp [Payload.projectId, h, Value.truthy, Value.pyStr, project_ne_empty]

theorem graphProject_of_get {project : ProjectId} (h : Payload.get payload "project_id" = .str project.text) :
    graphProject P payload = project.text := by
  simp [graphProject, Value.orElse, h, Value.truthy, Value.pyStr, project_ne_empty]

theorem graphProject_eq (payload : Payload) : graphProject P payload = payload.projectId P := by
  rw [graphProject, Payload.projectId, Value.orElse]
  split
  · rfl
  · simp [Value.pyStr]

/-- The keys of the identifiers. -/
def graphKeys : List String := ["user_id", "agent_id", "app_id", "run_id"]

theorem scopeTexts_congr (h : ∀ key ∈ graphKeys, payload.lookup key = payload'.lookup key) :
    payload.scopeTexts P = payload'.scopeTexts P := by
  have hget : ∀ key ∈ graphKeys, Payload.get payload key = Payload.get payload' key := by
    intro key hk
    rw [Payload.get, Payload.get, h key hk]
  simp [Payload.scopeTexts, hget _ (show "user_id" ∈ graphKeys by decide),
    hget _ (show "agent_id" ∈ graphKeys by decide), hget _ (show "app_id" ∈ graphKeys by decide),
    hget _ (show "run_id" ∈ graphKeys by decide)]

theorem projectId_congr (h : payload.lookup "project_id" = payload'.lookup "project_id") :
    payload.projectId P = payload'.projectId P := by
  rw [Payload.projectId, Payload.projectId, Payload.get, Payload.get, h]

end

/-! ## What an addition stores -/

section

variable {W : Writer V S} {settings : StoreSettings} {project : ProjectId} {body : CreateBody} {P : Platform}

theorem setCategories_lookup {key : String} (hk : key ≠ "categories") (categories : List String) (metadata : Entries) :
    (setCategories categories metadata).lookup key = metadata.lookup key := by
  rw [setCategories]
  split
  · rfl
  · exact Dict.lookup_set_of_ne hk _ _

theorem setDefault_lookup {key k : String} (hk : key ≠ k) (v : Value) (metadata : Entries) :
    (setDefault k v metadata).lookup key = metadata.lookup key := by
  rw [setDefault]
  split
  · rfl
  · exact Dict.lookup_set_of_ne hk _ _

/-- The project and the identifiers of the metadata that is stored. -/
theorem storeMetadata_lookup {key : String} (hk : key ∈ sessionScopeKeys) :
    (storeMetadata W settings project body).lookup key =
      if key = "project_id" then some (.str project.text) else (Object.given body.metadata).lookup key := by
  have hfree : ∀ k ∈ sessionScopeKeys, k ≠ "categories" ∧ k ≠ "category" ∧ k ≠ "_allowed_categories" ∧
      k ≠ "created_at" ∧ k ≠ "source_created_at" := by decide
  obtain ⟨hcategories, hcategory, hallowed, hcreated, hsource⟩ := hfree key hk
  have howned : ∀ sorted : Entries, sorted.lookup key = (Object.given body.metadata).lookup key →
      (Dict.set "project_id" (.str project.text)
        (if settings.categoryNames.isEmpty then sorted
          else Dict.set "_allowed_categories" (.list (settings.categoryNames.map .str)) sorted)).lookup key =
      if key = "project_id" then some (.str project.text) else (Object.given body.metadata).lookup key := by
    intro sorted hsorted
    rw [Dict.lookup_set]
    congr 1
    split
    · exact hsorted
    · rw [Dict.lookup_set_of_ne hallowed, hsorted]
  have hgiven := setCategories_lookup hcategories
    (requestCategories W settings body.categories (Object.given body.metadata))
    (Dict.erase "categories" (Dict.erase "category" (Object.given body.metadata)))
  rw [Dict.lookup_erase_of_ne hcategories, Dict.lookup_erase_of_ne hcategory] at hgiven
  rw [storeMetadata]
  split
  · exact howned _ hgiven
  · rw [setDefault_lookup hsource, setDefault_lookup hcreated]
    exact howned _ hgiven

theorem trimArgument_given {name : String} {argument trimmed : Option String}
    (h : trimArgument name argument = .ok trimmed) : trimmed = (givenId argument).map strip := by
  cases argument with
  | none =>
      cases h
      rfl
  | some value =>
      simp only [trimArgument] at h
      obtain ⟨stripped, hstripped, rfl⟩ := map_ok.mp h
      have hvalue := trimEntityId_ok hstripped
      by_cases hempty : value = ""
      · rw [hempty] at hstripped
        cases hstripped
      · rw [givenId, if_neg hempty, hvalue]
        rfl

theorem trimMetadata_falsy {name : String} {v : Value} {trimmed : Option String} (hv : v.truthy = false)
    (h : trimMetadata name v = .ok trimmed) : trimmed = none := by
  cases v with
  | null =>
      cases h
      rfl
  | str s =>
      have hempty : s = "" := by simpa [Value.truthy] using hv
      rw [hempty] at h
      cases h
  | _ => cases h

theorem trimAppId_given {appId trimmed : Option String} {metadata : Entries}
    (hplain : appId.getD "" = "" → (Payload.get metadata "app_id").truthy = false)
    (h : trimAppId appId metadata = .ok trimmed) : trimmed = (givenId appId).map strip := by
  cases appId with
  | none => exact trimMetadata_falsy (hplain rfl) h
  | some value =>
      rw [trimAppId] at h
      split at h
      · rename_i hempty
        rw [givenId, if_pos hempty]
        exact trimMetadata_falsy (hplain hempty) h
      · exact trimArgument_given h

/-- An identifier as it is stored reads as it was given. -/
theorem stored_text {id : Option String} {template : Option Value} (hstrip : strip (id.getD "") = id.getD "")
    (hfalsy : id.getD "" = "" → (template.getD .null).truthy = false) :
    textOrEmpty P (((((givenId id).map strip).map Value.str).or template).getD .null) = id.getD "" := by
  cases id with
  | none => exact textOrEmpty_of_falsy (hfalsy rfl)
  | some value =>
      by_cases hempty : value = ""
      · rw [givenId, if_pos hempty, Option.getD_some, hempty]
        exact textOrEmpty_of_falsy (hfalsy hempty)
      · rw [givenId, if_neg hempty]
        simpa using hstrip

/-- The identifiers that a request stores. -/
def keptIds (project : ProjectId) (ids : AddIds) : List (String × Option String) :=
  [("user_id", (givenId ids.userId).map strip), ("agent_id", (givenId ids.agentId).map strip),
    ("app_id", (givenId ids.appId).map strip), ("run_id", (givenId ids.runId).map strip),
    ("project_id", some project.text)]

theorem requestIds_kept {ids : AddIds} {metadata : Entries} {given : List (String × Option String)}
    (happId : ids.appId.getD "" = "" → (Payload.get metadata "app_id").truthy = false)
    (hprojectId : Payload.get metadata "project_id" = .str project.text) (h : requestIds ids metadata = .ok given) :
    given = keptIds project ids := by
  simp only [requestIds, bind_ok, pure_ok] at h
  obtain ⟨userId, huser, agentId, hagent, appId, happ, runId, hrun, projectId, hproject, rfl⟩ := h
  have hkept : projectId = some project.text := by
    rw [hprojectId, trimMetadata] at hproject
    obtain ⟨stripped, hstripped, rfl⟩ := map_ok.mp hproject
    rw [trimEntityId_ok hstripped, ProjectId.strip_project]
  rw [trimArgument_given huser, trimArgument_given hagent, trimAppId_given happId happ, trimArgument_given hrun, hkept]
  rfl

/-- The row's project and identifiers are those of the request. -/
theorem stored_scope {stored : Entries} {scope : ScopeIds} (hplain : body.Plain)
    (h : buildFiltersAndMetadata body.ids (some (storeMetadata W settings project body)) = .ok (stored, scope)) :
    Payload.get stored "project_id" = .str project.text ∧
      Payload.scopeTexts P stored = graphScope (graphEntities body.ids) := by
  have htemplate : ∀ key ∈ graphKeys, (storeMetadata W settings project body).lookup key =
      (Object.given body.metadata).lookup key := by
    have hproper : ∀ key ∈ graphKeys, key ∈ sessionScopeKeys ∧ key ≠ "project_id" := by decide
    intro key hk
    rw [storeMetadata_lookup (hproper key hk).1, if_neg (hproper key hk).2]
  have hproject : (storeMetadata W settings project body).lookup "project_id" = some (.str project.text) := by
    rw [storeMetadata_lookup (by decide), if_pos rfl]
  have hids : ∀ e ∈ graphEntities body.ids, strip (e.2.getD "") = e.2.getD "" ∧ (e.2.getD "" = "" →
      (((Object.given body.metadata).lookup e.1).getD .null).truthy = false) := hplain
  simp only [graphEntities, List.forall_mem_cons, List.not_mem_nil, IsEmpty.forall_iff, implies_true, and_true] at hids
  obtain ⟨huser, hagent, happ, hrun⟩ := hids
  simp only [buildFiltersAndMetadata, bind_ok, Option.getD_some] at h
  obtain ⟨given, hgiven, h⟩ := h
  obtain rfl : given = keptIds project body.ids := by
    refine requestIds_kept (fun hempty => ?_) ?_ hgiven
    · rw [Payload.get, htemplate "app_id" (by decide)]
      exact happ.2 hempty
    · rw [Payload.get, hproject]
      rfl
  have hnodup : ((keptIds project body.ids).map Prod.fst).Nodup :=
    (by decide : ["user_id", "agent_id", "app_id", "run_id", "project_id"].Nodup)
  split at h
  · cases h
    have hlookup : ∀ key, Payload.get (Dict.update (storeMetadata W settings project body)
        (idFilters (givenIds (keptIds project body.ids)))) key =
        (((((keptIds project body.ids).lookup key).join).map Value.str).or
          ((storeMetadata W settings project body).lookup key)).getD .null := by
      intro key
      rw [Payload.get, Dict.lookup_update _ (unique_idFilters_givenIds hnodup), lookup_idFilters,
        lookup_givenIds hnodup]
    constructor
    · rw [hlookup]
      rfl
    · simp only [Payload.scopeTexts, hlookup, htemplate _ (show "user_id" ∈ graphKeys by decide),
        htemplate _ (show "agent_id" ∈ graphKeys by decide), htemplate _ (show "app_id" ∈ graphKeys by decide),
        htemplate _ (show "run_id" ∈ graphKeys by decide)]
      have htexts : graphScope (graphEntities body.ids) = ⟨body.ids.userId.getD "", body.ids.agentId.getD "",
        body.ids.appId.getD "", body.ids.runId.getD ""⟩ := rfl
      rw [htexts, ← @stored_text P _ _ huser.1 huser.2, ← @stored_text P _ _ hagent.1 hagent.2,
        ← @stored_text P _ _ happ.1 happ.2, ← @stored_text P _ _ hrun.1 hrun.2]
      rfl
  · cases h

end

end YiQiao
