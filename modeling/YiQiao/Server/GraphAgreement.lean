import YiQiao.Server.GraphScopes

/-!
# Runs that keep the graph in step

A careful request keeps the agreement of the graph with the store, and so does a run of them.
-/

namespace YiQiao

open Lib Fallible

variable {V S : Type}

/-! ## Steps that keep the agreement -/

section

variable {W : Writer V S} {R : EntityReader} {call : MemoryCall V} {w : SyncWorld V} {P : Platform}

theorem Clean.ok {α : Type} {x : Op V α} {s s' : MemoryState V} {condition : Prop} {a : α} (h : Clean x s condition)
    (hrun : x.run s = (.ok a, s')) : condition := by
  rw [Clean, hrun] at h
  exact h

theorem Clean.error {α : Type} {x : Op V α} {s s' : MemoryState V} {condition : Prop} {e : PyError}
    (h : Clean x s condition) (hrun : x.run s = (.error e, s')) : SameMemories s s' := by
  rw [Clean, hrun] at h
  exact h

/-- Another state with the same memories agrees as well. -/
theorem SyncWorld.Agreed.of_same (h : w.Agreed P) {memory : MemoryState V} (hsame : SameMemories w.memory memory) :
    SyncWorld.Agreed P ⟨memory, w.graph⟩ where
  nodes := by
    rw [hsame]
    exact h.nodes
  live := by
    rw [hsame]
    exact h.live

/-- New rows whose nodes are written as they stand keep the agreement. -/
theorem SyncWorld.Agreed.grow (h : w.Agreed P) {memory : MemoryState V} {new : List (Row V)}
    {upserts : List GraphUpsert} {projectId : String} {scope : GraphScope} (hrows : memory.memories.rows = w.memory.memories.rows ++ new)
    (hids : upserts.map GraphUpsert.memoryId = new.map Row.id)
    (hnew : ∀ row ∈ new, row.payload.projectId P = projectId ∧ row.payload.scopeTexts P = scope)
    (hupserts : ∀ upsert ∈ upserts, upsert.projectId = projectId ∧ upsert.scope = scope) :
    SyncWorld.Agreed P ⟨memory, upserts.foldl MemoryGraph.upsertMemory w.graph⟩ := by
  have hnamed : ∀ upsert ∈ upserts, upsert.memoryId ≠ "" := by
    intro upsert hupsert
    have hmem : upsert.memoryId ∈ new.map Row.id := hids ▸ List.mem_map_of_mem hupsert
    obtain ⟨row, hrow, hid⟩ := List.mem_map.mp hmem
    rw [← hid]
    exact memory.memories.named row (hrows ▸ List.mem_append_right _ hrow)
  have hkeys : (upserts.map fun upsert => (upsert.memoryId, upsert.node)).map Prod.fst = new.map Row.id := by
    rw [← hids, List.map_map]
    rfl
  have hunique := memory.memories.unique
  rw [hrows, List.map_append, List.nodup_append] at hunique
  constructor
  · intro row hrow
    rw [foldl_upsertMemory_memories hnamed]
    rw [hrows, List.mem_append] at hrow
    rcases hrow with hold | hrow
    · have hnotMem : row.id ∉ (upserts.map fun upsert => (upsert.memoryId, upsert.node)).map Prod.fst := by
        rw [hkeys]
        intro hmem
        exact hunique.2.2 row.id (List.mem_map_of_mem hold) row.id hmem rfl
      rw [write_of_notMem hnotMem]
      exact h.nodes row hold
    · have hmem : row.id ∈ (upserts.map fun upsert => (upsert.memoryId, upsert.node)).map Prod.fst := by
        rw [hkeys]
        exact List.mem_map_of_mem hrow
      have hnode := @map_write_of_mem String _ _ _ w.graph.memories _ _
        (fun node : MemoryNode => (node.projectId, node.scope)) (projectId, scope) hmem ?_
      · obtain ⟨node, hwritten, hread⟩ := Option.map_eq_some_iff.mp hnode
        obtain ⟨hproject, hscope⟩ := Prod.mk.inj hread
        obtain ⟨hproject', hscope'⟩ := hnew row hrow
        exact ⟨node, hwritten, hproject.trans hproject'.symm, hscope.trans hscope'.symm⟩
      · intro p hp _
        obtain ⟨upsert, hupsert, rfl⟩ := List.mem_map.mp hp
        exact Prod.ext (hupserts upsert hupsert).1 (hupserts upsert hupsert).2
  · intro m hm
    rw [hrows, List.map_append, List.mem_append]
    rw [foldl_upsertMemory_memories hnamed] at hm
    by_cases hmem : m ∈ new.map Row.id
    · exact .inr hmem
    · rw [write_of_notMem (hkeys ▸ hmem)] at hm
      exact .inl (h.live m hm)

/-- Deletions of the same memories on both sides keep the agreement. -/
theorem SyncWorld.Agreed.shrink (h : w.Agreed P) {memory : MemoryState V} {graph : MemoryGraph} {gone : String → Bool}
    (hrows : memory.memories.rows = w.memory.memories.rows.filter fun row => !gone row.id)
    (hnodes : ∀ m, graph.memories m = if gone m then none else w.graph.memories m) :
    SyncWorld.Agreed P ⟨memory, graph⟩ := by
  constructor
  · intro row hrow
    rw [hrows, List.mem_filter, Bool.not_eq_true'] at hrow
    rw [hnodes, hrow.2]
    exact h.nodes row hrow.1
  · intro m hm
    rw [hnodes] at hm
    cases hgone : gone m with
    | true => rw [hgone] at hm; cases hm
    | false =>
        rw [hgone] at hm
        obtain ⟨row, hrow, rfl⟩ := List.mem_map.mp (h.live m hm)
        rw [hrows]
        exact List.mem_map_of_mem (List.mem_filter.mpr ⟨hrow, by rw [hgone]; rfl⟩)

/-- A row that is rewritten in place with its node keeps the agreement. -/
theorem SyncWorld.Agreed.rewrite (h : w.Agreed P) {memory : MemoryState V} {graph : MemoryGraph} {id : String}
    {vector : Option V} {payload : Payload}
    (hrows : memory.memories = w.memory.memories.update id vector (some payload))
    (hlive : id ∈ w.memory.memories.rows.map Row.id) (hothers : ∀ m ≠ id, graph.memories m = w.graph.memories m)
    (hnode : ∃ node, graph.memories id = some node ∧ node.projectId = payload.projectId P ∧
      node.scope = payload.scopeTexts P) : SyncWorld.Agreed P ⟨memory, graph⟩ := by
  constructor
  · intro row hrow
    rw [hrows, Table.rows_update] at hrow
    obtain ⟨old, hold, rfl⟩ := List.mem_map.mp hrow
    by_cases hid : old.id = id
    · rw [if_pos hid]
      subst hid
      exact hnode
    · rw [if_neg hid, hothers old.id hid]
      exact h.nodes old hold
  · intro m hm
    rw [hrows, Table.ids_update]
    by_cases hid : m = id
    · exact hid ▸ hlive
    · rw [hothers m hid] at hm
      exact h.live m hm

end

/-! ## The routes -/

section

variable {W : Writer V S} {R : EntityReader} {call : MemoryCall V} {w : SyncWorld V}

/-- The graph hears of an added memory what its row carries. -/
theorem addedRow_told {settings : StoreSettings} {project : ProjectId} (body : CreateBody) (item : AddedMemory) :
    let upsert := (addedRow W body (storeMetadata W settings project body) item).prepare R W.platform
    upsert.projectId = project.text ∧ upsert.scope = graphScope (graphEntities body.ids) := by
  refine ⟨graphProject_of_get ?_, rfl⟩
  have hlookup : (addedMetadataForGraph W item (storeMetadata W settings project body)).lookup "project_id" =
      some (.str project.text) := by
    rw [addedMetadataForGraph, setCategories_lookup (by decide), Dict.lookup_erase_of_ne (by decide),
      storeMetadata_lookup (by decide), if_pos rfl]
  simp only [addedRow, Payload.get, hlookup, Option.getD_some]

theorem agreed_add [Score S] {body : CreateBody} (h : w.Agreed W.platform)
    (hcareful : namesSome body.ids = true →
      Clean (add W call.providers (storeRequest W call.settings call.project body)) w.memory body.Plain) :
    (addMemoryRoute W R call body w).Agreed W.platform := by
  rw [addMemoryRoute]
  split
  · exact h
  · rename_i hnames
    have hclean := hcareful (by simpa using hnames)
    cases hrun : (add W call.providers (storeRequest W call.settings call.project body)).run w.memory with
    | mk result memory => cases result with
      | error e => exact h.of_same (hclean.error hrun)
      | ok results =>
          have hgrows : Grows (fun row => row.payload.projectId W.platform = call.project.text ∧
              row.payload.scopeTexts W.platform = graphScope (graphEntities body.ids)) w.memory memory := by
            refine (add_grows fun metadata scope messages hprepared text payload hagrees id vector => ?_).of_ok hrun
            obtain ⟨stored, date, rfl, hbuild⟩ := prepareAdd_builds hprepared
            obtain ⟨hproject, hscope⟩ := @stored_scope _ _ _ _ _ _ W.platform _ _ (hclean.ok hrun) hbuild
            have hlookup : ∀ key ∈ sessionScopeKeys, payload.lookup key = stored.lookup key := by
              intro key hk
              rw [lookup_of_agrees hagrees hk, withExpiration_lookup hk]
            constructor
            · rw [projectId_congr (hlookup "project_id" (by decide))]
              exact projectId_of_get hproject
            · have hproper : ∀ key ∈ graphKeys, key ∈ sessionScopeKeys := by decide
              rw [scopeTexts_congr fun key hk => hlookup key (hproper key hk)]
              exact hscope
          obtain ⟨new, hrows, hids, hnew⟩ := (add_appended hrun).grown hgrows
          have hnamed : (results.map fun item => (addedRow W body (storeMetadata W call.settings call.project body)
              item).prepare R W.platform).map GraphUpsert.memoryId = new.map Row.id := by
            rw [hids, List.map_map]
            rfl
          have hfold := h.grow hrows hnamed hnew ?_
          · rwa [List.foldl_map] at hfold
          · intro upsert hupsert
            obtain ⟨item, _, rfl⟩ := List.mem_map.mp hupsert
            exact addedRow_told body item

/-- The project that is checked is that of the row. -/
theorem ensureMemoryProject_found {t : Table V} {memoryId : String} {project : ProjectId}
    (h : ensureMemoryProject W.platform t memoryId project = true) :
    ∃ row, t.get memoryId = some row ∧ row.payload.projectId W.platform = project.text := by
  rw [ensureMemoryProject] at h
  cases hget : t.get memoryId with
  | none => rw [hget] at h; cases h
  | some row =>
      rw [hget] at h
      cases hformat : formatItem row.id () row.payload with
      | error e => simp [hformat] at h
      | ok item =>
          simp only [hformat, decide_eq_true_eq] at h
          exact ⟨row, rfl, by rw [← memoryProjectId_of_format hformat, h]⟩

theorem metadataPatch_project {settings : StoreSettings} {project : ProjectId} {body : UpdateBody} {patch : Entries}
    (h : metadataPatch W settings project body = some patch) :
    patch.lookup "project_id" = some (.str project.text) := by
  obtain ⟨base, _, rfl⟩ := Option.map_eq_some_iff.mp h
  exact Dict.lookup_set_self _ _ _

theorem patchRequest_metadata (settings : StoreSettings) (project : ProjectId) (memoryId : String) (body : UpdateBody) :
    ((patchRequest W settings project memoryId body).metadata.map Object.entries) =
      metadataPatch W settings project body := by
  rw [patchRequest]
  split
  · rename_i hnone
    exact hnone.symm
  · rename_i patch hpatch
    exact hpatch.symm

/-- An update leaves the identifiers and the project as the patch has them. -/
theorem updated_lookup {settings : StoreSettings} {project : ProjectId} {memoryId text now key : String}
    {body : UpdateBody} {metadata : Option Entries} {embedded : Bool} {old : Payload}
    (hmerges : updateMetadata W (patchRequest W settings project memoryId body) = .ok metadata)
    (hk : key ∈ sessionScopeKeys) : (updatedPayload W now text metadata embedded old).lookup key =
      (patchedPayload W settings project body old).lookup key := by
  have hne : key ≠ "expiration_date" := by
    rintro rfl
    exact absurd hk (by decide)
  obtain ⟨hunique, hlookup⟩ := updateMetadata_lookup hmerges
  have hpatch : Dict.Unique ((metadataPatch W settings project body).getD []) := by
    cases hsome : metadataPatch W settings project body with
    | none => exact List.nodup_nil
    | some patch => exact (metadataPatch_wf W settings project body hsome).1
  rw [lookup_of_agrees updatedPayload_agrees hk, patchedPayload, Dict.lookup_update _ hunique, hlookup key hne,
    patchRequest_metadata, Dict.lookup_update _ hpatch]

theorem patchedPayload_project {settings : StoreSettings} {project : ProjectId} {body : UpdateBody} {old : Payload}
    (hold : old.projectId W.platform = project.text) :
    Payload.projectId W.platform (patchedPayload W settings project body old) = project.text := by
  rw [patchedPayload]
  cases hpatch : metadataPatch W settings project body with
  | none => exact hold
  | some patch =>
      apply projectId_of_get
      rw [Payload.get, Option.getD_some, Dict.lookup_update _ (metadataPatch_wf W settings project body hpatch).1,
        metadataPatch_project hpatch]
      rfl

/-- The metadata of the graph names the project that the item shows, else that of the fallback. -/
theorem memoryMetadataForGraph_lookup {item : MemoryItem Unit} (hunique : Dict.Unique item.metadata)
    (fallback : Entries) : (memoryMetadataForGraph W item fallback).lookup "project_id" =
      (item.metadata.lookup "project_id").or (fallback.lookup "project_id") := by
  rw [memoryMetadataForGraph, setCategories_lookup (by decide), Dict.lookup_erase_of_ne (by decide),
    Dict.lookup_update _ hunique, Dict.lookup_erase_of_ne (by decide)]

/-- What an update tells the graph of the project, where it tells nothing else of it. -/
def orOwnProject (project : ProjectId) (metadata : Entries) : Entries :=
  if metadata.isEmpty then [("project_id", .str project.text)] else metadata

theorem orOwnProject_project {project : ProjectId} {metadata : Entries} {P : Platform}
    (h : metadata ≠ [] → graphProject P metadata = project.text) :
    graphProject P (orOwnProject project metadata) = project.text := by
  rw [orOwnProject]
  cases metadata with
  | nil => exact graphProject_of_get rfl
  | cons e metadata => exact h (List.cons_ne_nil _ _)

theorem patch_project {settings : StoreSettings} {project : ProjectId} {body : UpdateBody} {P : Platform} :
    graphProject P (orOwnProject project ((metadataPatch W settings project body).getD [])) = project.text := by
  apply orOwnProject_project
  intro hne
  cases hpatch : metadataPatch W settings project body with
  | none => rw [hpatch] at hne; exact absurd rfl hne
  | some patch =>
      apply graphProject_of_get
      rw [Option.getD_some, Payload.get, metadataPatch_project hpatch]
      rfl

/-- The graph hears of an updated memory the project that its row has. -/
theorem patchedRow_project {settings : StoreSettings} {project : ProjectId} {memoryId : String} {body : UpdateBody}
    {t : Table V} {row : Row V} (hrow : t.get memoryId = some row) (hunique : Dict.Unique row.payload)
    (hproject : row.payload.projectId W.platform = project.text) :
    graphProject W.platform (patchedRow W settings project memoryId body t).metadata = project.text := by
  have htold : (patchedRow W settings project memoryId body t).metadata = orOwnProject project
      (body.text.join.elim ((formatItem row.id () row.payload).toOption.elim ((metadataPatch W settings project body).getD [])
        fun item => memoryMetadataForGraph W item ((metadataPatch W settings project body).getD []))
        fun _ => (metadataPatch W settings project body).getD []) := by
    rw [patchedRow, orOwnProject, hrow]
    cases body.text.join <;> cases hformat : (formatItem row.id () row.payload).toOption <;> simp [hformat]
  rw [htold]
  cases htext : body.text.join with
  | some text => exact patch_project
  | none => cases hformat : formatItem row.id () row.payload with
    | error e => exact patch_project
    | ok item =>
        have hitem : Dict.Unique item.metadata ∧
            item.metadata.lookup "project_id" = row.payload.lookup "project_id" := by
          simp only [formatItem, bind_ok, pure_ok] at hformat
          obtain ⟨_, _, _, _, _, _, _, _, rfl⟩ := hformat
          exact ⟨hunique.sublist (List.filter_sublist.map _),
            @lookup_filter_key (fun key => decide (key ∉ coreAndPromotedKeys)) "project_id" (by decide) row.payload⟩
        apply orOwnProject_project
        intro _
        have hmerged := @memoryMetadataForGraph_lookup _ _ W item hitem.1
          ((metadataPatch W settings project body).getD [])
        rw [hitem.2] at hmerged
        cases hpatch : metadataPatch W settings project body with
        | none =>
            rw [hpatch, Option.getD_none, List.lookup_nil, Option.or_none] at hmerged
            rw [← hproject, graphProject_eq]
            exact projectId_congr hmerged
        | some patch =>
            rw [hpatch, Option.getD_some, metadataPatch_project hpatch] at hmerged
            cases hlookup : row.payload.lookup "project_id" with
            | none =>
                apply graphProject_of_get
                change ((memoryMetadataForGraph W item patch).lookup "project_id").getD .null = _
                rw [hmerged, hlookup]
                rfl
            | some v =>
                rw [hlookup, Option.some_or, ← hlookup] at hmerged
                rw [← hproject, graphProject_eq]
                exact projectId_congr hmerged

theorem get_update {t : Table V} {row : Row V} (h : row ∈ t.rows) (vector : Option V) (payload : Option Payload) :
    (t.update row.id vector payload).get row.id = some (Table.updateRow vector payload row) := by
  have hmem : Table.updateRow vector payload row ∈ (t.update row.id vector payload).rows := by
    rw [Table.rows_update]
    exact List.mem_map.mpr ⟨row, h, if_pos rfl⟩
  exact Table.get_of_mem _ hmem

/-- The payloads have each key once. -/
def SyncWorld.Keyed (w : SyncWorld V) : Prop := ∀ row ∈ w.memory.memories.rows, Dict.Unique row.payload

theorem patchedPayload_untouched {settings : StoreSettings} {project : ProjectId} {body : UpdateBody}
    (h : body.touchesGraph = false) (payload : Payload) : patchedPayload W settings project body payload = payload := by
  simp only [UpdateBody.touchesGraph, Bool.or_eq_false_iff, Option.isSome_eq_false_iff, Option.isNone_iff_eq_none] at h
  simp [patchedPayload, metadataPatch, categorizedPatch, h.1.2, h.2, Dict.update]

theorem agreed_update [Score S] {memoryId : String} {body : UpdateBody} (h : w.Agreed W.platform) (hkeyed : w.Keyed)
    (hcareful : body.touchesGraph = true →
      Clean (update W call.providers (patchRequest W call.settings call.project memoryId body)) w.memory
        (∀ row, w.memory.memories.get memoryId = some row → row.payload.projectId W.platform = call.project.text →
          Payload.scopeTexts W.platform (patchedPayload W call.settings call.project body row.payload) =
            ⟨"", "", "", ""⟩)) :
    (updateMemoryRoute W R call memoryId body w).Agreed W.platform := by
  rw [updateMemoryRoute]
  split
  · exact h
  · rename_i hensure
    obtain ⟨row, hget, hproject⟩ := ensureMemoryProject_found (by simpa using hensure)
    obtain ⟨hrow, hid⟩ := Table.get_mem hget
    have hrewritten : ∀ {memory text metadata old},
        Rewritten W call.providers (patchRequest W call.settings call.project memoryId body) w.memory memory old text
          metadata → ∃ vector payload, memory.memories = w.memory.memories.update memoryId vector (some payload) ∧
            Dict.Unique payload ∧ ∀ key ∈ sessionScopeKeys, payload.lookup key =
              (patchedPayload W call.settings call.project body row.payload).lookup key := by
      intro memory text metadata old hrew
      obtain rfl : old = row := Option.some.inj (hrew.found.symm.trans hget)
      exact ⟨_, _, hid ▸ hrew.memories, unique_updatedPayload (hkeyed old hrow),
        fun key hk => updated_lookup hrew.merges hk⟩
    have hproper : ∀ key ∈ graphKeys, key ∈ sessionScopeKeys := by decide
    have hlive : memoryId ∈ w.memory.memories.rows.map Row.id := hid ▸ List.mem_map_of_mem hrow
    cases htouches : body.touchesGraph with
    | false =>
        have hafter : SyncWorld.Agreed W.platform ⟨((update W call.providers (patchRequest W call.settings call.project
            memoryId body)).run w.memory).2, w.graph⟩ := by
          rcases update_memories W call.providers (patchRequest W call.settings call.project memoryId body) w.memory
            with hsame | ⟨_, text, metadata, hrew⟩
          · exact h.of_same hsame
          · obtain ⟨vector, payload, hrows, -, hlookup⟩ := hrewritten hrew
            obtain ⟨node, hnode, hnodeProject, hnodeScope⟩ := h.nodes row hrow
            rw [patchedPayload_untouched htouches] at hlookup
            refine h.rewrite hrows hlive (fun _ _ => rfl) ⟨node, hid ▸ hnode, ?_, ?_⟩
            · rw [hnodeProject, projectId_congr (hlookup "project_id" (by decide))]
            · rw [hnodeScope, scopeTexts_congr fun key hk => hlookup key (hproper key hk)]
        cases hrun : (update W call.providers
          (patchRequest W call.settings call.project memoryId body)).run w.memory with
        | mk result memory =>
            rw [hrun] at hafter
            cases result <;> exact hafter
    | true =>
        have hclean := hcareful htouches
        cases hrun : (update W call.providers
          (patchRequest W call.settings call.project memoryId body)).run w.memory with
        | mk result memory => cases result with
          | error e => exact h.of_same (hclean.error hrun)
          | ok u =>
              obtain ⟨_, text, metadata, hrew⟩ := update_ok hrun
              obtain ⟨vector, payload, hrows, hunique, hlookup⟩ := hrewritten hrew
              have hpayload : payload.projectId W.platform = call.project.text := by
                rw [projectId_congr (hlookup "project_id" (by decide))]
                exact patchedPayload_project hproject
              have hnamed : memoryId ≠ "" := hid ▸ w.memory.memories.named row hrow
              have hnew : memory.memories.get memoryId = some (Table.updateRow vector (some payload) row) := by
                rw [hrows, ← hid]
                exact get_update hrow vector _
              refine h.rewrite hrows hlive (fun m hm => ?_) ?_
              · rw [upsertMemory_memories hnamed]
                exact Function.update_of_ne hm _ _
              · refine ⟨((patchedRow W call.settings call.project memoryId body memory.memories).prepare R
                  W.platform).node, ?_, ?_, ?_⟩
                · rw [upsertMemory_memories hnamed]
                  exact Function.update_self ..
                · exact (patchedRow_project hnew hunique hpayload).trans hpayload.symm
                · rw [scopeTexts_congr fun key hk => hlookup key (hproper key hk), hclean.ok hrun row hget hproject]
                  rfl

theorem delete_ok {memoryId : String} {O : Providers V} {s s' : MemoryState V}
    (h : (delete W O memoryId).run s = (.ok (), s')) : s'.memories = s.memories.delete memoryId := by
  simp only [delete, getMemory, Effect.run_bind_read] at h
  cases hget : s.memories.get memoryId with
  | none => simp [hget] at h
  | some row =>
      simp only [hget] at h
      rw [← (Table.get_mem hget).2]
      exact deleteRow_ok h

theorem agreed_delete {memoryId : String} (h : w.Agreed W.platform)
    (hcareful : Clean (delete W call.providers memoryId) w.memory True) :
    (deleteMemoryRoute W call memoryId w).Agreed W.platform := by
  rw [deleteMemoryRoute]
  split
  · exact h
  · cases hrun : (delete W call.providers memoryId).run w.memory with
    | mk result memory => cases result with
      | error e => exact h.of_same (hcareful.error hrun)
      | ok u =>
          have hrows : memory.memories.rows = w.memory.memories.rows.filter fun row => !decide (row.id = memoryId) := by
            rw [delete_ok hrun, Table.rows_delete]
            simp
          exact @SyncWorld.Agreed.shrink _ _ _ h _ _ (fun m => decide (m = memoryId)) hrows fun m => rfl

/-- A row of the page is one that the scope covers. -/
theorem survivors_covered {scope : DeleteScope} {P : Platform} {t : Table V}
    (hfits : (scope.covered P t).length ≤ defaultListLimit) {row : Row V} (hrow : row ∈ t.rows) :
    row.id ∈ ((scope.covered P t).take defaultListLimit).map Row.id ↔ scope.covers P row.payload = true := by
  rw [List.take_of_length_le hfits]
  exact Table.id_mem_filter hrow

theorem agreed_deleteAll {ids : AddIds} (h : w.Agreed W.platform)
    (hcareful : namesSome ids = true → Clean (deleteAll W call.providers (routeScope call.project ids)) w.memory
      (((routeScope call.project ids).covered W.platform w.memory.memories).length ≤ defaultListLimit ∧
        ∀ row ∈ w.memory.memories.rows, (routeScope call.project ids).covers W.platform row.payload =
          (decide (row.payload.projectId W.platform = call.project.text) &&
            (routeFilters ids).match (row.payload.scopeTexts W.platform)))) :
    (deleteAllRoute W call ids w).Agreed W.platform := by
  rw [deleteAllRoute]
  split
  · exact h
  · rename_i hnames
    have hclean := hcareful (by simpa using hnames)
    cases hrun : (deleteAll W call.providers (routeScope call.project ids)).run w.memory with
    | mk result memory => cases result with
      | error e => exact h.of_same (hclean.error hrun)
      | ok u =>
          obtain ⟨hfits, hselects⟩ := hclean.ok hrun
          have hrows : memory.memories.rows = w.memory.memories.rows.filter fun row =>
              !(w.graph.memories row.id).any fun node =>
                decide (node.projectId = call.project.text) && (routeFilters ids).match node.scope := by
            rw [deleteAll_ok hrun, survivors]
            refine List.filter_congr fun row hrow => ?_
            obtain ⟨node, hnode, hproject, hscope⟩ := h.nodes row hrow
            rw [hnode, Option.any_some, hproject, hscope, ← hselects row hrow, Bool.eq_iff_iff, decide_eq_true_iff,
              Bool.not_eq_true', ← Bool.not_eq_true]
            exact not_congr (survivors_covered hfits hrow)
          exact @SyncWorld.Agreed.shrink _ _ _ h _ _ (fun m => (w.graph.memories m).any fun node =>
            decide (node.projectId = call.project.text) && (routeFilters ids).match node.scope) hrows fun m => rfl

theorem agreed_deleteEntity {type : EntityType} {id : String} (h : w.Agreed W.platform)
    (hcareful : ∀ row ∈ w.memory.memories.rows,
      (entityScope call.project type id).covers W.platform row.payload = false) :
    (deleteEntityRoute W call type id w).Agreed W.platform := by
  apply h.of_same
  rw [deleteAll]
  cases hids : trimIds (entityScope call.project type id).ids with
  | error e => rfl
  | ok ids =>
      have hnone : (entityScope call.project type id).covered W.platform w.memory.memories = [] := by
        rw [DeleteScope.covered, List.filter_eq_nil_iff]
        intro row hrow
        rw [hcareful row hrow]
        exact Bool.false_ne_true
      have hlist := @list_scope _ W.platform _ _ hids w.memory.memories defaultListLimit
      rw [hnone] at hlist
      simp only [Effect.run_bind, Effect.run_lift]
      split
      · rfl
      · simp only [Effect.run_bind, Effect.run_lift, Effect.run_read, hlist]
        rfl

end

/-! ## Runs -/

section

variable [Score S] {W : Writer V S} {R : EntityReader} {call : MemoryCall V} {w : SyncWorld V}

theorem agreed_step (h : w.Agreed W.platform) (hkeyed : w.Keyed) (hcareful : call.Careful W w) :
    (call.after W R w).Agreed W.platform := by
  rw [MemoryCall.Careful] at hcareful
  rw [MemoryCall.after]
  cases hrequest : call.request with
  | add body =>
      rw [hrequest] at hcareful
      exact agreed_add h hcareful
  | update memoryId body =>
      rw [hrequest] at hcareful
      exact agreed_update h hkeyed hcareful
  | delete memoryId =>
      rw [hrequest] at hcareful
      exact agreed_delete h hcareful
  | deleteAll ids =>
      rw [hrequest] at hcareful
      exact agreed_deleteAll h hcareful
  | deleteEntity type id =>
      rw [hrequest] at hcareful
      exact agreed_deleteEntity h hcareful

/-- A route leaves the memories alone, or as the operation that it calls leaves them. -/
theorem after_memory : (call.after W R w).memory = w.memory ∨ match call.request with
    | .add body => (call.after W R w).memory =
        ((add W call.providers (storeRequest W call.settings call.project body)).run w.memory).2
    | .update memoryId body => (call.after W R w).memory =
        ((update W call.providers (patchRequest W call.settings call.project memoryId body)).run w.memory).2
    | .delete memoryId => (call.after W R w).memory = ((delete W call.providers memoryId).run w.memory).2
    | .deleteAll ids => (call.after W R w).memory =
        ((deleteAll W call.providers (routeScope call.project ids)).run w.memory).2
    | .deleteEntity type id => (call.after W R w).memory =
        ((deleteAll W call.providers (entityScope call.project type id)).run w.memory).2 := by
  rw [MemoryCall.after]
  cases hrequest : call.request with
  | add body =>
      simp only [addMemoryRoute]
      split
      · exact .inl rfl
      · right
        split <;> simp [*]
  | update memoryId body =>
      simp only [updateMemoryRoute]
      split
      · exact .inl rfl
      · right
        split
        · simp [*]
        · split <;> simp [*]
  | delete memoryId =>
      simp only [deleteMemoryRoute]
      split
      · exact .inl rfl
      · right
        split <;> simp [*]
  | deleteAll ids =>
      simp only [deleteAllRoute]
      split
      · exact .inl rfl
      · right
        split <;> simp [*]
  | deleteEntity type id => exact .inr rfl

theorem keyed_of_shrinks {s s' : MemoryState V} (hs : ∀ row ∈ s.memories.rows, Dict.Unique row.payload)
    (h : Shrinks s s') : ∀ row ∈ s'.memories.rows, Dict.Unique row.payload :=
  fun row hrow => hs row (h.subset hrow)

theorem keyed_step (hkeyed : w.Keyed) : (call.after W R w).Keyed := by
  rcases @after_memory V S _ W R call w with hsame | hafter
  · rw [SyncWorld.Keyed, hsame]
    exact hkeyed
  · cases hrequest : call.request with
    | add body =>
        rw [hrequest] at hafter
        obtain ⟨new, hrows, hnew⟩ := @add_unique V S W call.providers _
          (storeRequest W call.settings call.project body) w.memory
        rw [SyncWorld.Keyed, hafter, hrows]
        intro row hrow
        rcases List.mem_append.mp hrow with hold | hrow
        · exact hkeyed row hold
        · exact hnew row hrow
    | update memoryId body =>
        rw [hrequest] at hafter
        rw [SyncWorld.Keyed, hafter]
        rcases update_memories W call.providers (patchRequest W call.settings call.project memoryId body) w.memory
          with hsame | ⟨old, text, metadata, hrewritten⟩
        · rw [hsame]
          exact hkeyed
        · rw [hrewritten.memories, Table.rows_update]
          intro row hrow
          obtain ⟨before, hbefore, rfl⟩ := List.mem_map.mp hrow
          split
          · exact unique_updatedPayload (hkeyed old (Table.get_mem hrewritten.found).1)
          · exact hkeyed before hbefore
    | delete memoryId =>
        rw [hrequest] at hafter
        rw [SyncWorld.Keyed, hafter]
        exact keyed_of_shrinks hkeyed (delete_within W call.providers memoryId w.memory)
    | deleteAll ids =>
        rw [hrequest] at hafter
        rw [SyncWorld.Keyed, hafter]
        exact keyed_of_shrinks hkeyed (deleteAll_within W call.providers _ w.memory)
    | deleteEntity type id =>
        rw [hrequest] at hafter
        rw [SyncWorld.Keyed, hafter]
        exact keyed_of_shrinks hkeyed (deleteAll_within W call.providers _ w.memory)

theorem agreed_run {calls done : List (MemoryCall V)} (h : w.Agreed W.platform) (hkeyed : w.Keyed)
    (hcareful : w.Careful W R calls) (hdone : done <+: calls) : (w.run W R done).Agreed W.platform := by
  induction done generalizing w calls with
  | nil => exact h
  | cons call done ih =>
      obtain ⟨rest, rfl⟩ := hdone
      exact ih (agreed_step h hkeyed hcareful.1) (keyed_step hkeyed) hcareful.2 (List.prefix_append done rest)

theorem agreed_start (P : Platform) : (SyncWorld.start : SyncWorld V).Agreed P where
  nodes := by
    intro row hrow
    cases hrow
  live := by
    intro m hm
    cases hm

end

def plainSettings : StoreSettings := ⟨[], none, none, false⟩

/-- A request in the default project, with providers of which none answers. -/
def plainCall (request : MemoryRequest) : MemoryCall Unit := ⟨.default, plainSettings, .silent "now", request⟩

/-- `{"messages": "tea", "user_id": "u"}` -/
def teaBody : CreateBody where
  messages := .str "tea"
  ids := ⟨some "u", none, none, none⟩
  metadata := none
  categories := none
  createdAt := none
  expirationDate := none
  infer := none
  memoryType := none
  prompt := none
  preVectorWrite := fun _ => .ok ()

/-- The id of the memory that `teaBody` leaves. -/
def teaId : String := "project_id=default-project&user_id=u\x00tea"

end YiQiao
