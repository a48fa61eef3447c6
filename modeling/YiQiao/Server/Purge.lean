import YiQiao.Import.Fence
import YiQiao.Memory.Purge
import YiQiao.Server.Routes

/-!
# Deleting a project

The route that deletes a project purges the stores of the server before it takes the project out of the workspace.
-/

namespace YiQiao

open Lib Filters

variable {V S : Type}

/-! ## The stores of the server -/

/-- A row of `api_keys`, `webhooks` or `request_logs`. -/
structure ProjectRow where
  id : String
  projectId : Option String

/-- A row of `quota_policies`. -/
structure PolicyRow where
  id : String
  scopeType : String
  scopeId : String
  projectId : String

/-- `settings` are the rows of the settings table besides the workspace document. -/
structure ServerState (V : Type) where
  memory : MemoryState V
  document : Document
  apiKeys : List ProjectRow
  webhooks : List ProjectRow
  requestLogs : List ProjectRow
  policies : List PolicyRow
  settings : Entries
  imports : Database

inductive RequestError where
  | http (error : HttpError)
  | raised (error : PyError)

abbrev ServerOp (V α : Type) := Effect RequestError (ServerState V) α

/-- An operation of the memory. -/
def onMemory {α : Type} (x : Op V α) : ServerOp V α :=
  ⟨fun s => ((x.run s.memory).1.mapError .raised, { s with memory := (x.run s.memory).2 })⟩

/-! ## The route -/

def ProjectRow.isOf (projectId : String) (row : ProjectRow) : Bool := row.projectId = some projectId

def PolicyRow.isOf (projectId : String) (row : PolicyRow) : Bool :=
  row.projectId = projectId || (row.scopeType = "project" && row.scopeId = projectId)

/-- `isinstance(item, dict) and item.get("project_id") == project_id`. -/
def exportOf (projectId : String) : Value → Bool
  | .dict item => (Payload.get item "project_id").isText projectId
  | _ => false

def exportsKey : String := "memory_exports"

/-- What `_purge_project_resources` deletes from the database of the server. -/
def dropProjectRows (projectId : String) (s : ServerState V) : ServerState V :=
  { s with
    apiKeys := Lib.deleteRows (ProjectRow.isOf projectId) s.apiKeys
    webhooks := Lib.deleteRows (ProjectRow.isOf projectId) s.webhooks
    requestLogs := Lib.deleteRows (ProjectRow.isOf projectId) s.requestLogs
    policies := Lib.deleteRows (PolicyRow.isOf projectId) s.policies
    settings := match (s.settings.lookup exportsKey).getD (.list []) with
      | .list exports => Dict.set exportsKey (.list (Lib.deleteRows (exportOf projectId) exports)) s.settings
      | _ => s.settings }

/-- `_purge_project_resources`. -/
def purgeProjectResources (W : Writer V S) (O : Providers V) (projectId : String) : ServerOp V Unit := do
  onMemory (purgeProjectMemories W O projectId)
  Effect.modify (dropProjectRows projectId)

/-- `DELETE /organizations/{org_id}/projects/{project_id}/` on the whole server. -/
def deleteProjectRequest (W : Writer V S) (O : Providers V) (L : Lowering) (caller : Caller)
    (orgId projectId : ScopeId) : ServerOp V Unit := do
  let document ← Effect.read ServerState.document
  let answer ← Effect.lift ((deleteProjectRoute L caller document orgId projectId).mapError .http)
  purgeProjectResources W O projectId.val
  Effect.modify fun s => { s with document := answer.stored.getD s.document }

/-! ## What belongs to a project -/

def Row.KeyedBy (P : Platform) (projectId : String) (row : Row V) : Prop :=
  row.payload.text P "project_id" = some projectId

/-- The record names the project, or it names none and the memory is one of the project's. -/
def Trace.KeyedBy (P : Platform) (rows : List (Row V)) (projectId : String) (trace : Trace) : Prop :=
  trace.2.isText projectId = true ∨ trace.2 = .null ∧ ∃ row ∈ rows, row.id = trace.1 ∧ row.KeyedBy P projectId

/-- The message was saved in a scope of the project. -/
def SavedMessage.KeyedBy (projectId : String) (m : SavedMessage) : Prop :=
  ∃ scope : ScopeIds, buildSessionScope scope = m.scope ∧ scope.lookup "project_id" = some projectId

/-- `_feedback_key`. -/
def feedbackKey (projectId memoryId : String) : String := "memory_feedback:" ++ projectId ++ ":" ++ memoryId

def feedbackOf (projectId : String) (e : String × Value) : Prop := ∃ memoryId, e.1 = feedbackKey projectId memoryId

/-- `get_json(db, "memory_exports", [])`. -/
def exportsIn (settings : Entries) : List Value :=
  match settings.lookup exportsKey with
  | some (.list exports) => exports
  | _ => []

/-- The projects of the rows that imports leave. -/
def Database.projectIds (db : Database) : List String :=
  db.jobs.map JobRow.projectId ++ db.chunks.map ChunkRow.projectId ++ db.manifests.map ManifestRow.projectId ++
    db.hashes.map HashRow.projectId

section

variable (L : Lowering) (P : Platform) (projectId : String) (s : ServerState V)

def Ours {α : Type} (keyed : String → α → Prop) (a : α) : Prop := ∃ id ∈ storageProjectIds projectId, keyed id a

/-- Something is keyed by another project of the workspace, or by the playground of one. -/
def Theirs {α : Type} (keyed : String → α → Prop) (a : α) : Prop :=
  ∃ other ∈ (normalizeDocument L s.document).projects, other.id.val ≠ projectId ∧ Ours other.id.val keyed a

/-- Nothing of the project is left in a table, and nothing of another project went. -/
def Clears {α : Type} (keyed : String → α → Prop) (before after : List α) : Prop :=
  Swept (Ours projectId keyed) (Theirs L projectId s keyed) before after

/-- What is hit in a table is all of the project, and nothing of another project. -/
def Hits {α : Type} (keyed : String → α → Prop) (before : List α) (hit : α → Prop) : Prop :=
  ∀ a ∈ before, (Ours projectId keyed a → hit a) ∧ (Theirs L projectId s keyed a → ¬ hit a)

/-- Nothing keyed by the project or its playground is left, and what is another project's is still there. -/
structure ProjectDeleted (s' : ServerState V) : Prop where
  memories : Clears L projectId s (Row.KeyedBy P) s.memory.memories.rows s'.memory.memories.rows
  history : Clears L projectId s (fun id (r : HistoryRecord) => r.trace.KeyedBy P s.memory.memories.rows id)
    s.memory.history s'.memory.history
  messages : Clears L projectId s SavedMessage.KeyedBy s.memory.messages s'.memory.messages
  apiKeys : Clears L projectId s (fun id row => row.projectId = some id) s.apiKeys s'.apiKeys
  webhooks : Clears L projectId s (fun id row => row.projectId = some id) s.webhooks s'.webhooks
  requestLogs : Clears L projectId s (fun id row => row.projectId = some id) s.requestLogs s'.requestLogs
  policies : Clears L projectId s (fun id row => PolicyRow.isOf id row = true) s.policies s'.policies
  exports : Clears L projectId s (fun id item => exportOf id item = true) (exportsIn s.settings) (exportsIn s'.settings)
  imports : Clears L projectId s (fun id (of : String) => of = id) s.imports.projectIds s'.imports.projectIds
  feedback : Clears L projectId s feedbackOf s.settings s'.settings
  projects : Swept (fun p : ProjectRecord => p.id.val = projectId) (fun p => p.id.val ≠ projectId)
    (normalizeDocument L s.document).document.projects s'.document.projects

/-- The entity records of the project are gone, and those of other projects are still there. -/
structure EntitiesDeleted (s' : ServerState V) : Prop where
  gone : ∀ e ∈ s'.memory.entities.rows, ¬ Ours projectId (Row.KeyedBy P) e
  kept : ∀ e ∈ s.memory.entities.rows, Theirs L projectId s (Row.KeyedBy P) e →
    ∃ e' ∈ s'.memory.entities.rows, e'.id = e.id

/-! ## When a project can be deleted -/

def ServerState.purged : List (Row V) := purgedMemories P projectId s.memory.memories.rows

/-- The history is deleted in one of the two rounds. -/
def ServerState.erasesTrace (trace : Trace) : Prop :=
  erasedFirst P projectId s.memory.memories.rows trace = true ∨
    erasedSecond P projectId s.memory.memories.rows trace = true

/-- The memories of the project stand on the first pages of its two ids, its history and messages are found by these
ids or by its memories, nothing else is keyed by the playground, nothing was imported, no memory has feedback, and
whatever is another project's is neither listed nor named so. -/
structure ProjectDeletable : Prop where
  memories : Hits L projectId s (Row.KeyedBy P) s.memory.memories.rows (· ∈ s.purged P projectId)
  history : Hits L projectId s (fun id (r : HistoryRecord) => r.trace.KeyedBy P s.memory.memories.rows id)
    s.memory.history fun r => s.erasesTrace P projectId r.trace
  /-- The records that the deletion writes itself. -/
  written : ∀ row ∈ purgePage P projectId s.memory.memories.rows,
    Ours projectId (Trace.KeyedBy P s.memory.memories.rows) row.trace → s.erasesTrace P projectId row.trace
  messages : Hits L projectId s SavedMessage.KeyedBy s.memory.messages (erasesMessage projectId · = true)
  apiKeys : Hits L projectId s (fun id row => row.projectId = some id) s.apiKeys (·.projectId = some projectId)
  webhooks : Hits L projectId s (fun id row => row.projectId = some id) s.webhooks (·.projectId = some projectId)
  requestLogs : Hits L projectId s (fun id row => row.projectId = some id) s.requestLogs (·.projectId = some projectId)
  policies : Hits L projectId s (fun id row => PolicyRow.isOf id row = true) s.policies
    (PolicyRow.isOf projectId · = true)
  exports : Hits L projectId s (fun id item => exportOf id item = true) (exportsIn s.settings)
    (exportOf projectId · = true)
  imports : ∀ id ∈ storageProjectIds projectId, id ∉ s.imports.projectIds
  feedback : ∀ e ∈ s.settings, ¬ Ours projectId feedbackOf e

/-- The entity collection is open, and the records of the project, and of no other, link only memories that go. -/
def EntitiesDeletable (O : Providers V) : Prop :=
  ∀ e ∈ s.memory.entities.rows,
    (Ours projectId (Row.KeyedBy P) e →
      s.memory.entityStoreOpen = true ∧ Orphaned P O (s.purged P projectId) e) ∧
    (Theirs L projectId s (Row.KeyedBy P) e →
      ¬ (s.memory.entityStoreOpen = true ∧ Orphaned P O (s.purged P projectId) e))

end

/-! ## What the request does -/

theorem onMemory_ok {α : Type} {x : Op V α} {a : α} {s s' : ServerState V}
    (h : (onMemory x).run s = (.ok a, s')) :
    ∃ m, x.run s.memory = (.ok a, m) ∧ s' = { s with memory := m } := by
  simp only [onMemory, Prod.mk.injEq] at h
  obtain ⟨hresult, rfl⟩ := h
  rcases hx : x.run s.memory with ⟨result, m⟩
  rw [hx] at hresult
  cases result with
  | error e => cases hresult
  | ok b =>
      cases hresult
      exact ⟨m, rfl, rfl⟩

theorem deleteProjectRequest_ok {W : Writer V S} {O : Providers V} {L : Lowering} {caller : Caller}
    {orgId projectId : ScopeId} {s s' : ServerState V}
    (h : (deleteProjectRequest W O L caller orgId projectId).run s = (.ok (), s')) :
    ∃ m, ProjectPurged W O projectId.val s.memory m ∧ projectId ≠ defaultProject.id ∧
      s' = { dropProjectRows projectId.val { s with memory := m } with
        document := (deleteProject L s.document projectId).document } := by
  simp only [deleteProjectRequest, Effect.run_bind_read, Effect.bind_ok, Effect.lift_ok] at h
  obtain ⟨answer, _, ⟨hanswer, rfl⟩, _, t, hpurge, hend⟩ := h
  simp only [purgeProjectResources, Effect.bind_ok] at hpurge
  obtain ⟨_, u, hmemory, hrows⟩ := hpurge
  obtain ⟨m, hm, rfl⟩ := onMemory_ok hmemory
  cases hrows
  cases hend
  rw [deleteProjectRoute] at hanswer
  simp only [Except.mapError] at hanswer
  split at hanswer
  · cases hanswer
  · rename_i answer' hroute
    cases hanswer
    simp only [Fallible.bind_ok, Fallible.pure_ok, require] at hroute
    obtain ⟨_, _, _, _, _, hdefault, rfl⟩ := hroute
    split at hdefault
    · exact ⟨m, purgeProjectMemories_ok hm, ‹_›, rfl⟩
    · cases hdefault

/-! ## Table by table -/

section

variable {L : Lowering} {P : Platform} {projectId : String} {s : ServerState V} {α : Type}
  {keyed : String → α → Prop} {rows : List α}

theorem clears_deleteRows {hit : α → Bool} :
    Clears L projectId s keyed rows (Lib.deleteRows hit rows) ↔ Hits L projectId s keyed rows (hit · = true) := by
  rw [Clears, swept_deleteRows, Hits]
  simp only [Bool.not_eq_true]

theorem hits_congr {hit hit' : α → Prop} (h : ∀ a ∈ rows, hit a ↔ hit' a) :
    Hits L projectId s keyed rows hit ↔ Hits L projectId s keyed rows hit' := by
  refine forall₂_congr fun a ha => ?_
  rw [h a ha]

theorem purgePage_mem {rows : List (Row V)} {row : Row V} (h : row ∈ purgePage P projectId rows) :
    row ∈ rows ∧ idMatches P row.payload "project_id" (strip projectId) = true :=
  List.mem_filter.mp (List.mem_of_mem_take h)

theorem purged_mem {rows : List (Row V)} {row : Row V} (h : row ∈ purgedMemories P projectId rows) : row ∈ rows := by
  rcases List.mem_append.mp h with h | h
  · exact (purgePage_mem h).1
  · exact List.mem_of_mem_filter (purgePage_mem h).1

theorem memories_cleared_iff {m : MemoryState V}
    (h : m.memories.rows = survivors s.memory.memories.rows (s.purged P projectId)) :
    Clears L projectId s (Row.KeyedBy P) s.memory.memories.rows m.memories.rows ↔
      Hits L projectId s (Row.KeyedBy P) s.memory.memories.rows (· ∈ s.purged P projectId) := by
  have hrows : m.memories.rows = Lib.deleteRows
      (fun row => decide (row.id ∈ (s.purged P projectId).map Row.id)) s.memory.memories.rows := by
    rw [h, survivors, Lib.deleteRows]
    exact List.filter_congr fun row _ => decide_not
  rw [hrows, clears_deleteRows]
  refine hits_congr fun row hrow => ?_
  rw [decide_eq_true_eq]
  constructor
  · intro hid
    obtain ⟨row', hrow', hid⟩ := List.mem_map.mp hid
    rwa [← Table.eq_of_id (purged_mem hrow') hrow hid]
  · exact fun hmem => List.mem_map_of_mem hmem

/-- What the second round writes it deletes again, where the project or another one would keep it. -/
theorem second_erased {rows table : List (Row V)} {row : Row V} {id : String} {memoryIds : List String}
    (h : row ∈ purgePage P (playgroundProjectId projectId) table) (hkeyed : Trace.KeyedBy P rows id row.trace) :
    row.trace.isOf (strip (playgroundProjectId projectId)) memoryIds = true := by
  have hmatch := (purgePage_mem h).2
  rw [idMatches, if_neg (strip_playground_ne_star projectId), beq_iff_eq, Payload.text] at hmatch
  have hget : row.trace.2 = (row.payload.lookup "project_id").getD .null := rfl
  rw [Trace.isOf, hget]
  rw [Trace.KeyedBy, hget] at hkeyed
  cases hlookup : row.payload.lookup "project_id" with
  | none =>
      rw [hlookup] at hmatch
      cases hmatch
  | some value =>
      rw [hlookup, Option.bind_some] at hmatch
      rw [hlookup, Option.getD_some] at hkeyed
      rcases hkeyed with htext | ⟨hnull, _⟩
      · cases value with
        | str text =>
            have hid : text = strip (playgroundProjectId projectId) := Option.some.inj hmatch
            simp [Value.isText, hid]
        | _ => cases htext
      · rw [hnull] at hmatch
        cases hmatch

theorem history_cleared_iff {before after first second : List HistoryRecord}
    (hfirst : first.map HistoryRecord.trace = (purgePage P projectId s.memory.memories.rows).map Row.trace)
    (hsecond : second.map HistoryRecord.trace = (purgePage P (playgroundProjectId projectId)
      (afterPurgePage P projectId s.memory.memories.rows)).map Row.trace)
    (hafter : after = Lib.deleteRows (fun r => erasedSecond P projectId s.memory.memories.rows r.trace)
      (Lib.deleteRows (fun r => erasedFirst P projectId s.memory.memories.rows r.trace) (before ++ first) ++ second)) :
    Clears L projectId s (fun id (r : HistoryRecord) => r.trace.KeyedBy P s.memory.memories.rows id) before after ↔
      Hits L projectId s (fun id (r : HistoryRecord) => r.trace.KeyedBy P s.memory.memories.rows id) before
          (fun r => s.erasesTrace P projectId r.trace) ∧
        ∀ row ∈ purgePage P projectId s.memory.memories.rows,
          Ours projectId (Trace.KeyedBy P s.memory.memories.rows) row.trace → s.erasesTrace P projectId row.trace := by
  have hgone : ∀ r ∈ second, ∀ id, r.trace.KeyedBy P s.memory.memories.rows id →
      erasedSecond P projectId s.memory.memories.rows r.trace = true := by
    intro r hr id hkeyed
    have htrace : r.trace ∈ second.map HistoryRecord.trace := List.mem_map_of_mem hr
    rw [hsecond] at htrace
    obtain ⟨row, hrow, htrace⟩ := List.mem_map.mp htrace
    rw [← htrace] at hkeyed ⊢
    exact second_erased hrow hkeyed
  -- what is keyed stays exactly where neither round erases it
  have hleft : ∀ r id, r.trace.KeyedBy P s.memory.memories.rows id →
      (r ∈ after ↔ (r ∈ before ∨ r ∈ first) ∧ ¬ s.erasesTrace P projectId r.trace) := by
    intro r id hkeyed
    rw [hafter, mem_deleteRows, List.mem_append, mem_deleteRows, List.mem_append, ServerState.erasesTrace, not_or,
      Bool.not_eq_true, Bool.not_eq_true]
    constructor
    · rintro ⟨⟨hmem, hone⟩ | hmem, htwo⟩
      · exact ⟨hmem, hone, htwo⟩
      · rw [hgone r hmem id hkeyed] at htwo
        cases htwo
    · rintro ⟨hmem, hone, htwo⟩
      exact ⟨.inl ⟨hmem, hone⟩, htwo⟩
  constructor
  · intro h
    refine ⟨fun r hr => ⟨fun hours => ?_, fun htheirs => ?_⟩, fun row hrow hours => ?_⟩
    · obtain ⟨id, _, hkeyed⟩ := id hours
      by_contra hne
      exact h.gone r ((hleft r id hkeyed).mpr ⟨.inl hr, hne⟩) hours
    · obtain ⟨_, _, _, id, _, hkeyed⟩ := id htheirs
      exact ((hleft r id hkeyed).mp (h.kept r hr htheirs)).2
    · have htrace : row.trace ∈ first.map HistoryRecord.trace := hfirst ▸ List.mem_map_of_mem hrow
      obtain ⟨r, hr, htrace⟩ := List.mem_map.mp htrace
      rw [← htrace] at hours ⊢
      obtain ⟨id, _, hkeyed⟩ := id hours
      by_contra hne
      exact h.gone r ((hleft r id hkeyed).mpr ⟨.inr hr, hne⟩) hours
  · rintro ⟨hhits, hwritten⟩
    constructor
    · intro r hr hours
      obtain ⟨id, _, hkeyed⟩ := id hours
      obtain ⟨hmem | hmem, hne⟩ := (hleft r id hkeyed).mp hr
      · exact hne ((hhits r hmem).1 hours)
      · have htrace : r.trace ∈ first.map HistoryRecord.trace := List.mem_map_of_mem hmem
        rw [hfirst] at htrace
        obtain ⟨row, hrow, htrace⟩ := List.mem_map.mp htrace
        rw [← htrace] at hne
        exact hne (hwritten row hrow (htrace ▸ hours))
    · intro r hr htheirs
      obtain ⟨_, _, _, id, _, hkeyed⟩ := id htheirs
      exact (hleft r id hkeyed).mpr ⟨.inl hr, (hhits r hr).2 htheirs⟩

theorem exportsIn_drop : exportsIn (dropProjectRows projectId s).settings =
    Lib.deleteRows (exportOf projectId) (exportsIn s.settings) := by
  simp only [dropProjectRows, exportsIn]
  cases hlookup : s.settings.lookup exportsKey with
  | none =>
      rw [Option.getD_none]
      dsimp only
      rw [Dict.lookup_set, if_pos rfl]
  | some value =>
      rw [Option.getD_some]
      cases value with
      | list exports =>
          dsimp only
          rw [Dict.lookup_set, if_pos rfl]
      | _ =>
          dsimp only
          rw [hlookup]
          rfl

theorem feedbackKey_ne (projectId memoryId : String) : feedbackKey projectId memoryId ≠ exportsKey := by
  intro h
  have hkey : feedbackKey projectId memoryId = "memory_feedback:" ++ projectId ++ ":" ++ memoryId := rfl
  have htext := congrArg String.toList (hkey.symm.trans h)
  rw [String.toList_append, String.toList_append, List.append_assoc, String.toList_append, List.append_assoc] at htext
  have hprefix : "memory_feedback:".toList <+: exportsKey.toList := htext ▸ List.prefix_append _ _
  revert hprefix
  decide

/-- The other settings stay as they are. -/
theorem mem_settings_drop {e : String × Value} (hkey : e.1 ≠ exportsKey) :
    e ∈ (dropProjectRows projectId s).settings ↔ e ∈ s.settings := by
  simp only [dropProjectRows]
  split
  · exact Dict.mem_set_of_ne hkey
  · exact Iff.rfl

theorem feedback_cleared_iff :
    Clears L projectId s feedbackOf s.settings (dropProjectRows projectId s).settings ↔
      ∀ e ∈ s.settings, ¬ Ours projectId feedbackOf e := by
  have hsame : ∀ {e : String × Value} {id : String}, feedbackOf id e →
      (e ∈ (dropProjectRows projectId s).settings ↔ e ∈ s.settings) := by
    rintro e id ⟨memoryId, hkey⟩
    exact mem_settings_drop (hkey ▸ feedbackKey_ne id memoryId)
  constructor
  · intro h e he hours
    obtain ⟨id, _, hkeyed⟩ := id hours
    exact h.gone e ((hsame hkeyed).mpr he) hours
  · intro h
    constructor
    · intro e he hours
      obtain ⟨id, _, hkeyed⟩ := id hours
      exact h e ((hsame hkeyed).mp he) hours
    · intro e he htheirs
      obtain ⟨_, _, _, id, _, hkeyed⟩ := id htheirs
      exact (hsame hkeyed).mpr he

theorem imports_cleared_iff :
    Clears L projectId s (fun id (of : String) => of = id) s.imports.projectIds s.imports.projectIds ↔
      ∀ id ∈ storageProjectIds projectId, id ∉ s.imports.projectIds := by
  rw [Clears, swept_self]
  constructor
  · exact fun h id hid hmem => h id hmem ⟨id, hid, rfl⟩
  · rintro h _ hmem ⟨id, hid, rfl⟩
    exact h _ hid hmem

theorem projects_swept {L : Lowering} {doc : Document} {id : ScopeId} (hid : id ≠ defaultProject.id) :
    Swept (fun p : ProjectRecord => p.id.val = id.val) (fun p => p.id.val ≠ id.val)
      (normalizeDocument L doc).document.projects (deleteProject L doc id).document.projects := by
  have hprojects : (deleteProject L doc id).projects =
      orDefaultProject ((normalizeDocument L doc).projects.filter fun p => p.id ≠ id) := by
    rw [deleteProject, if_neg hid]
    dsimp only
    split <;> rfl
  simp only [Sheet.document, hprojects]
  constructor
  · intro record hrecord
    obtain ⟨p, hp, rfl⟩ := List.mem_map.mp hrecord
    dsimp only
    rw [orDefaultProject] at hp
    split at hp
    · cases List.mem_singleton.mp hp
      exact fun h => hid (Subtype.ext h).symm
    · exact fun h => (of_decide_eq_true (List.mem_filter.mp hp).2) (Subtype.ext h)
  · intro record hrecord hne
    obtain ⟨p, hp, rfl⟩ := List.mem_map.mp hrecord
    have hkept : p ∈ (normalizeDocument L doc).projects.filter fun p => p.id ≠ id :=
      List.mem_filter.mpr ⟨hp, decide_eq_true fun h => hne (congrArg Subtype.val h)⟩
    refine List.mem_map.mpr ⟨p, ?_, rfl⟩
    rw [orDefaultProject, if_neg]
    · exact hkept
    · intro hempty
      rw [List.isEmpty_iff.mp hempty] at hkept
      cases hkept

/-- The identifiers of an entity record outlive its links. -/
theorem SameEntity.keyedBy {e e' : Row V} (h : SameEntity e e') (id : String) :
    Row.KeyedBy P id e' ↔ Row.KeyedBy P id e := by
  rw [Row.KeyedBy, Row.KeyedBy, Payload.text, Payload.text, h.lookup "project_id" (by decide)]

theorem SameEntity.ours {e e' : Row V} (h : SameEntity e e') :
    Ours projectId (Row.KeyedBy P) e' ↔ Ours projectId (Row.KeyedBy P) e :=
  exists_congr fun id => and_congr_right fun _ => h.keyedBy id

theorem entities_deleted_iff {O : Providers V} {s' : ServerState V}
    (hafter : s'.memory.entities = if s.memory.entityStoreOpen then
      unlinkMemories P O (s.purged P projectId) s.memory.entities else s.memory.entities)
    (hscan : ∀ row ∈ s.purged P projectId, Scanned P row s.memory.entities.rows) :
    EntitiesDeleted L P projectId s s' ↔ EntitiesDeletable L P projectId s O := by
  cases hopen : s.memory.entityStoreOpen with
  | false =>
      rw [hopen, if_neg (by simp)] at hafter
      constructor
      · intro h e he
        rw [hopen]
        refine ⟨fun hours => (h.gone e (hafter ▸ he) hours).elim, fun _ hlost => ?_⟩
        cases hlost.1
      · intro h
        constructor
        · intro e he hours
          rw [hafter] at he
          have hlost := ((h e he).1 hours).1
          rw [hopen] at hlost
          cases hlost
        · intro e he _
          exact ⟨e, hafter ▸ he, rfl⟩
  | true =>
      rw [hopen, if_pos rfl] at hafter
      have hrows := unlinkMemories_rows (O := O) hscan
      rw [← hafter] at hrows
      constructor
      · intro h e he
        rw [hopen]
        constructor
        · intro hours
          refine ⟨rfl, unlinkAll_none.mp ?_⟩
          -- a record that is left would still be the project's
          cases hleft : unlinkAll P O (s.purged P projectId) e with
          | none => rfl
          | some e' =>
              have he' : e' ∈ s'.memory.entities.rows := by
                rw [hrows, List.mem_filterMap]
                exact ⟨e, he, hleft⟩
              exact (h.gone e' he' ((unlinkAll_same hleft).ours.mpr hours)).elim
        · rintro htheirs ⟨_, hlost⟩
          obtain ⟨e', he', hid⟩ := h.kept e he htheirs
          rw [hrows, List.mem_filterMap] at he'
          obtain ⟨e₀, he₀, hleft⟩ := he'
          have hsame : e₀ = e := Table.eq_of_id he₀ he ((unlinkAll_same hleft).id.symm.trans hid)
          rw [hsame, unlinkAll_none.mpr hlost] at hleft
          cases hleft
      · intro h
        constructor
        · intro e' he' hours
          rw [hrows, List.mem_filterMap] at he'
          obtain ⟨e, he, hleft⟩ := he'
          have hlost := ((h e he).1 ((unlinkAll_same hleft).ours.mp hours)).2
          rw [unlinkAll_none.mpr hlost] at hleft
          cases hleft
        · intro e he htheirs
          cases hleft : unlinkAll P O (s.purged P projectId) e with
          | none => exact ((h e he).2 htheirs ⟨hopen, unlinkAll_none.mp hleft⟩).elim
          | some e' =>
              refine ⟨e', ?_, (unlinkAll_same hleft).id⟩
              rw [hrows, List.mem_filterMap]
              exact ⟨e, he, hleft⟩

end

/-- A deletion that succeeds leaves nothing of the project and takes nothing of another one exactly when all that there
is of the project is what the purge looks for. The same holds of the entity records, where the scans for the links of the
memories read all of their scopes. -/
theorem project_deleted_iff {W : Writer V S} {O : Providers V} {L : Lowering} {caller : Caller}
    {orgId projectId : ScopeId} {s s' : ServerState V}
    (h : (deleteProjectRequest W O L caller orgId projectId).run s = (.ok (), s')) :
    (ProjectDeleted L W.platform projectId.val s s' ↔ ProjectDeletable L W.platform projectId.val s) ∧
      ((∀ row ∈ s.purged W.platform projectId.val, Scanned W.platform row s.memory.entities.rows) →
        (EntitiesDeleted L W.platform projectId.val s s' ↔ EntitiesDeletable L W.platform projectId.val s O)) := by
  obtain ⟨m, hpurged, hdefault, rfl⟩ := deleteProjectRequest_ok h
  refine ⟨?_, entities_deleted_iff hpurged.entities⟩
  obtain ⟨first, second, hfirst, hsecond, hafter⟩ := hpurged.history
  have hmemories := memories_cleared_iff (L := L) (P := W.platform) (s := s) hpurged.memories
  have hhistory := history_cleared_iff (L := L) hfirst hsecond hafter
  have hmessages : Clears L projectId.val s SavedMessage.KeyedBy s.memory.messages m.messages ↔
      Hits L projectId.val s SavedMessage.KeyedBy s.memory.messages (erasesMessage projectId.val · = true) :=
    hpurged.messages ▸ clears_deleteRows
  have hrows : ∀ rows : List ProjectRow,
      Clears L projectId.val s (fun id row => row.projectId = some id) rows
          (Lib.deleteRows (ProjectRow.isOf projectId.val) rows) ↔
        Hits L projectId.val s (fun id row => row.projectId = some id) rows (·.projectId = some projectId.val) :=
    fun rows => clears_deleteRows.trans (hits_congr fun row _ => decide_eq_true_iff)
  have hexports : exportsIn (dropProjectRows projectId.val { s with memory := m }).settings =
      Lib.deleteRows (exportOf projectId.val) (exportsIn s.settings) := exportsIn_drop
  have hexports := (hexports ▸ clears_deleteRows : Clears L projectId.val s (fun id item => exportOf id item = true)
    (exportsIn s.settings) (exportsIn (dropProjectRows projectId.val { s with memory := m }).settings) ↔ _)
  have hfeedback := @feedback_cleared_iff _ L projectId.val s
  constructor
  · intro hd
    obtain ⟨hhits, hwritten⟩ := hhistory.mp hd.history
    exact {
      memories := hmemories.mp hd.memories
      history := hhits
      written := hwritten
      messages := hmessages.mp hd.messages
      apiKeys := (hrows _).mp hd.apiKeys
      webhooks := (hrows _).mp hd.webhooks
      requestLogs := (hrows _).mp hd.requestLogs
      policies := clears_deleteRows.mp hd.policies
      exports := hexports.mp hd.exports
      imports := imports_cleared_iff.mp hd.imports
      feedback := hfeedback.mp hd.feedback }
  · intro hd
    exact {
      memories := hmemories.mpr hd.memories
      history := hhistory.mpr ⟨hd.history, hd.written⟩
      messages := hmessages.mpr hd.messages
      apiKeys := (hrows _).mpr hd.apiKeys
      webhooks := (hrows _).mpr hd.webhooks
      requestLogs := (hrows _).mpr hd.requestLogs
      policies := clears_deleteRows.mpr hd.policies
      exports := hexports.mpr hd.exports
      imports := imports_cleared_iff.mpr hd.imports
      feedback := hfeedback.mpr hd.feedback
      projects := projects_swept hdefault }

/-! ## A project with an import -/

def alphaId : ScopeId := ⟨"project_alpha", by decide⟩

/-- A server with a project beside the default one, and with an API key of it. -/
def alphaServer (settings : Entries) (imports : Database) : ServerState Unit where
  memory := ⟨⟨Table.empty, Table.empty⟩, false, [], [], 0⟩
  document :=
    { organization := none
      organizations := []
      activeOrganization := none
      activeProject := none
      projects := [defaultProjectRecord, ⟨alphaId, some defaultOrgId, ⟨"Alpha", "", []⟩⟩]
      members := []
      sections := [] }
  apiKeys := [⟨"key", some alphaId.val⟩]
  webhooks := []
  requestLogs := []
  policies := []
  settings := settings
  imports := imports

def deleteAlpha : ServerOp Unit Unit :=
  deleteProjectRequest (Writer.plain .ascii : Writer Unit ℚ) (.silent "now") .ascii ⟨.adminApiKey, none⟩ defaultOrgId
    alphaId

theorem alpha_runs (settings : Entries) (imports : Database) :
    ∃ s', deleteAlpha.run (alphaServer settings imports) = (.ok (), s') := by
  obtain ⟨answer, hanswer⟩ : ∃ answer, deleteProjectRoute .ascii ⟨.adminApiKey, none⟩
      (alphaServer settings imports).document defaultOrgId alphaId = .ok answer := by
    have hok : (deleteProjectRoute .ascii ⟨.adminApiKey, none⟩ (alphaServer settings imports).document defaultOrgId
        alphaId).isOk = true := by
      change (deleteProjectRoute .ascii ⟨.adminApiKey, none⟩ (alphaServer [] Database.empty).document defaultOrgId
        alphaId).isOk = true
      decide +kernel
    cases hroute : deleteProjectRoute .ascii ⟨.adminApiKey, none⟩ (alphaServer settings imports).document
        defaultOrgId alphaId with
    | error e =>
        rw [hroute] at hok
        cases hok
    | ok answer => exact ⟨answer, rfl⟩
  have hrows : ∀ {id : String} {m : MemoryState Unit}, m.memories.rows = [] →
      ∀ row ∈ (projectScope id).covered .ascii m.memories, row.Recordable (Writer.plain .ascii : Writer Unit ℚ)
        (.silent "now") := by
    intro id m hm row hrow
    rw [DeleteScope.covered, hm] at hrow
    cases hrow
  obtain ⟨first, hfirst⟩ := @purgeMemories_returns _ _ (Writer.plain .ascii : Writer Unit ℚ) (.silent "now") alphaId.val
    (alphaServer settings imports).memory (by decide +kernel) (by decide +kernel) (hrows rfl)
  obtain ⟨t, hdropped, hend⟩ := purgeMemories_ok hfirst
  have hempty : first.memories.rows = [] := by
    rw [hend]
    exact hdropped.memories
  obtain ⟨second, hsecond⟩ := @purgeMemories_returns _ _ (Writer.plain .ascii : Writer Unit ℚ) (.silent "now")
    (playgroundProjectId alphaId.val) first (by decide +kernel) (by decide +kernel) (hrows hempty)
  have hpurge : (purgeProjectMemories (Writer.plain .ascii : Writer Unit ℚ) (.silent "now") alphaId.val).run
      (alphaServer settings imports).memory = (.ok (), second) := by
    simp only [purgeProjectMemories, storageProjectIds, Effect.forEach, Effect.loop, Effect.bind_ok]
    exact ⟨(), first, hfirst, (), second, hsecond, rfl⟩
  have hresources : (purgeProjectResources (Writer.plain .ascii : Writer Unit ℚ) (.silent "now") alphaId.val).run
      (alphaServer settings imports) =
        (.ok (), dropProjectRows alphaId.val { alphaServer settings imports with memory := second }) := by
    rw [purgeProjectResources, Effect.run_bind, onMemory]
    simp only [hpurge]
    rfl
  refine ⟨{ dropProjectRows alphaId.val { alphaServer settings imports with memory := second } with
    document := answer.stored.getD (alphaServer settings imports).document }, ?_⟩
  simp only [deleteAlpha, deleteProjectRequest, Effect.bind_ok, Effect.run_bind_read, Effect.lift_ok, hanswer]
  exact ⟨answer, _, ⟨rfl, rfl⟩, (), _, hresources, rfl⟩

theorem alpha_keys : Hits .ascii alphaId.val (alphaServer [] Database.empty)
    (fun id (row : ProjectRow) => row.projectId = some id) [⟨"key", some alphaId.val⟩]
    (·.projectId = some alphaId.val) := by
  intro row hrow
  cases List.mem_singleton.mp hrow
  refine ⟨fun _ => rfl, ?_⟩
  rintro ⟨other, hother, hne, id, hid, hkeyed⟩
  have hnone : ∀ other ∈ (normalizeDocument .ascii (alphaServer [] Database.empty).document).projects.map
      (fun p => p.id.val), other ≠ alphaId.val → alphaId.val ∉ storageProjectIds other := by decide +kernel
  cases hkeyed
  exact absurd hid (hnone other.id.val (List.mem_map_of_mem hother) hne)

theorem alpha_goes : ∃ s', deleteAlpha.run (alphaServer [] Database.empty) = (.ok (), s') ∧
    ProjectDeleted .ascii .ascii alphaId.val (alphaServer [] Database.empty) s' ∧
    EntitiesDeleted .ascii .ascii alphaId.val (alphaServer [] Database.empty) s' := by
  obtain ⟨s', hrun⟩ := alpha_runs [] Database.empty
  have hiff := project_deleted_iff hrun
  refine ⟨s', hrun, hiff.1.mpr ?_, (hiff.2 ?_).mpr ?_⟩
  · exact {
      memories := fun _ h => by cases h
      history := fun _ h => by cases h
      written := fun _ h => by cases h
      messages := fun _ h => by cases h
      apiKeys := alpha_keys
      webhooks := fun _ h => by cases h
      requestLogs := fun _ h => by cases h
      policies := fun _ h => by cases h
      exports := fun _ h => by cases h
      imports := fun _ _ h => by cases h
      feedback := fun _ h => by cases h }
  · exact fun _ h => by cases h
  · exact fun _ h => by cases h

/-- The import of a deleted project and the feedback on its memories outlive it. -/
theorem import_outlives_project : ∃ (s s' : ServerState Unit),
    deleteAlpha.run s = (.ok (), s') ∧ ¬ ProjectDeleted .ascii .ascii alphaId.val s s' := by
  let imports : Database := { Database.empty with jobs := [{ runningJob "job" alphaId.val none none with
    status := .completed, workspace := some "imports/job" }] }
  let settings : Entries := [(feedbackKey alphaId.val "memory", .dict [("rating", .str "up")])]
  obtain ⟨s', hrun⟩ := alpha_runs settings imports
  refine ⟨alphaServer settings imports, s', hrun, fun h => ?_⟩
  obtain ⟨m, _, _, rfl⟩ := deleteProjectRequest_ok hrun
  exact h.imports.gone alphaId.val List.mem_cons_self ⟨alphaId.val, List.mem_cons_self, rfl⟩

end YiQiao
