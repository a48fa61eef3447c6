import Mathlib.Data.List.TakeWhile
import YiQiao.Lib.Rows
import YiQiao.Memory.DeleteAll
import YiQiao.Memory.Scope
import YiQiao.Memory.Unlink

/-!
# Purging a project

What a memory does when a project is deleted. Its memories go, a page of them, and those of its playground, which are
stored under a project id of their own; then its history and its messages.
-/

namespace YiQiao

open Lib Filters

variable {V S : Type}

/-! ## The purge -/

/-- `_playground_project_id`. -/
def playgroundProjectId (projectId : String) : String :=
  String.ofList (projectId.toList.take 108) ++ ".__playground__"

/-- The ids that the memories of a project are stored under. -/
def storageProjectIds (projectId : String) : List String := [projectId, playgroundProjectId projectId]

/-- `instr('&' || session_scope || '&', '&project_id=..&') > 0`. -/
def namesProject (projectId scope : String) : Bool :=
  decide (("&project_id=" ++ projectId ++ "&").toList <:+: ("&" ++ scope ++ "&").toList)

/-- The memory and the project of a history record. -/
abbrev Trace := String × Value

def HistoryRecord.trace (r : HistoryRecord) : Trace := (r.memoryId, r.projectId)

/-- The history records that go with a project and its memories. -/
def Trace.isOf (projectId : String) (memoryIds : List String) (trace : Trace) : Bool :=
  trace.2.isText projectId || trace.1 ∈ memoryIds

/-- `SQLiteManager.delete_project_data`. -/
def deleteProjectData (projectId : String) (memoryIds : List String) : Op V Unit :=
  let normalized := strip projectId
  let memoryIds := memoryIds.filter (· ≠ "")
  if normalized = "" then Effect.raise (.valueError "project_id is required")
  else Effect.modify fun s => { s with
    history := Lib.deleteRows (fun r => Trace.isOf normalized memoryIds r.trace) s.history
    messages := Lib.deleteRows (fun m => namesProject normalized m.scope) s.messages }

def projectScope (projectId : String) : DeleteScope := ⟨none, none, none, none, some projectId⟩

/-- The `top_k` with which the memories of a project are listed. -/
def purgeListLimit : Nat := 1000000

/-- What `_purge_project_resources` does for one storage id. -/
def purgeMemories (W : Writer V S) (O : Providers V) (projectId : String) : Op V Unit := do
  let memories ← Effect.read fun s => s.memories
  let rows ← Effect.lift (memories.list W.platform (idFilters [("project_id", projectId)]) purgeListLimit)
  deleteAll W O (projectScope projectId)
  deleteProjectData projectId (rows.map Row.id)

theorem mem_strip {c : Char} {s : String} (h : c ∈ s.toList) (hspace : isSpace c = false) : c ∈ (strip s).toList := by
  have hdrop : ∀ l : List Char, c ∈ l → c ∈ l.dropWhile isSpace := by
    intro l hl
    rw [← List.takeWhile_append_dropWhile (p := isSpace) (l := l), List.mem_append] at hl
    rcases hl with hl | hl
    · rw [List.mem_takeWhile_imp hl] at hspace
      cases hspace
    · exact hl
  rw [strip, String.toList_ofList, List.mem_reverse]
  exact hdrop _ (List.mem_reverse.mpr (hdrop _ h))

/-- No playground is the wildcard. -/
theorem strip_playground_ne_star (projectId : String) : strip (playgroundProjectId projectId) ≠ "*" := by
  intro h
  have hmem : '_' ∈ (playgroundProjectId projectId).toList := by
    rw [playgroundProjectId, String.toList_append]
    exact List.mem_append_right _ (by decide)
  have hstar := mem_strip hmem (by decide)
  rw [h] at hstar
  revert hstar
  decide

/-! ## What the deletion of memories does -/

def Row.trace (row : Row V) : Trace := (row.id, Payload.get row.payload "project_id")

/-- The rows went, each with its links, and each left a record. -/
structure Dropped (W : Writer V S) (O : Providers V) (rows : List (Row V)) (s s' : MemoryState V) : Prop where
  memories : s'.memories.rows = survivors s.memories.rows rows
  history : ∃ written, s'.history = s.history ++ written ∧ written.map HistoryRecord.trace = rows.map Row.trace
  messages : s'.messages = s.messages
  openStore : s'.entityStoreOpen = s.entityStoreOpen
  entities : s'.entities = if s.entityStoreOpen then unlinkMemories W.platform O rows s.entities else s.entities

theorem dropped_nil {W : Writer V S} {O : Providers V} {s : MemoryState V} : Dropped W O [] s s where
  memories := by simp [survivors]
  history := ⟨[], by simp⟩
  messages := rfl
  openStore := rfl
  entities := by simp [unlinkMemories]

theorem deleteRow_dropped {W : Writer V S} {O : Providers V} {row : Row V} {s s' : MemoryState V}
    (h : (deleteRow W O row).run s = (.ok (), s')) : Dropped W O [row] s s' := by
  simp only [deleteRow, addHistory, removeMemoryFromEntityStore, Effect.bind_ok, Effect.lift_ok,
    Effect.modify_ok] at h
  obtain ⟨createdAt, _, ⟨_, rfl⟩, _, _, rfl, _, _, ⟨_, _, ⟨_, rfl⟩, rfl⟩, rfl⟩ := h
  cases hopen : s.entityStoreOpen with
  | false => exact ⟨by simp [survivors, Table.rows_delete], ⟨[_], by simp; rfl, rfl⟩,
      by simp, by simp [hopen], by simp [hopen]⟩
  | true => exact ⟨by simp [survivors, Table.rows_delete], ⟨[_], by simp; rfl, rfl⟩,
      by simp, by simp [hopen], by simp [hopen, unlinkMemories]⟩

theorem survivors_append (rows done more : List (Row V)) :
    survivors (survivors rows done) more = survivors rows (done ++ more) := by
  rw [survivors, survivors, survivors, List.filter_filter]
  refine List.filter_congr fun row _ => ?_
  simp only [List.map_append, List.mem_append, not_or, Bool.decide_and, Bool.and_comm]

theorem Dropped.append {W : Writer V S} {O : Providers V} {done more : List (Row V)} {s t u : MemoryState V}
    (h : Dropped W O done s t) (h' : Dropped W O more t u) : Dropped W O (done ++ more) s u := by
  obtain ⟨written, hwritten, htraces⟩ := h.history
  obtain ⟨written', hwritten', htraces'⟩ := h'.history
  refine ⟨?_, ⟨written ++ written', ?_, ?_⟩, h'.messages.trans h.messages, h'.openStore.trans h.openStore, ?_⟩
  · rw [h'.memories, h.memories, survivors_append]
  · rw [hwritten', hwritten, List.append_assoc]
  · rw [List.map_append, List.map_append, htraces, htraces']
  · rw [h'.entities, h.entities, h.openStore]
    split
    · rw [unlinkMemories, unlinkMemories, unlinkMemories, List.foldl_append]
    · rfl

/-- A loop of deletions that returned drops the rows it named. -/
theorem deleteRows_dropped {W : Writer V S} {O : Providers V} {rows : List (Row V)} {s s' : MemoryState V}
    (hrows : ∀ row ∈ rows, row ∈ s.memories.rows)
    (h : (Effect.forEach rows fun row => deleteMemory W O row.id).run s = (.ok (), s')) :
    Dropped W O rows s s' := by
  refine Effect.loop_ok (I := fun done _ t => Dropped W O done s t) h dropped_nil ?_
  intro done row rest _ t _ t' hsplit hI ht
  refine hI.append ?_
  simp only [deleteMemory, getMemory, Effect.run_bind_read] at ht
  cases hget : t.memories.get row.id with
  | none => simp [hget] at ht
  | some found =>
      simp only [hget] at ht
      -- the row is the one that was listed
      obtain ⟨hfound, hid⟩ := Table.get_mem hget
      rw [hI.memories] at hfound
      have hrow : row ∈ s.memories.rows := hrows row (by simp [hsplit])
      have hsame : found = row := Table.eq_of_id (List.mem_of_mem_filter hfound) hrow hid
      exact deleteRow_dropped (hsame ▸ ht)

/-! ## What the purge deletes -/

section

variable (P : Platform) (projectId : String) (rows : List (Row V))

/-- The memories that `delete_all` deletes for a storage id. -/
def purgePage : List (Row V) :=
  (rows.filter fun row => idMatches P row.payload "project_id" (strip projectId)).take defaultListLimit

/-- The ids of the memories whose history goes with a storage id. -/
def purgeListed : List String :=
  (((rows.filter fun row => idMatches P row.payload "project_id" projectId).take purgeListLimit).map Row.id).filter
    (· ≠ "")

end

theorem projectScope_covers (P : Platform) (projectId : String) (payload : Payload) :
    (projectScope projectId).covers P payload = idMatches P payload "project_id" (strip projectId) := by
  simp [DeleteScope.covers, DeleteScope.ids, projectScope]

/-- What the purge of one storage id does. -/
theorem purgeMemories_ok {W : Writer V S} {O : Providers V} {projectId : String} {s s' : MemoryState V}
    (h : (purgeMemories W O projectId).run s = (.ok (), s')) :
    ∃ t, Dropped W O (purgePage W.platform projectId s.memories.rows) s t ∧
      s' = { t with
        history := Lib.deleteRows (fun r => Trace.isOf (strip projectId)
          (purgeListed W.platform projectId s.memories.rows) r.trace) t.history
        messages := Lib.deleteRows (fun m => namesProject (strip projectId) m.scope) t.messages } := by
  have hkeys : ∀ e ∈ [("project_id", projectId)], e.1 ≠ "$or" ∧ e.1 ≠ "$not" := by simp
  have hlist : s.memories.list W.platform (idFilters [("project_id", projectId)]) purgeListLimit = .ok
      ((s.memories.rows.filter fun row => idMatches W.platform row.payload "project_id" projectId).take
        purgeListLimit) := by
    rw [Table.list, select_ids hkeys]
    simp only [List.all_cons, List.all_nil, Bool.and_true]
    rfl
  simp only [purgeMemories, Effect.run_bind_read, Effect.bind_ok, Effect.lift_ok, hlist] at h
  obtain ⟨listed, _, ⟨hlisted, rfl⟩, _, t, hdelete, hdata⟩ := h
  cases hlisted
  refine ⟨t, ?_, ?_⟩
  · simp only [deleteAll, Effect.bind_ok, Effect.lift_ok] at hdelete
    obtain ⟨ids, _, ⟨hids, rfl⟩, hdelete⟩ := hdelete
    split at hdelete
    · cases hdelete
    · simp only [Effect.run_bind_read, Effect.bind_ok, Effect.lift_ok, list_scope hids] at hdelete
      obtain ⟨page, _, ⟨hpage, rfl⟩, hdelete⟩ := hdelete
      cases hpage
      have hcovered : (projectScope projectId).covered W.platform s.memories =
          s.memories.rows.filter fun row => idMatches W.platform row.payload "project_id" (strip projectId) :=
        List.filter_congr fun row _ => projectScope_covers _ _ _
      rw [hcovered] at hdelete
      refine deleteRows_dropped (fun row hrow => ?_) hdelete
      exact List.mem_of_mem_filter (List.mem_of_mem_take hrow)
  · rw [deleteProjectData] at hdata
    split at hdata
    · cases hdata
    · exact (Effect.modify_ok.mp hdata).symm

/-- The purge of a storage id returns where each of its memories can be recorded. -/
theorem purgeMemories_returns {W : Writer V S} {O : Providers V} {projectId : String} {s : MemoryState V}
    (hid : trimEntityId "project_id" projectId = .ok (strip projectId)) (hne : strip projectId ≠ "")
    (hrec : ∀ row ∈ (projectScope projectId).covered W.platform s.memories, row.Recordable W O) :
    ∃ s', (purgeMemories W O projectId).run s = (.ok (), s') := by
  have hkeys : ∀ e ∈ [("project_id", projectId)], e.1 ≠ "$or" ∧ e.1 ≠ "$not" := by simp
  obtain ⟨rows, hlist⟩ : ∃ rows, s.memories.list W.platform (idFilters [("project_id", projectId)]) purgeListLimit =
      .ok rows := by
    rw [Table.list, select_ids hkeys]
    exact ⟨_, rfl⟩
  have hids : trimIds (projectScope projectId).ids = .ok [("project_id", strip projectId)] := by
    simp only [DeleteScope.ids, projectScope, trimIds, hid]
    rfl
  obtain ⟨t, hdelete⟩ := deleteAll_returns hids hrec
  obtain ⟨s', hdata⟩ : ∃ s', (deleteProjectData projectId (rows.map Row.id)).run t = (.ok (), s') := by
    rw [deleteProjectData]
    simp only [hne, if_false]
    exact ⟨_, rfl⟩
  refine ⟨s', ?_⟩
  simp only [purgeMemories, Effect.run_bind_read, Effect.bind_ok, Effect.lift_ok]
  exact ⟨rows, s, ⟨hlist, rfl⟩, (), t, hdelete, hdata⟩

/-! ## Both storage ids -/

/-- The loop of `_purge_project_resources`. -/
def purgeProjectMemories (W : Writer V S) (O : Providers V) (projectId : String) : Op V Unit :=
  Effect.forEach (storageProjectIds projectId) (purgeMemories W O)

section

variable (P : Platform) (projectId : String) (rows : List (Row V))

/-- What is left of the memories after the first round. -/
def afterPurgePage : List (Row V) := survivors rows (purgePage P projectId rows)

/-- The memories that the purge deletes. -/
def purgedMemories : List (Row V) :=
  purgePage P projectId rows ++ purgePage P (playgroundProjectId projectId) (afterPurgePage P projectId rows)

/-- The history that the first round deletes. -/
def erasedFirst (trace : Trace) : Bool := trace.isOf (strip projectId) (purgeListed P projectId rows)

/-- The history that the second round deletes. -/
def erasedSecond (trace : Trace) : Bool :=
  trace.isOf (strip (playgroundProjectId projectId))
    (purgeListed P (playgroundProjectId projectId) (afterPurgePage P projectId rows))

/-- The messages that the purge deletes. -/
def erasesMessage (m : SavedMessage) : Bool :=
  namesProject (strip projectId) m.scope || namesProject (strip (playgroundProjectId projectId)) m.scope

end

/-- What a purge that returned did to a memory. -/
structure ProjectPurged (W : Writer V S) (O : Providers V) (projectId : String) (s s' : MemoryState V) : Prop where
  memories : s'.memories.rows = survivors s.memories.rows (purgedMemories W.platform projectId s.memories.rows)
  history : ∃ first second,
    first.map HistoryRecord.trace = (purgePage W.platform projectId s.memories.rows).map Row.trace ∧
    second.map HistoryRecord.trace = (purgePage W.platform (playgroundProjectId projectId)
      (afterPurgePage W.platform projectId s.memories.rows)).map Row.trace ∧
    s'.history = Lib.deleteRows (fun r => erasedSecond W.platform projectId s.memories.rows r.trace)
      (Lib.deleteRows (fun r => erasedFirst W.platform projectId s.memories.rows r.trace) (s.history ++ first) ++ second)
  messages : s'.messages = Lib.deleteRows (erasesMessage projectId) s.messages
  entities : s'.entities = if s.entityStoreOpen then
    unlinkMemories W.platform O (purgedMemories W.platform projectId s.memories.rows) s.entities else s.entities

theorem purgeProjectMemories_ok {W : Writer V S} {O : Providers V} {projectId : String} {s s' : MemoryState V}
    (h : (purgeProjectMemories W O projectId).run s = (.ok (), s')) : ProjectPurged W O projectId s s' := by
  simp only [purgeProjectMemories, storageProjectIds, Effect.forEach, Effect.loop, Effect.bind_ok] at h
  obtain ⟨_, u, hfirst, _, v, hsecond, hend⟩ := h
  cases hend
  obtain ⟨t, hdropped, rfl⟩ := purgeMemories_ok hfirst
  obtain ⟨t', hdropped', rfl⟩ := purgeMemories_ok hsecond
  have hmemories : t.memories.rows = afterPurgePage W.platform projectId s.memories.rows := hdropped.memories
  dsimp only at hdropped'
  rw [hmemories] at hdropped'
  obtain ⟨first, hhistory, hfirst⟩ := hdropped.history
  obtain ⟨second, hhistory', hsecond⟩ := hdropped'.history
  refine ⟨?_, ⟨first, second, hfirst, hsecond, ?_⟩, ?_, ?_⟩
  · rw [purgedMemories, ← survivors_append]
    exact hdropped'.memories.trans (by rw [hmemories]; rfl)
  · dsimp only
    rw [hhistory']
    dsimp only
    rw [hhistory, hmemories]
    rfl
  · dsimp only
    rw [hdropped'.messages]
    dsimp only
    rw [hdropped.messages, deleteRows_deleteRows]
    rfl
  · have hopen := hdropped.openStore
    have hentities := hdropped'.entities
    dsimp only at hentities ⊢
    rw [hentities, hdropped.entities, hopen]
    split
    · rw [purgedMemories, unlinkMemories, unlinkMemories, unlinkMemories, List.foldl_append]
    · rfl

end YiQiao
