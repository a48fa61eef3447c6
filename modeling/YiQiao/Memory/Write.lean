import YiQiao.Memory.Entities
import YiQiao.Store.IdFilters

/-!
# Writing memories

`Memory` creates, updates and deletes single rows, with their history and their entity links.
-/

namespace YiQiao

open Lib Filters

variable {V S : Type}

/-! ## Payloads -/

/-- `_memory_content_hash`. -/
def Writer.contentHash (W : Writer V S) (data : String) : String := W.md5 (W.normalizeMemoryText data)

/-- `_derived_text_payload`. -/
def derivedTextPayload (W : Writer V S) (data : String) : Entries :=
  [("data", .str data), ("hash", .str (W.contentHash data)), ("text_lemmatized", .str (W.lemmatize data))]

/-- `_mark_embedding_pending`. -/
def markPending (payload : Payload) : Payload := Dict.set "embedding_status" (.str "pending") payload

/-- `created_at` where the metadata has none, and `updated_at` after it. -/
def stampCreation (now : String) (payload : Payload) : Payload :=
  let stamped := if (payload.lookup "created_at").isSome then payload
    else Dict.set "created_at" (.str now) payload
  Dict.set "updated_at" (Payload.get stamped "created_at") stamped

/-- The payload `_create_memory` stores. -/
def createdPayload (W : Writer V S) (now data : String) (metadata : Entries) : Payload :=
  stampCreation now
    (Dict.update (Dict.erase "_allowed_categories" metadata) (derivedTextPayload W data))

/-- The status an update leaves: a new vector clears it, a new text without one waits for it. -/
def settleStatus (embedded textChanged wasPending : Bool) (payload : Payload) : Payload :=
  if embedded then Dict.erase "embedding_status" payload
  else if textChanged || wasPending then markPending payload
  else Dict.erase "embedding_status" payload

/-- `actor_id` is kept from the stored payload. -/
def keepActor (old payload : Payload) : Payload :=
  match old.lookup "actor_id" with
  | some actor => Dict.set "actor_id" actor payload
  | none => payload

/-- The fields of the new payload that an update decides itself. -/
def updatedFields (W : Writer V S) (now data : String) (old : Payload) : Entries :=
  derivedTextPayload W data ++
    [("created_at", Payload.get old "created_at"), ("updated_at", .str now)]

/-- The payload `_update_memory` stores. -/
def updatedPayload (W : Writer V S) (now data : String) (metadata : Option Entries) (embedded : Bool)
    (old : Payload) : Payload :=
  let merged := Dict.erase "_allowed_categories" (Dict.update old (metadata.getD []))
  let payload := keepActor old (Dict.update merged (updatedFields W now data old))
  let textChanged := !(Payload.get old "data").isText data
  settleStatus embedded textChanged (Table.isPending old) payload

/-- The identifiers of a payload that scope its entity links. -/
def sessionScope (payload : Payload) : Entries :=
  scopeIds.filterMap fun k =>
    let v := Payload.get payload k
    if v.truthy then some (k, v) else none

/-- `_normalize_iso_timestamp_to_utc`. -/
def normalizeTimestamp (W : Writer V S) (v : Value) : Except PyError Value :=
  if v.truthy then
    match v with
    | .str s => .ok (.str (W.utcTimestamp s))
    | _ => .error .typeError
  else .ok v

/-- `_normalize_expiration_date` of a value that JSON can carry. -/
def normalizeExpirationDate (W : Writer V S) : Value → Except PyError Value
  | .null => .ok .null
  | .str s => match W.isoDate s with
    | some date => .ok (.str date)
    | none => .error (.valueError "expiration_date must be a valid date in YYYY-MM-DD format.")
  | _ => .error (.valueError "expiration_date must be a date string in YYYY-MM-DD format.")

/-- `_stored_memory_matches_hash`. -/
def matchesHash (W : Writer V S) (row : Option (Row V)) (hash : String) : Bool :=
  match row with
  | none => false
  | some row =>
      let stored := Payload.get row.payload "hash"
      (if stored.truthy then stored.pyStr W.platform else "") == hash ||
        match Payload.get row.payload "data" with
        | .str data => W.contentHash data == hash
        | _ => false

/-! ## Rows -/

def insertMemories (rows : List (Row V)) : Op V Unit := do
  let memories ← Effect.read fun s => s.memories
  let memories ← Effect.lift (memories.insert rows)
  Effect.modify fun s => { s with memories := memories }

/-- The history record of a row whose text goes from `old` to `new`. -/
def historyRecord (id event : String) (old new createdAt updatedAt : Value) (isDeleted : Bool)
    (payload : Payload) : HistoryRecord where
  memoryId := id
  oldMemory := old
  newMemory := new
  event := event
  createdAt := createdAt
  updatedAt := updatedAt
  isDeleted := isDeleted
  actorId := Payload.get payload "actor_id"
  role := Payload.get payload "role"
  projectId := Payload.get payload "project_id"

def getMemory (id : String) : Op V (Option (Row V)) := Effect.read fun s => s.memories.get id

/-- What `_create_memory` does after its insert. -/
def finishCreate (W : Writer V S) (row : Row V) (data : String) (skipIfExists : Bool) :
    Except PyError Unit → Op V (Option String)
  | .ok () => do
      addHistory (historyRecord row.id "ADD" .null (.str data) (Payload.get row.payload "created_at")
        (Payload.get row.payload "updated_at") false row.payload)
      pure (some row.id)
  | .error e => do
      let existing ← getMemory row.id
      if skipIfExists && matchesHash W existing (W.contentHash data) then pure none
      else Effect.raise e

/-- `Memory._create_memory`; nothing is returned for a row that is there already. -/
def createMemory (W : Writer V S) (now data : String) (vector : Option V) (metadata : Entries)
    (id : String) (skipIfExists : Bool) : Op V (Option String) := do
  let row : Row V := ⟨id, vector, createdPayload W now data metadata⟩
  let existing ← getMemory id
  if skipIfExists && matchesHash W existing (W.contentHash data) then pure none
  else
    let inserted ← Effect.attempt (insertMemories [row])
    finishCreate W row data skipIfExists inserted

def memoryNotFound (id : String) : PyError :=
  .valueError s!"Memory with id {id} not found. Please provide a valid 'memory_id'"

/-! ## Update -/

/-- The arguments of `Memory.update`; an `expirationDate` that is given as null clears the date. -/
structure UpdateRequest where
  memoryId : String
  data : Option String
  metadata : Option Object
  expirationDate : Option Value

/-- The metadata `Memory.update` merges, with the expiration date in it. -/
def updateMetadata (W : Writer V S) (request : UpdateRequest) : Except PyError (Option Entries) :=
  let metadata := request.metadata.map Object.entries
  match request.expirationDate with
  | none => .ok metadata
  | some date => do
      let date ← normalizeExpirationDate W date
      pure (some (Dict.set "expiration_date" date (metadata.getD [])))

/-- The old entity links of a changed text give way to those of the new one. -/
def relinkMemory [Score S] (W : Writer V S) (O : Providers V) (id data : String) (payload : Payload) :
    Op V Unit := do
  removeMemoryFromEntityStore W.platform O id (sessionScope payload)
  linkEntitiesForMemory W O id data (sessionScope payload)

/-- `Memory._update_memory` on a row that is there. -/
def rewriteMemory [Score S] (W : Writer V S) (O : Providers V) (row : Row V) (data : String)
    (vector : Option V) (metadata : Option Entries) : Op V Unit := do
  let previous := Payload.get row.payload "data"
  let payload := updatedPayload W O.now data metadata vector.isSome row.payload
  Effect.modify fun s => { s with memories := s.memories.update row.id vector (some payload) }
  addHistory (historyRecord row.id "UPDATE" previous (.str data) (Payload.get payload "created_at")
    (Payload.get payload "updated_at") false payload)
  if previous.isText data then pure () else relinkMemory W O row.id data payload

/-- The text an update leaves: the new one or the one that is stored. -/
def updateText (id : String) (data : Option String) (payload : Payload) : Except PyError String :=
  match data, Payload.get payload "data" with
  | some text, _ => .ok text
  | none, .str text => .ok text
  | none, _ => .error (.valueError s!"Memory with id {id} does not have text content to update")

/-- `Memory._update_memory`. -/
def updateMemory [Score S] (W : Writer V S) (O : Providers V) (id : String) (data : Option String)
    (vector : Option V) (metadata : Option Entries) : Op V Unit := do
  match ← getMemory id with
  | none => Effect.raise (memoryNotFound id)
  | some row => do
      let text ← Effect.lift (updateText id data row.payload)
      rewriteMemory W O row text vector metadata

/-- `Memory.update`. The text is embedded when it is given, and a failure leaves the row to the
lexical search. -/
def update [Score S] (W : Writer V S) (O : Providers V) (request : UpdateRequest) : Op V Unit := do
  if request.data.isNone && request.metadata.isNone && request.expirationDate.isNone then
    Effect.raise (.valueError "At least one of data, metadata, or expiration_date must be provided.")
  else
    let metadata ← Effect.lift (updateMetadata W request)
    updateMemory W O request.memoryId request.data (request.data.bind (O.embed .update)) metadata

/-- `row` is rewritten as the request asks. -/
structure Rewritten (W : Writer V S) (O : Providers V) (request : UpdateRequest) (s s' : MemoryState V)
    (row : Row V) (text : String) (metadata : Option Entries) : Prop where
  found : s.memories.get request.memoryId = some row
  hasText : updateText request.memoryId request.data row.payload = .ok text
  merges : updateMetadata W request = .ok metadata
  memories : s'.memories = s.memories.update row.id (request.data.bind (O.embed .update))
    (some (updatedPayload W O.now text metadata (request.data.bind (O.embed .update)).isSome row.payload))

theorem relinkMemory_within [Score S] (W : Writer V S) (O : Providers V) (id data : String)
    (payload : Payload) : Effect.Within SameMemories (relinkMemory W O id data payload) :=
  .bind (removeMemoryFromEntityStore_within _ _ _ _) fun _ => linkEntitiesForMemory_within _ _ _ _ _

theorem rewriteMemory_memories [Score S] (W : Writer V S) (O : Providers V) (row : Row V) (data : String)
    (vector : Option V) (metadata : Option Entries) (s : MemoryState V) :
    ((rewriteMemory W O row data vector metadata).run s).2.memories = s.memories.update row.id vector
      (some (updatedPayload W O.now data metadata vector.isSome row.payload)) := by
  rw [rewriteMemory, Effect.run_bind_modify]
  refine Effect.Within.bind (addHistory_within _) (fun _ => ?_) _
  split
  · exact .pure _
  · exact relinkMemory_within _ _ _ _ _

/-- An update leaves the memories alone or rewrites one row. -/
theorem update_memories [Score S] (W : Writer V S) (O : Providers V) (request : UpdateRequest)
    (s : MemoryState V) :
    SameMemories s ((update W O request).run s).2 ∨
      ∃ row text metadata, Rewritten W O request s ((update W O request).run s).2 row text metadata := by
  unfold update
  split
  · exact .inl rfl
  · cases hmetadata : updateMetadata W request with
    | error e => exact .inl rfl
    | ok metadata =>
        cases hrow : s.memories.get request.memoryId with
        | none =>
            refine .inl ?_
            simp [updateMemory, getMemory, Effect.run_bind, hrow, SameMemories]
        | some row =>
            cases htext : updateText request.memoryId request.data row.payload with
            | error e =>
                refine .inl ?_
                simp [updateMemory, getMemory, Effect.run_bind, hrow, htext, SameMemories]
            | ok text =>
                refine .inr ⟨row, text, metadata, hrow, htext, hmetadata, ?_⟩
                simp only [updateMemory, getMemory, Effect.run_bind, Effect.run_lift, Effect.run_read, hrow,
                  htext]
                exact rewriteMemory_memories W O row text _ metadata s

/-! ## Deletion -/

/-- `Memory._delete_memory` on a row that is there. -/
def deleteRow (W : Writer V S) (O : Providers V) (row : Row V) : Op V Unit := do
  let createdAt ← Effect.lift (normalizeTimestamp W (Payload.get row.payload "created_at"))
  Effect.modify fun s => { s with memories := s.memories.delete row.id }
  let previous := (row.payload.lookup "data").getD (.str "")
  addHistory (historyRecord row.id "DELETE" previous .null createdAt (.str O.now) true row.payload)
  removeMemoryFromEntityStore W.platform O row.id (sessionScope row.payload)

/-- `Memory._delete_memory` on an id. -/
def deleteMemory (W : Writer V S) (O : Providers V) (id : String) : Op V Unit := do
  match ← getMemory id with
  | none => Effect.raise (memoryNotFound id)
  | some row => deleteRow W O row

/-- `Memory.delete`. -/
def delete (W : Writer V S) (O : Providers V) (id : String) : Op V Unit := do
  match ← getMemory id with
  | none => Effect.raise (.valueError s!"Memory with id {id} not found")
  | some row => deleteRow W O row

/-- The identifiers `Memory.delete_all` takes. -/
structure DeleteScope where
  userId : Option String
  agentId : Option String
  runId : Option String
  appId : Option String
  projectId : Option String

def DeleteScope.ids (scope : DeleteScope) : List (String × Option String) :=
  [("user_id", scope.userId), ("agent_id", scope.agentId), ("run_id", scope.runId),
    ("app_id", scope.appId), ("project_id", scope.projectId)]

/-- `_validate_and_trim_entity_id` on each identifier; those that are absent are left out. -/
def trimIds : List (String × Option String) → Except PyError (List (String × String))
  | [] => .ok []
  | (_, none) :: ids => trimIds ids
  | (name, some value) :: ids => do
      let trimmed ← trimEntityId name value
      pure ((name, trimmed) :: (← trimIds ids))

/-- The default `top_k` of `PGVector.list`. -/
def defaultListLimit : Nat := 100

/-- `Memory.delete_all`. -/
def deleteAll (W : Writer V S) (O : Providers V) (scope : DeleteScope) : Op V Unit := do
  let ids ← Effect.lift (trimIds scope.ids)
  if ids.isEmpty then
    Effect.raise (.valueError "At least one filter is required to delete all memories. If you want to delete all memories, use the \u0060reset()\u0060 method.")
  else
    let memories ← Effect.read fun s => s.memories
    let rows ← Effect.lift (memories.list W.platform (idFilters ids) defaultListLimit)
    Effect.forEach rows fun row => deleteMemory W O row.id

/-! ## What a deletion does to the rows -/

/-- Some rows went. -/
def Shrinks (s s' : MemoryState V) : Prop := s'.memories.rows.Sublist s.memories.rows

instance : Std.Refl (Shrinks (V := V)) := ⟨fun _ => List.Sublist.refl _⟩

instance : IsTrans (MemoryState V) Shrinks := ⟨fun _ _ _ h h' => List.Sublist.trans h' h⟩

theorem shrinks_of_same {α : Type} {x : Op V α} (h : Effect.Within SameMemories x) :
    Effect.Within Shrinks x := by
  intro s
  rw [Shrinks, h s]

theorem deleteRow_within (W : Writer V S) (O : Providers V) (row : Row V) :
    Effect.Within Shrinks (deleteRow W O row) := by
  refine .bind (.lift _) fun createdAt => .bind (.modify fun s => List.filter_sublist) fun _ => ?_
  exact .bind (shrinks_of_same (addHistory_within _)) fun _ =>
    shrinks_of_same (removeMemoryFromEntityStore_within _ _ _ _)

theorem deleteMemory_within (W : Writer V S) (O : Providers V) (id : String) :
    Effect.Within Shrinks (deleteMemory W O id) := by
  refine .bind (.read _) fun row => ?_
  cases row with
  | none => exact .raise _
  | some row => exact deleteRow_within W O row

theorem delete_within (W : Writer V S) (O : Providers V) (id : String) :
    Effect.Within Shrinks (delete W O id) := by
  refine .bind (.read _) fun row => ?_
  cases row with
  | none => exact .raise _
  | some row => exact deleteRow_within W O row

theorem deleteAll_within (W : Writer V S) (O : Providers V) (scope : DeleteScope) :
    Effect.Within Shrinks (deleteAll W O scope) := by
  refine .bind (.lift _) fun ids => ?_
  split
  · exact .raise _
  · refine .bind (.read _) fun memories => .bind (.lift _) fun rows => ?_
    exact .loop (fun _ row _ => deleteMemory_within W O row.id) _

end YiQiao
