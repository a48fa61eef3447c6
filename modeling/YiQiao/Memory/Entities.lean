import Mathlib.Data.List.Dedup
import YiQiao.Memory.State

/-!
# Entity links

The entity collection names, for every entity, the memories that mention it. `Memory` strips a
memory from the records of its scope when the memory goes, and links it to the entities of a new
text. Every failure on the way is swallowed, so these are functions on the collection.
-/

namespace YiQiao

open Lib Filters

variable {V S : Type}

def entityScanLimit : Nat := 10000

/-- `mid == memory_id` for an entry of a payload list. -/
def Value.isText (text : String) : Value → Bool
  | .str s => s == text
  | _ => false

/-- A payload's `linked_memory_ids`, where it is a list. -/
def linkedIds (payload : Payload) : Option (List Value) :=
  match payload.lookup "linked_memory_ids" with
  | some (.list ids) => some ids
  | _ => none

/-! ## Stripping a memory -/

/-- An entity record that links other memories too is rewritten with a fresh embedding. -/
def relinkEntity (O : Providers V) (row : Row V) (remaining : List Value) (entities : Table V) :
    Table V :=
  match row.payload.lookup "data" with
  | some (.str text) =>
      if text = "" then entities
      else match O.embed .update text with
        | none => entities
        | some v => entities.update row.id (some v)
            (some (Dict.set "linked_memory_ids" (.list remaining) row.payload))
  | _ => entities

/-- One iteration of the loop of `_remove_memory_from_entity_store`. -/
def unlinkEntity (O : Providers V) (memoryId : String) (entities : Table V) (row : Row V) : Table V :=
  match linkedIds row.payload with
  | some linked =>
      let remaining := linked.filter fun v => !v.isText memoryId
      if linked.any (Value.isText memoryId) then
        if remaining.isEmpty then entities.delete row.id else relinkEntity O row remaining entities
      else entities
  | none => entities

/-- `_remove_memory_from_entity_store` on an entity store that is open. -/
def unlinkMemory (P : Platform) (O : Providers V) (memoryId : String) (filters : Entries)
    (entities : Table V) : Table V :=
  match entities.list P (sessionFilters filters) entityScanLimit with
  | .error _ => entities
  | .ok rows => rows.foldl (unlinkEntity O memoryId) entities

/-- `Memory._remove_memory_from_entity_store`. -/
def removeMemoryFromEntityStore (P : Platform) (O : Providers V) (memoryId : String)
    (filters : Entries) : Op V Unit :=
  Effect.modify fun s =>
    if s.entityStoreOpen then { s with entities := unlinkMemory P O memoryId filters s.entities } else s

/-! ## Linking a memory -/

/-- The texts of a list, each once, in order. -/
def sortedTexts (texts : List String) : List String := ranked (· ≤ ·) texts.dedup

/-- A payload whose `linked_memory_ids` also hold `new`. -/
def unionPayload (P : Platform) (new : List String) (payload : Payload) : Payload :=
  let old := ((linkedIds payload).getD []).filterMap (Value.sqlText P)
  let linked := sortedTexts ((old ++ new).filter (· ≠ ""))
  Dict.set "linked_memory_ids" (.list (linked.map .str)) payload

/-- `PGVector.atomic_payload_list_union` for `linked_memory_ids`. -/
def atomicUnion (P : Platform) (entities : Table V) (id : String) (memoryIds : List String) : Table V :=
  if (memoryIds.filter (· ≠ "")).isEmpty then entities
  else entities.modify id (fun row => { row with payload := unionPayload P memoryIds row.payload })
    fun _ => rfl

/-- The normalized text of an entity record. -/
def entityKey (W : Writer V S) (row : Row V) : Option String :=
  match row.payload.lookup "data" with
  | some (.str text) => some (W.normalizeEntityText text)
  | _ => none

/-- `_existing_entities_by_text(filters).get(key)`: the first record of the scope with the text. -/
def exactEntity (W : Writer V S) (entities : Table V) (filters : Entries) (key : String) :
    Option (Row V) :=
  match entities.list W.platform filters entityScanLimit with
  | .error _ => none
  | .ok rows => rows.find? fun row => key ≠ "" && entityKey W row == some key

/-- The nearest record of the scope, where it is near enough. -/
def semanticEntity [Score S] (W : Writer V S) (hits : List (Hit V S)) : Option (Row V) :=
  match hits.head? with
  | some hit => if W.entitySimilarity ≤ hit.score then some hit.row else none
  | none => none

def entityPayload (text type : String) (memoryIds : List String) (filters : Entries) : Payload :=
  Dict.update [("data", .str text), ("entity_type", .str type),
    ("linked_memory_ids", .list (memoryIds.map .str))] filters

/-- `entity_store.insert` of one record under a random id. -/
def insertEntity (W : Writer V S) (vector : V) (payload : Payload) (s : MemoryState V) : MemoryState V :=
  match s.entities.insert [⟨W.uuid4 s.supply, some vector, payload⟩] with
  | .ok entities => { s with entities := entities, supply := s.supply + 1 }
  | .error _ => { s with supply := s.supply + 1 }

/-- `Memory._upsert_entity`. -/
def upsertEntity [Score S] (W : Writer V S) (O : Providers V) (memoryId : String) (filters : Entries)
    (s : MemoryState V) (entity : String × String) : MemoryState V :=
  match O.embed .add entity.2 with
  | none => s
  | some vector =>
      let scope := sessionFilters filters
      let s := { s with entityStoreOpen := true }
      match exactEntity W s.entities scope (W.normalizeEntityText entity.2) with
      | some row => { s with entities := atomicUnion W.platform s.entities row.id [memoryId] }
      | none => match s.entities.search W.platform W.distance vector 1 scope with
        | .error _ => s
        | .ok hits => match semanticEntity W hits with
          | some row => { s with entities := atomicUnion W.platform s.entities row.id [memoryId] }
          | none => insertEntity W vector (entityPayload entity.2 entity.1 [memoryId] scope) s

/-- The entities a text names, one for each normalized text. -/
def distinctEntities (W : Writer V S) (entities : List (String × String)) : List (String × String) :=
  let step := fun (acc : List (String × (String × String))) (e : String × String) =>
    let key := W.normalizeEntityText e.2
    if key = "" ∨ (acc.lookup key).isSome then acc else acc ++ [(key, e)]
  (entities.foldl step []).map Prod.snd

/-- `Memory._link_entities_for_memory`. -/
def linkEntitiesForMemory [Score S] (W : Writer V S) (O : Providers V) (memoryId text : String)
    (filters : Entries) : Op V Unit :=
  Effect.modify fun s =>
    (distinctEntities W (W.extractEntities text)).foldl (upsertEntity W O memoryId filters) s

/-! ## The memories stay as they are -/

theorem removeMemoryFromEntityStore_within (P : Platform) (O : Providers V) (id : String)
    (filters : Entries) : Effect.Within SameMemories (removeMemoryFromEntityStore P O id filters) := by
  refine .modify fun s => ?_
  unfold SameMemories
  split <;> rfl

theorem insertEntity_memories (W : Writer V S) (vector : V) (payload : Payload) (s : MemoryState V) :
    (insertEntity W vector payload s).memories = s.memories := by
  unfold insertEntity
  split <;> rfl

theorem upsertEntity_memories [Score S] (W : Writer V S) (O : Providers V) (memoryId : String)
    (filters : Entries) (s : MemoryState V) (entity : String × String) :
    (upsertEntity W O memoryId filters s entity).memories = s.memories := by
  unfold upsertEntity
  split
  · rfl
  · dsimp only
    split
    · rfl
    · split
      · rfl
      · split
        · rfl
        · exact insertEntity_memories ..

theorem linkEntitiesForMemory_within [Score S] (W : Writer V S) (O : Providers V)
    (memoryId text : String) (filters : Entries) :
    Effect.Within SameMemories (linkEntitiesForMemory W O memoryId text filters) := by
  refine .modify fun s => ?_
  induction distinctEntities W (W.extractEntities text) generalizing s with
  | nil => rfl
  | cons entity entities ih => exact (ih _).trans (upsertEntity_memories W O memoryId filters s entity)

end YiQiao
