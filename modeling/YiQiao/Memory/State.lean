import YiQiao.Lib.Effect
import YiQiao.Memory.Search

/-!
# The state of a memory

The two collections of the vector store and the two tables of the SQLite database. An operation
runs against what its providers answer while it runs, and what it wrote before it raised stays.
-/

namespace YiQiao

open Lib

variable {V S : Type}

/-! ## The database -/

/-- A row of the `history` table. -/
structure HistoryRecord where
  memoryId : String
  oldMemory : Value
  newMemory : Value
  event : String
  createdAt : Value
  updatedAt : Value
  isDeleted : Bool
  actorId : Value
  role : Value
  projectId : Value

/-- A row of the `messages` table. -/
structure SavedMessage where
  id : Nat
  scope : String
  role : Value
  content : Value
  name : Value
  createdAt : String

/-- What SQLite makes of a bound parameter: containers have no column type, and integers 64 bits. -/
def Value.bind : Value → Except PyError Unit
  | .list _ => .error .databaseError
  | .dict _ => .error .databaseError
  | .num m 0 => if -2 ^ 63 ≤ m ∧ m < 2 ^ 63 then .ok () else .error .overflowError
  | _ => .ok ()

/-- The parameters of a row are bound in turn. -/
def bindAll (values : List Value) : Except PyError Unit := values.forM Value.bind

def HistoryRecord.parameters (r : HistoryRecord) : List Value :=
  [r.oldMemory, r.newMemory, r.createdAt, r.updatedAt, r.actorId, r.role, r.projectId]

/-! ## The state -/

/-- `entityStoreOpen` tells whether the lazy `entity_store` property was used in this process;
`supply` counts the random identifiers drawn. -/
structure MemoryState (V : Type) extends Stores V where
  entityStoreOpen : Bool
  history : List HistoryRecord
  messages : List SavedMessage
  supply : Nat

abbrev Op (V α : Type) := Effect PyError (MemoryState V) α

/-- What a language model is shown to extract memories. -/
structure ExtractionPrompt where
  agentScoped : Bool
  existingMemories : List Value
  newMessages : String
  lastMessages : List SavedMessage
  instructions : Option String

inductive EmbedAction where
  | add | update | search
  deriving DecidableEq, Repr

/-- The clock and the providers while one operation runs; `none` where a call fails. -/
structure Providers (V : Type) where
  now : String
  embed : EmbedAction → String → Option V
  embedBatch : EmbedAction → List String → Option (List V)
  /-- The JSON value of the reply. -/
  extract : ExtractionPrompt → Option Value
  /-- The summary of a procedural memory. -/
  summarize : List Value → Option String → Option String
  /-- The description of an image. -/
  describeImage : Value → Option String

def Providers.embedder (O : Providers V) : Embedder V := ⟨O.embed .search, O.embedBatch .search⟩

/-- What writing asks of the language tools and of the hash functions. -/
structure Writer (V S : Type) extends Engine V S where
  normalizeMemoryText : String → String
  md5 : String → String
  /-- `uuid.uuid5` in the deduplication namespace. -/
  uuid5 : String → String
  uuid4 : Nat → String
  /-- `str.lower`. -/
  lower : String → String
  /-- `config.llm.config.get("enable_vision")`. -/
  enableVision : Bool
  /-- `self.custom_instructions`. -/
  customInstructions : Option String
  /-- `_normalize_iso_timestamp_to_utc` of a text. -/
  utcTimestamp : String → String
  /-- `date.fromisoformat(value).isoformat()`. -/
  isoDate : String → Option String
  /-- The similarity from which two texts name one entity. -/
  entitySimilarity : S

/-- A writer that knows no language and whose hashes are the texts themselves. -/
def Writer.plain [Zero S] (P : Platform) : Writer V S where
  platform := P
  calendar := ⟨fun _ => none, 0⟩
  distance := fun _ _ => 0
  textRank := fun _ _ => none
  lemmatize := id
  normalizeBm25 := fun _ score => score
  lexicalScore := fun _ _ => 0
  extractEntities := fun _ => []
  normalizeEntityText := id
  entityBoostWeight := 0
  entityThreshold := 0
  memoryCountWeight := fun _ => 0
  normalizeMemoryText := id
  md5 := id
  uuid5 := id
  uuid4 := fun n => intText n
  lower := id
  enableVision := false
  customInstructions := none
  utcTimestamp := id
  isoDate := some
  entitySimilarity := 0

/-- Providers of which none answers. -/
def Providers.silent (now : String) : Providers V where
  now := now
  embed := fun _ _ => none
  embedBatch := fun _ _ => none
  extract := fun _ => none
  summarize := fun _ _ => none
  describeImage := fun _ => none

/-! ## Database operations -/

/-- `SQLiteManager.add_history`. -/
def addHistory (r : HistoryRecord) : Op V Unit := do
  Effect.lift (bindAll r.parameters)
  Effect.modify fun s => { s with history := s.history ++ [r] }

def messageRow (now scope : String) (id : Nat) (message : Entries) : SavedMessage where
  id := id
  scope := scope
  role := Payload.get message "role"
  content := Payload.get message "content"
  name := Payload.get message "name"
  createdAt := now

/-- `ORDER BY created_at DESC LIMIT` over the messages of one scope. -/
def newestMessages (scope : String) (limit : Nat) (rows : List SavedMessage) : List SavedMessage :=
  topK (fun a b => b.createdAt ≤ a.createdAt) limit (rows.filter fun m => m.scope = scope)

/-- An id no saved message has. -/
def nextMessageId (saved : List SavedMessage) : Nat := (saved.map SavedMessage.id).foldl max 0 + 1

/-- `SQLiteManager.save_messages`: the ten newest messages of a scope are kept. -/
def saveMessages (now : String) (messages : List Entries) (scope : String) : Op V Unit := do
  let saved ← Effect.read MemoryState.messages
  let rows := messages.zipIdx.map fun m => messageRow now scope (nextMessageId saved + m.2) m.1
  Effect.lift (rows.forM fun m => bindAll [m.role, m.content, m.name])
  let all := saved ++ rows
  let kept := (newestMessages scope 10 all).map SavedMessage.id
  if messages.isEmpty then pure ()
  else Effect.modify fun s =>
    { s with messages := all.filter fun m => m.scope ≠ scope ∨ m.id ∈ kept }

/-- `SQLiteManager.get_last_messages`. -/
def getLastMessages (scope : String) (limit : Nat) : Op V (List SavedMessage) :=
  Effect.read fun s =>
    ranked (fun a b => a.createdAt ≤ b.createdAt) (newestMessages scope limit s.messages)

/-! ## Operations that leave the memories alone -/

/-- The operation leaves the memories alone. -/
def SameMemories (s s' : MemoryState V) : Prop := s'.memories = s.memories

instance : Std.Refl (SameMemories (V := V)) := ⟨fun _ => rfl⟩

instance : IsTrans (MemoryState V) SameMemories := ⟨fun _ _ _ h h' => h'.trans h⟩

theorem addHistory_within (r : HistoryRecord) :
    Effect.Within SameMemories (addHistory r : Op V Unit) :=
  Effect.Within.bind (.lift _) fun _ => .modify fun _ => rfl

theorem saveMessages_within (now : String) (messages : List Entries) (scope : String) :
    Effect.Within SameMemories (saveMessages now messages scope : Op V Unit) := by
  refine .bind (.read _) fun saved => .bind (.lift _) fun _ => ?_
  split
  · exact .pure _
  · exact .modify fun _ => rfl

theorem getLastMessages_within (scope : String) (limit : Nat) :
    Effect.Within SameMemories (getLastMessages scope limit : Op V (List SavedMessage)) := .read _

end YiQiao
