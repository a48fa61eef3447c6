import YiQiao.Memory.Messages

/-!
# Adding memories

`Memory.add` stores the messages it is given as they are, or the memories that a language model
extracts from them. Either way a text whose hash stands in the scope is passed over, and the id of a
new row is derived from the scope and the hash.
-/

namespace YiQiao

open Lib Filters

variable {V S : Type}

/-- An item of the results of `add`. -/
structure AddedMemory where
  id : String
  memory : String
  actorId : Value
  role : Value
  categories : List String
  sourceMessageIndices : Option (List Value)
  confidence : Option Value

/-- A memory about to be stored. -/
structure Candidate (V : Type) where
  text : String
  hash : String
  vector : Option V
  payload : Payload

/-- The first texts of their hashes, without the hashes that are known. -/
def selectNew {α : Type} (hash : α → String) (known : List String) (items : List α) : List α :=
  (items.foldl (fun (acc : List String × List α) a =>
    if acc.1.contains (hash a) then acc else (acc.1 ++ [hash a], acc.2 ++ [a])) (known, [])).2

/-! ## Without inference -/

/-- `msg_content` as a text; the hash of anything else raises. -/
def messageText (message : Entries) : Except PyError String :=
  match Payload.get message "content" with
  | .str s => .ok s
  | _ => .error .typeError

/-- `actor_name`, where the message has a name. -/
def actorName (message : Entries) : Value := Payload.get message "name"

/-- `per_msg_meta["categories"]`, or no categories at all. -/
def replaceCategories (categories : List String) (payload : Payload) : Payload :=
  if categories.isEmpty then Dict.erase "categories" payload
  else Dict.set "categories" (.list (categories.map .str)) payload

/-- `per_msg_meta["actor_id"]`, where the message has a name. -/
def withActor (message : Entries) (payload : Payload) : Payload :=
  if (actorName message).truthy then Dict.set "actor_id" (actorName message) payload else payload

/-- The metadata of one raw memory. -/
def rawMetadata (W : Writer V S) (metadata message : Entries) (pending : Bool) : Entries :=
  let base := Dict.erase "_allowed_categories" metadata
  let sorted := replaceCategories (categoriesOf W base (allowedCategories W metadata)) base
  let spoken := withActor message (Dict.set "role" (Payload.get message "role") sorted)
  if pending then markPending spoken else spoken

/-- The embedding of a raw memory, unless the provider is known to be down. -/
def rawVector (O : Providers V) (embeddingUnavailable : Bool) (text : String) : Option V :=
  if embeddingUnavailable then none else O.embed .add text

/-- The result item of a raw memory. -/
def rawResult (W : Writer V S) (metadata message : Entries) (id text : String) : AddedMemory where
  id := id
  memory := text
  actorId := if (actorName message).truthy then actorName message else .null
  role := Payload.get message "role"
  categories := categoriesOf W (Dict.erase "_allowed_categories" metadata) (allowedCategories W metadata)
  sourceMessageIndices := none
  confidence := none

/-- One iteration of the loop that stores raw memories. -/
def addRaw (W : Writer V S) (O : Providers V) (metadata : Entries) (scope : ScopeIds)
    (embeddingUnavailable : Bool) (added : List AddedMemory) (selected : Entries × String) :
    Op V (List AddedMemory) := do
  let vector := rawVector O embeddingUnavailable selected.2
  let created ← createMemory W O.now selected.2 vector
    (rawMetadata W metadata selected.1 vector.isNone)
    (memoryIdForHash W scope (W.contentHash selected.2)) true
  match created with
  | some id => pure (added ++ [rawResult W metadata selected.1 id selected.2])
  | none => pure added

/-- `_add_to_vector_store` with `infer=False`. -/
def addRawMessages (W : Writer V S) (O : Providers V) (messages : List Entries) (metadata : Entries)
    (scope : ScopeIds) (preVectorWrite : Nat → Except PyError Unit) (embeddingUnavailable : Bool) :
    Op V (List AddedMemory) := do
  let valid := messages.filter isCandidate
  let memories ← Effect.read fun s => s.memories
  let texts ← Effect.lift (valid.mapM fun m => do pure (m, ← messageText m))
  let hash := fun e : Entries × String => W.contentHash e.2
  let known := existingPayloadValues W.platform memories "hash" (texts.map hash) (scopeFilters scope)
  let selected := selectNew hash known texts
  Effect.lift (preVectorWrite selected.length)
  Effect.loop (addRaw W O metadata scope embeddingUnavailable) [] selected

/-! ## Extraction -/

/-- The memories of a reply: a dictionary with a list of dictionaries that have texts. -/
def parseExtraction : Value → Except PyError (List Entries)
  | .dict reply => match reply.lookup "memory" with
    | some (.list memories) => memories.mapM fun memory => match memory with
      | .dict d => match d.lookup "text" with
        | some (.str _) => .ok d
        | _ => .error .llmError
      | _ => .error .llmError
    | _ => .error .llmError
  | _ => .error .llmError

def extractedText (memory : Entries) : String :=
  match memory.lookup "text" with
  | some (.str s) => s
  | _ => ""

/-- The hashes of the memories that the language model was shown. -/
def shownHashes (W : Writer V S) (rows : List (Row V)) : List String :=
  rows.flatMap fun row =>
    let stored := Payload.get row.payload "hash"
    (if stored.truthy then [stored.pyStr W.platform] else []) ++
      match Payload.get row.payload "data" with
      | .str data => [W.contentHash data]
      | _ => []

/-- `embed_batch`, and `embed` for every text it left out. -/
def embedTexts (O : Providers V) (texts : List String) : List (String × Option V) :=
  let batch := match O.embedBatch .add texts with
    | some vectors => texts.zip vectors
    | none => []
  texts.map fun text => (text, (batch.lookup text).or (O.embed .add text))

/-- `attributed_to` of an extracted memory, where it has one. -/
def withAttribution (memory payload : Payload) : Payload :=
  let attributedTo := Payload.get memory "attributed_to"
  if attributedTo.truthy then Dict.set "attributed_to" attributedTo payload else payload

/-- The categories of an extracted memory, where it has any. -/
def withCategories (categories : List String) (payload : Payload) : Payload :=
  if categories.isEmpty then payload
  else Dict.set "categories" (.list (categories.map .str)) payload

/-- The payload of an extracted memory. -/
def extractedPayload (W : Writer V S) (now : String) (metadata memory : Entries) (embedded : Bool) :
    Payload :=
  let text := extractedText memory
  let base := Dict.update (Dict.erase "_allowed_categories" metadata)
    [("data", .str text), ("text_lemmatized", .str (W.lemmatize text)), ("hash", .str (W.contentHash text))]
  let payload := withCategories (categoriesOf W memory (allowedCategories W metadata))
    (withAttribution memory (stampCreation now base))
  if embedded then Dict.erase "embedding_status" payload else markPending payload

/-- The row of an extracted memory. -/
def extractedRow (W : Writer V S) (O : Providers V) (metadata : Entries) (scope : ScopeIds)
    (vectors : List (String × Option V)) (memory : Entries) : Row V :=
  let text := extractedText memory
  let vector := (vectors.lookup text).getD none
  ⟨memoryIdForHash W scope (W.contentHash text), vector,
    extractedPayload W O.now metadata memory vector.isSome⟩

/-! ## Persisting -/

/-- Rows inserted one by one, with failures passed over. -/
def insertEach (rows : List (Row V)) : Op V (List (Row V)) :=
  Effect.loop (fun persisted row => do
    match ← Effect.attempt (insertMemories [row]) with
    | .ok () => pure (persisted ++ [row])
    | .error _ => pure persisted) [] rows

/-- A batch insert, or one by one where the batch fails. -/
def persistRows (rows : List (Row V)) : Op V (List (Row V)) := do
  match ← Effect.attempt (insertMemories rows) with
  | .ok () => pure rows
  | .error _ => insertEach rows

/-- The history record of an extracted memory. -/
def addedRecord (row : Row V) : HistoryRecord where
  memoryId := row.id
  oldMemory := .null
  newMemory := Payload.get row.payload "data"
  event := "ADD"
  createdAt := Payload.get row.payload "created_at"
  updatedAt := .null
  isDeleted := false
  actorId := .null
  role := .null
  projectId := Payload.get row.payload "project_id"

/-- `SQLiteManager.batch_add_history`, all records or none. -/
def batchAddHistory (records : List HistoryRecord) : Op V Unit := do
  Effect.lift (records.forM fun r => bindAll r.parameters)
  Effect.modify fun s => { s with history := s.history ++ records }

/-- The history of a batch, or record by record where the batch fails. -/
def recordRows (rows : List (Row V)) : Op V Unit := do
  match ← Effect.attempt (batchAddHistory (rows.map addedRecord)) with
  | .ok () => pure ()
  | .error _ => Effect.forEach (rows.map addedRecord) fun r => do
      let _ ← Effect.attempt (addHistory r)

/-! ## Linking the entities of a batch -/

/-- An entity of a batch with the memories that mention it. -/
structure BatchEntity where
  key : String
  type : String
  text : String
  memoryIds : List String

/-- The entities of a batch, one for each normalized text. -/
def addMention (W : Writer V S) (memoryId : String) (entities : List BatchEntity)
    (entity : String × String) : List BatchEntity :=
  let key := W.normalizeEntityText entity.2
  if entities.any fun e => e.key = key then
    entities.map fun e => if e.key = key then { e with memoryIds := e.memoryIds ++ [memoryId] } else e
  else entities ++ [⟨key, entity.1, entity.2, [memoryId]⟩]

def batchEntities (W : Writer V S) (rows : List (Row V)) : List BatchEntity :=
  rows.foldl (fun entities row =>
    (W.extractEntities (extractedText [("text", Payload.get row.payload "data")])).foldl
      (addMention W row.id) entities) []

/-- `embed_batch` of the entities, or one by one; short answers are padded. -/
def embedEntities (O : Providers V) (texts : List String) : List (Option V) :=
  match O.embedBatch .add texts with
  | some vectors => (List.range texts.length).map fun i => vectors[i]?
  | none => texts.map (O.embed .add)

/-- The record an entity is linked to, as the lookups before the loop saw the collection. -/
def batchMatch [Score S] (W : Writer V S) (filters : Entries) (entities : Table V)
    (e : BatchEntity × V) : Except PyError (Option (Row V)) := do
  let hits ← entities.search W.platform W.distance e.2 1 filters
  pure ((exactEntity W entities filters e.1.key).or (semanticEntity W hits))

/-- The rows of the entities that matched nothing, under random ids in turn. -/
def newEntityRows (W : Writer V S) (filters : Entries) (supply : Nat) (entities : List (BatchEntity × V)) :
    List (Row V) :=
  entities.zipIdx.map fun e => ⟨W.uuid4 (supply + e.2), some e.1.2,
    entityPayload e.1.1.text e.1.1.type (sortedTexts e.1.1.memoryIds) filters⟩

/-- The links of a batch, after the matches were looked up. -/
def linkMatches (W : Writer V S) (filters : Entries)
    (matched : List ((BatchEntity × V) × Option (Row V))) (s : MemoryState V) : MemoryState V :=
  let entities := matched.foldl (fun entities m => match m.2 with
    | some row => atomicUnion W.platform entities row.id m.1.1.memoryIds
    | none => entities) s.entities
  let unmatched := (matched.filter fun m => m.2.isNone).map Prod.fst
  let supply := s.supply + unmatched.length
  match entities.insert (newEntityRows W filters s.supply unmatched) with
  | .ok entities => { s with entities := entities, supply := supply }
  | .error _ => { s with entities := entities, supply := supply }

/-- The entity linking of a batch; its failures are swallowed. -/
def linkBatch [Score S] (W : Writer V S) (O : Providers V) (filters : Entries) (rows : List (Row V))
    (s : MemoryState V) : MemoryState V :=
  let entities := batchEntities W rows
  let vectors := embedEntities O (entities.map BatchEntity.text)
  let valid := (entities.zip vectors).filterMap fun e => e.2.map (e.1, ·)
  if valid.isEmpty then s
  else
    let s := { s with entityStoreOpen := true }
    match valid.mapM fun e => do pure (e, ← batchMatch W filters s.entities e) with
    | .ok matched => linkMatches W filters matched s
    | .error _ => s

/-! ## With inference -/

/-- `_format_added_memory`. -/
def formatAddedMemory (W : Writer V S) (row : Row V) : AddedMemory where
  id := row.id
  memory := extractedText [("text", Payload.get row.payload "data")]
  actorId := .null
  role := .null
  categories := categoriesOf W row.payload []
  sourceMessageIndices := match row.payload.lookup "source_message_indices" with
    | some (.list indices) => some indices
    | _ => none
  confidence := match row.payload.lookup "confidence" with
    | some (.num m s) => some (.num m s)
    | _ => none

/-- The memories a language model extracts in the context of a scope. -/
def extractMemories (W : Writer V S) (O : Providers V) (messages : List Entries) (scope : ScopeIds)
    (prompt : Option String) (existing : List (Row V)) : Op V (List Entries) := do
  let lastMessages ← getLastMessages (buildSessionScope scope) 10
  let request : ExtractionPrompt := {
    agentScoped := (scope.lookup "agent_id").isSome && (scope.lookup "user_id").isNone
    existingMemories := existing.map fun row => (row.payload.lookup "data").getD (.str "")
    newMessages := parseMessages W.platform messages
    lastMessages := lastMessages
    instructions := match prompt with
      | some p => if p = "" then W.customInstructions else some p
      | none => W.customInstructions }
  match O.extract request with
  | none => Effect.raise .llmError
  | some reply => Effect.lift (parseExtraction reply)

/-- The extracted memories that are new to the scope. -/
def selectExtracted (W : Writer V S) (memories : Table V) (filters : Entries) (existing : List (Row V))
    (extracted : List Entries) : List Entries :=
  let texts := extracted.filter fun m => extractedText m ≠ ""
  let hash := fun m => W.contentHash (extractedText m)
  let known := existingPayloadValues W.platform memories "hash" (texts.map hash) filters
  selectNew hash (known ++ shownHashes W existing) texts

/-- What follows the insert: history, entity links, and the messages. -/
def finishAdd [Score S] (W : Writer V S) (O : Providers V) (messages : List Entries) (scope : ScopeIds)
    (persisted : List (Row V)) : Op V (List AddedMemory) := do
  if persisted.isEmpty then do
    saveMessages O.now messages (buildSessionScope scope)
    pure []
  else do
    recordRows persisted
    Effect.modify (linkBatch W O (scopeFilters scope) persisted)
    saveMessages O.now messages (buildSessionScope scope)
    pure (persisted.map (formatAddedMemory W))

/-- `_add_to_vector_store` from the extracted memories on. -/
def addExtracted [Score S] (W : Writer V S) (O : Providers V) (messages : List Entries)
    (metadata : Entries) (scope : ScopeIds) (preVectorWrite : Nat → Except PyError Unit)
    (existing : List (Row V)) (extracted : List Entries) : Op V (List AddedMemory) := do
  let memories ← Effect.read fun s => s.memories
  let selected := selectExtracted W memories (scopeFilters scope) existing extracted
  Effect.lift (preVectorWrite selected.length)
  if selected.isEmpty then do
    saveMessages O.now messages (buildSessionScope scope)
    pure []
  else do
    let vectors := embedTexts O (selected.map extractedText)
    let persisted ← persistRows (selected.map (extractedRow W O metadata scope vectors))
    finishAdd W O messages scope persisted

/-- `_add_to_vector_store`; without an embedding of the messages they are stored as they are. -/
def addToVectorStore [Score S] (W : Writer V S) (O : Providers V) (messages : List Entries)
    (metadata : Entries) (scope : ScopeIds) (infer : Bool) (prompt : Option String)
    (preVectorWrite : Nat → Except PyError Unit) : Op V (List AddedMemory) := do
  if !infer then addRawMessages W O messages metadata scope preVectorWrite false
  else match O.embed .search (parseMessages W.platform messages) with
    | none => addRawMessages W O messages metadata scope preVectorWrite true
    | some vector => do
        let memories ← Effect.read fun s => s.memories
        let hits ← Effect.lift
          (memories.search W.platform W.distance vector 10 (scopeFilters scope))
        let existing := hits.map Hit.row
        let extracted ← extractMemories W O messages scope prompt existing
        addExtracted W O messages metadata scope preVectorWrite existing extracted

/-! ## Procedural memories -/

/-- A random id. -/
def drawId (W : Writer V S) : Op V String := do
  let n ← Effect.read MemoryState.supply
  Effect.modify fun s => { s with supply := n + 1 }
  pure (W.uuid4 n)

/-- `_create_procedural_memory`. -/
def createProceduralMemory (W : Writer V S) (O : Providers V) (messages : List Value)
    (metadata : Entries) (prompt : Option String) (preVectorWrite : Nat → Except PyError Unit) :
    Op V (List AddedMemory) := do
  match O.summarize messages prompt with
  | none => Effect.raise .providerError
  | some text => do
      Effect.lift (preVectorWrite 1)
      match O.embed .add text with
      | none => Effect.raise .providerError
      | some vector => do
          let id ← drawId W
          let created ← createMemory W O.now text (some vector)
            (Dict.set "memory_type" (.str "procedural_memory") metadata) id false
          pure ((created.toList).map fun id => ⟨id, text, .null, .null, [], none, none⟩)

/-! ## Add -/

/-- The arguments of `Memory.add`. -/
structure AddRequest where
  messages : Value
  ids : AddIds
  metadata : Option Object
  timestamp : Option Value
  expirationDate : Value
  infer : Bool
  memoryType : Option String
  prompt : Option String
  preVectorWrite : Nat → Except PyError Unit

/-- The expiration date in the metadata, where one is given. -/
def withExpiration (date : Value) (metadata : Entries) : Entries :=
  match date with
  | .null => metadata
  | date => Dict.set "expiration_date" date metadata

/-- The checks of `Memory.add`, and the metadata and the scope it runs with. -/
def prepareAdd (W : Writer V S) (request : AddRequest) : Except PyError (Entries × ScopeIds × List Value) := do
  if request.timestamp.isSome then .error (.valueError "timestamp is not supported")
  else do
    let date ← normalizeExpirationDate W request.expirationDate
    let (metadata, scope) ← buildFiltersAndMetadata request.ids (request.metadata.map Object.entries)
    if request.memoryType.any (· ≠ "procedural_memory") then .error (.validationError "VALIDATION_002")
    else do
      let messages ← messageList request.messages
      pure (withExpiration date metadata, scope, messages)

/-- `Memory.add`. -/
def add [Score S] (W : Writer V S) (O : Providers V) (request : AddRequest) : Op V (List AddedMemory) := do
  let (metadata, scope, messages) ← Effect.lift (prepareAdd W request)
  if request.ids.agentId.isSome && request.memoryType.isSome then
    createProceduralMemory W O messages metadata request.prompt request.preVectorWrite
  else do
    let parsed ← Effect.lift (parseVisionMessages W O messages)
    addToVectorStore W O parsed metadata scope request.infer request.prompt request.preVectorWrite

end YiQiao
