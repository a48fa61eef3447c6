import YiQiao.Import.Chunks
import YiQiao.Lib.Dict

/-!
# Payloads

What is sent to the memory store for a chunk, and the import key it goes by: a hash of what the chunk holds
and of the conversation it is from, whatever its place among the chunks.
-/

namespace YiQiao

open Lib

structure Conversation where
  id : String
  title : String
  messages : List ChatMessage
  createdAt : Option Value
  updatedAt : Option Value
  sourcePath : String
  sourceApp : String
  sourceUrl : Option String

structure ImportOptions extends ChunkOptions where
  entities : List (String × String)
  infer : Bool
  redactSecrets : Bool
  skipDuplicates : Bool
  maxSplitDepth : Nat
  batchId : String
  importKeySchemaVersion : Nat

def currentImportKeySchemaVersion : Nat := 2

/-- `canonical_entity_scope`. -/
def canonicalEntityScope (entities : List (String × String)) : List (String × String) :=
  ["user_id", "agent_id", "app_id", "run_id"].filterMap fun key =>
    match entities.lookup key with
    | some value => if strip value = "" then none else some (key, strip value)
    | none => none

/-- `import_key_material`. -/
structure KeyMaterial where
  sourceApp : String
  sourceUrl : Option String
  conversationId : String
  conversationTitle : String
  coreSourceIndices : List Int
  messages : List ChatMessage
  entityScope : Option (List (String × String))

/-- What an import reads from its environment. -/
structure Importer extends Chunker where
  /-- `stable_hash` of the key material. -/
  importKey : KeyMaterial → String
  entityScopeHash : List (String × String) → String
  /-- `redact_secrets`. -/
  redact : Text → Text
  /-- `coerce_iso_datetime`. -/
  isoDatetime : Option Value → Option String

structure SourceMessage where
  role : String
  content : Text
  sourceIndex : Option Int
  createdAt : Option String

structure PayloadMetadata where
  sourceApp : String
  sourcePath : String
  conversationId : String
  conversationTitle : String
  chunkIndex : Nat
  chunkCount : Nat
  messageCount : Nat
  sourceMessageIndices : List Int
  coreSourceMessageIndices : List Int
  tokenCount : Nat
  overlapTurns : Nat
  importKeySchemaVersion : Nat
  entityScopeHash : String
  importBatch : String
  importKey : String
  sourceUrl : Option String
  sourceCreatedAt : Option String
  sourceUpdatedAt : Option String
  sourceMessages : List SourceMessage

structure ImportPayload where
  messages : List (String × Text)
  metadata : PayloadMetadata
  infer : Bool
  entities : List (String × String)
  timestamp : Option String

section

variable (I : Importer) (options : ImportOptions)

def keyMaterial (conversation : Conversation) (chunk : MessageChunk) : KeyMaterial where
  sourceApp := conversation.sourceApp
  sourceUrl := conversation.sourceUrl
  conversationId := conversation.id
  conversationTitle := conversation.title
  coreSourceIndices := chunk.coreSourceIndices
  messages := ensureSourceIndices chunk.messages
  entityScope :=
    if options.importKeySchemaVersion = currentImportKeySchemaVersion then
      some (canonicalEntityScope options.entities)
    else none

/-- The message before takes in one of its source index and role. -/
def addSourceMessage (messages : List SourceMessage) (m : SourceMessage) : List SourceMessage :=
  match messages.getLast? with
  | some last =>
      if m.sourceIndex.isSome ∧ last.sourceIndex = m.sourceIndex ∧ last.role = m.role then
        messages.dropLast ++ [{ last with content := last.content ++ ['\n', '\n'] ++ m.content }]
      else messages ++ [m]
  | none => [m]

/-- The text of a message as it is sent. -/
def sentContent (content : Text) : Text := if options.redactSecrets then I.redact content else content

/-- `build_payload` of a chunk. -/
def buildPayload (conversation : Conversation) (chunk : MessageChunk) (chunkIndex chunkCount : Nat) :
    ImportPayload :=
  let messages := ensureSourceIndices chunk.messages
  let timestamp := I.isoDatetime
    (((messages.head?.bind ChatMessage.createdAt).filter Value.truthy).or conversation.createdAt)
  { messages := messages.map fun m => (m.role, sentContent I options m.content)
    metadata :=
      { sourceApp := conversation.sourceApp
        sourcePath := conversation.sourcePath
        conversationId := conversation.id
        conversationTitle := conversation.title
        chunkIndex := chunkIndex
        chunkCount := chunkCount
        messageCount := messages.length
        sourceMessageIndices := sourceIndices messages
        coreSourceMessageIndices := chunk.coreSourceIndices
        tokenCount := chunk.tokenCount
        overlapTurns := chunk.overlapTurns
        importKeySchemaVersion := options.importKeySchemaVersion
        entityScopeHash := I.entityScopeHash (canonicalEntityScope options.entities)
        importBatch := options.batchId
        importKey := I.importKey (keyMaterial options conversation chunk)
        sourceUrl := conversation.sourceUrl.filter (· ≠ "")
        sourceCreatedAt := timestamp
        sourceUpdatedAt := I.isoDatetime conversation.updatedAt
        sourceMessages := (messages.map fun m => (⟨m.role, sentContent I options m.content, m.sourceIndex,
          I.isoDatetime m.createdAt⟩ : SourceMessage)).foldl addSourceMessage [] }
    infer := options.infer
    entities := options.entities
    timestamp := timestamp }

/-- `_message_chunk_import_key`. -/
def messageChunkImportKey (conversation : Conversation) (chunk : MessageChunk) : String :=
  (buildPayload I options conversation chunk 0 1).metadata.importKey

/-- The import key of a chunk does not depend on its place. -/
theorem importKey_buildPayload (conversation : Conversation) (chunk : MessageChunk) (chunkIndex chunkCount : Nat) :
    (buildPayload I options conversation chunk chunkIndex chunkCount).metadata.importKey =
      messageChunkImportKey I options conversation chunk := rfl

/-- What `payloads` is keyed by. -/
structure PayloadKey where
  sourcePath : String
  conversationId : String
  chunkIndex : Nat
  deriving DecidableEq

/-- The payloads of the prepared chunks as `run_import_job` keeps them, by source path, conversation id and index:
a later one takes the place of an earlier one. -/
def preparedPayloads (prepared : List (Conversation × List MessageChunk)) :
    List (PayloadKey × ImportPayload) :=
  prepared.foldl (fun payloads item => item.2.zipIdx.foldl (fun payloads chunk =>
    Dict.set ⟨item.1.sourcePath, item.1.id, chunk.2⟩
      (buildPayload I options item.1 chunk.1 chunk.2 item.2.length) payloads) payloads) []

/-- The payload that `process_chunk` is given for a prepared chunk. -/
def initialPayload (prepared : List (Conversation × List MessageChunk)) (conversation : Conversation)
    (chunkIndex : Nat) : Option ImportPayload :=
  (preparedPayloads I options prepared).lookup ⟨conversation.sourcePath, conversation.id, chunkIndex⟩

/-! ## Where no source repeats -/

/-- The entries that are written, in the order of the writes. -/
def preparedEntries (prepared : List (Conversation × List MessageChunk)) :
    List (PayloadKey × ImportPayload) :=
  prepared.flatMap fun item => item.2.zipIdx.map fun chunk =>
    (⟨item.1.sourcePath, item.1.id, chunk.2⟩, buildPayload I options item.1 chunk.1 chunk.2 item.2.length)

def Conversation.source (conversation : Conversation) : String × String :=
  (conversation.sourcePath, conversation.id)

/-- No two conversations have one source path and one id. -/
def SourcesApart (prepared : List (Conversation × List MessageChunk)) : Prop :=
  (prepared.map fun item => item.1.source).Nodup

theorem preparedPayloads_eq (prepared : List (Conversation × List MessageChunk)) :
    preparedPayloads I options prepared = Dict.update [] (preparedEntries I options prepared) := by
  have hstep : ∀ payloads : List (PayloadKey × ImportPayload),
      prepared.foldl (fun payloads item => item.2.zipIdx.foldl (fun payloads chunk =>
        Dict.set ⟨item.1.sourcePath, item.1.id, chunk.2⟩
          (buildPayload I options item.1 chunk.1 chunk.2 item.2.length) payloads) payloads) payloads =
        Dict.update payloads (preparedEntries I options prepared) := by
    induction prepared with
    | nil => exact fun _ => rfl
    | cons item rest ih =>
      intro payloads
      rw [List.foldl_cons, ih]
      simp only [preparedEntries, List.flatMap_cons, Dict.update, List.foldl_append, List.foldl_map]
  exact hstep []

theorem preparedEntries_unique {prepared : List (Conversation × List MessageChunk)} (h : SourcesApart prepared) :
    Dict.Unique (preparedEntries I options prepared) := by
  induction prepared with
  | nil => exact List.nodup_nil
  | cons item rest ih =>
    obtain ⟨hitem, hrest⟩ := List.nodup_cons.mp h
    rw [Dict.Unique, preparedEntries, List.flatMap_cons, List.map_append, List.nodup_append]
    refine ⟨?_, ih hrest, ?_⟩
    · rw [List.map_map]
      have hindices : (item.2.zipIdx.map fun chunk => chunk.2).Nodup := by
        rw [show (fun chunk : MessageChunk × Nat => chunk.2) = Prod.snd from rfl, List.zipIdx_map_snd]
        exact List.nodup_range'
      exact List.Nodup.of_map PayloadKey.chunkIndex (by rw [List.map_map]; exact hindices)
    · intro key hkey key' hkey' heq
      subst heq
      obtain ⟨entry, hentry, rfl⟩ := List.mem_map.mp hkey
      obtain ⟨chunk, -, rfl⟩ := List.mem_map.mp hentry
      obtain ⟨entry', hentry', heq⟩ := List.mem_map.mp hkey'
      obtain ⟨item', hitem', hentry'⟩ := List.mem_flatMap.mp hentry'
      obtain ⟨chunk', -, rfl⟩ := List.mem_map.mp hentry'
      simp only [PayloadKey.mk.injEq] at heq
      exact hitem (List.mem_map.mpr ⟨item', hitem', Prod.ext heq.1 heq.2.1⟩)

/-- Where no source repeats, the payload of a prepared chunk is its own. -/
theorem initialPayload_own {prepared : List (Conversation × List MessageChunk)} (h : SourcesApart prepared)
    {conversation : Conversation} {chunks : List MessageChunk} (hmem : (conversation, chunks) ∈ prepared)
    {chunkIndex : Nat} {chunk : MessageChunk} (hchunk : chunks[chunkIndex]? = some chunk) :
    initialPayload I options prepared conversation chunkIndex =
      some (buildPayload I options conversation chunk chunkIndex chunks.length) := by
  have hunique := preparedEntries_unique I options h
  rw [initialPayload, preparedPayloads_eq, Dict.lookup_update [] hunique, List.lookup_nil, Option.or_none]
  refine (Dict.mem_iff_lookup hunique).mp (List.mem_flatMap.mpr ⟨_, hmem, List.mem_map.mpr ⟨(chunk, chunkIndex), ?_, rfl⟩⟩)
  exact List.mem_zipIdx_iff_getElem?.mpr hchunk

end

end YiQiao
