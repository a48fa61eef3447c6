import YiQiao.Memory.Add

/-!
# Importing memories

`Memory.add` with an operation context stores the memories extracted from a chunk of an imported
conversation. Its hashes are those of the texts as they stand, a hash may be claimed by
another import, and the ids come from the import.
-/

namespace YiQiao

open Lib Filters

variable {V S : Type}

/-- The part of a `MemoryOperationContext` that decides what is stored, with what
`_extract_import_memories` returned. -/
structure OperationContext where
  extracted : Except PyError (List Entries)
  memoryHashClaim : String → Bool
  idFactory : String → String
  strictVectorWrite : Bool
  preVectorWrite : Nat → Except PyError Unit

/-- The hashes of the shown memories, as they are stored. -/
def storedHashes (P : Platform) (rows : List (Row V)) : List String :=
  rows.flatMap fun row =>
    let stored := Payload.get row.payload "hash"
    if stored.truthy then [stored.pyStr P] else []

/-- The new memories of an extraction whose hashes are claimed. -/
def selectImported (W : Writer V S) (context : OperationContext) (existing : List (Row V))
    (extracted : List Entries) : List Entries :=
  (selectNew (fun m => W.md5 (extractedText m)) (storedHashes W.platform existing) extracted).filter
    fun m => context.memoryHashClaim (W.md5 (extractedText m))

/-- `embed_batch`, or text by text; a text without a vector fails the import. -/
def embedImported (O : Providers V) (texts : List String) : Except PyError (List V) :=
  match O.embedBatch .add texts with
  | some vectors => if vectors.length = texts.length then .ok vectors else .error .providerError
  | none => match texts.mapM (O.embed .add) with
    | some vectors => .ok vectors
    | none => .error .providerError

/-- The ids of the shown memories in place of their numbers in the prompt. -/
def resolveLinks (existing : List (Row V)) (links : List Value) : List Value :=
  let shown := existing.zipIdx.map fun e => (intText e.2, e.1.id)
  links.map fun link => match link with
    | .str s => .str ((shown.lookup s).getD s)
    | v => v

/-- `memory_metadata["linked_memory_ids"]`, where the extraction names links. -/
def withLinks (existing : List (Row V)) (memory payload : Entries) : Payload :=
  match memory.lookup "linked_memory_ids" with
  | some (.list (link :: links)) =>
      Dict.set "linked_memory_ids" (.list (resolveLinks existing (link :: links))) payload
  | _ => payload

/-- The payload of an imported memory. -/
def importedPayload (W : Writer V S) (now : String) (existing : List (Row V)) (metadata memory : Entries) :
    Payload :=
  let text := extractedText memory
  let base := Dict.update (Dict.erase "_allowed_categories" metadata)
    [("data", .str text), ("text_lemmatized", .str (W.lemmatize text)), ("hash", .str (W.md5 text)),
      ("source_message_indices", Payload.get memory "source_message_indices"),
      ("confidence", Payload.get memory "confidence")]
  withCategories (categoriesOf W memory (allowedCategories W metadata))
    (withLinks existing memory (withAttribution memory (stampCreation now base)))

/-- The row of an imported memory. -/
def importedRow (W : Writer V S) (now : String) (context : OperationContext) (existing : List (Row V))
    (metadata : Entries) (memory : Entries × V) : Row V :=
  ⟨strip (context.idFactory (W.md5 (extractedText memory.1))), some memory.2,
    importedPayload W now existing metadata memory.1⟩

/-- The insert of an import: a batch, or one by one unless it is strict. -/
def persistImported (strict : Bool) (rows : List (Row V)) : Op V (List (Row V)) :=
  if strict then do
    insertMemories rows
    pure rows
  else persistRows rows

/-- `_add_to_vector_store_with_operation_context`, up to its history, entity links and messages. -/
def addImported [Score S] (W : Writer V S) (O : Providers V) (messages : List Entries)
    (metadata : Entries) (scope : ScopeIds) (context : OperationContext) : Op V (List (Row V)) := do
  match O.embed .search (parseMessages W.platform messages) with
  | none => Effect.raise .providerError
  | some vector => do
      let memories ← Effect.read fun s => s.memories
      let hits ← Effect.lift
        (memories.search W.platform W.distance vector 10 (scopeFilters scope))
      let existing := hits.map Hit.row
      let extracted ← Effect.lift context.extracted
      let selected := selectImported W context existing extracted
      if selected.isEmpty then pure []
      else do
        Effect.lift (context.preVectorWrite selected.length)
        let vectors ← Effect.lift (embedImported O (selected.map extractedText))
        let rows := (selected.zip vectors).map (importedRow W O.now context existing metadata)
        if (rows.map Row.id).Nodup ∧ ∀ row ∈ rows, row.id ≠ "" then
          persistImported context.strictVectorWrite rows
        else Effect.raise .typeError

/-- `Memory.add` with an operation context. -/
def addWithContext [Score S] (W : Writer V S) (O : Providers V) (request : AddRequest)
    (context : OperationContext) : Op V (List AddedMemory) := do
  let (metadata, scope, messages) ← Effect.lift (prepareAdd W request)
  if request.ids.agentId.isSome && request.memoryType.isSome then
    createProceduralMemory W O messages metadata request.prompt fun _ => .ok ()
  else do
    let parsed ← Effect.lift (parseVisionMessages W O messages)
    if request.infer then do
      let rows ← addImported W O parsed metadata scope context
      pure (rows.map (formatAddedMemory W))
    else Effect.raise (.valueError "MemoryOperationContext requires infer=True")

end YiQiao
