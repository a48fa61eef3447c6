import YiQiao.Import.Payload
import YiQiao.Import.Repository
import YiQiao.Memory.Crossing

/-!
# Storing a chunk

`_store_import_chunk` and `_reconcile_import_vector_rows` of `main.py`, with the import of the memory
layer: the hashes of new facts are claimed in the repository before their rows are written, and marked
with the ids of the rows afterwards.
-/

namespace YiQiao

open Lib Filters

variable {V S : Type}

inductive StoreError
  | memory (e : PyError)
  | repository (e : RepositoryError)
  /-- `RuntimeError`. -/
  | runtime (text : String)

/-- The memories, the repository, and `context.claimed_memory_hashes`. -/
structure ChunkWorld (V : Type) where
  memory : MemoryState V
  db : Database
  claimed : List String

abbrev ChunkOp (V α : Type) := Effect StoreError (ChunkWorld V) α

def inMemory {α : Type} (op : Op V α) : ChunkOp V α :=
  ⟨fun s => match op.run s.memory with
    | (.ok a, memory) => (.ok a, { s with memory })
    | (.error e, memory) => (.error (.memory e), { s with memory })⟩

/-- A transaction: an error rolls it back. -/
def inDatabase {α : Type} (op : Database → Except RepositoryError (α × Database)) : ChunkOp V α :=
  ⟨fun s => match op s.db with
    | .ok (a, db) => (.ok a, { s with db })
    | .error e => (.error (.repository e), s)⟩

/-- The memories that a job found with a hash in a conversation when it began. -/
abbrev LegacyIndex := List ((String × String) × String)

/-- A call of `_store_import_chunk`. The language model, the quota guard and the webhook stand as what
they answer or raise; so do the history, entity and message writes that follow the vectors. -/
structure ChunkStorage (V S : Type) where
  writer : Writer V S
  providers : Providers V
  messages : List Entries
  metadata : Entries
  scope : ScopeIds
  extracted : Except PyError (List Entries)
  preVectorWrite : Nat → Except PyError Unit
  idFactory : String → String
  sideEffects : Except PyError Unit
  projectId : String
  jobId : String
  chunkId : String
  conversationId : String
  conversationScope : String
  importKey : String
  fence : Option String
  now : Instant
  hashRowId : String → String
  graphRowId : String → String
  legacy : LegacyIndex
  /-- `execution.reconcile_existing or execution.attempt > 1`. -/
  reconciles : Bool

/-- `claim_memory_hash` of the repository. -/
def claimMemoryHash (fence : Option String) (c : HashClaim) (now : Instant) (db : Database) :
    Except RepositoryError (Bool × Database) :=
  match insertHash fence c now db with
  | .error .conflict => reclaimHash fence c now db
  | answer => answer

namespace ChunkStorage

variable (C : ChunkStorage V S)

def claim (hash : String) : HashClaim :=
  ⟨C.hashRowId hash, C.projectId, C.conversationScope, hash, C.jobId, C.chunkId⟩

def markHashes (hashes : List String) (idByHash : List (String × String)) : ChunkOp V Unit :=
  inDatabase fun db => (markMemoryHashesSucceeded C.fence C.projectId C.conversationScope C.jobId C.chunkId hashes
    idByHash C.now db).map ((), ·)

/-- The callback `claim_memory_hash`. -/
def claimHash (hash : String) : ChunkOp V Bool :=
  match C.legacy.lookup (C.conversationId, hash) with
  | some legacyId => do
    let claimed ← inDatabase (claimMemoryHash C.fence (C.claim hash) C.now)
    if claimed then C.markHashes [hash] [(hash, legacyId)]
    pure false
  | none => inDatabase (claimMemoryHash C.fence (C.claim hash) C.now)

/-- The loop over the extracted memories, from the first new ones of their hashes on. -/
def selectClaimed (memories : List Entries) : ChunkOp V (List Entries) :=
  Effect.loop (fun selected memory => do
    let hash := C.writer.md5 (extractedText memory)
    if ← C.claimHash hash then
      Effect.modify fun s => { s with claimed := s.claimed ++ [hash] }
      pure (selected ++ [memory])
    else pure selected) [] memories

/-- The context that the import of the memory layer runs with, its claims apart. -/
def context : OperationContext :=
  ⟨C.extracted, fun _ => true, C.idFactory, true, C.preVectorWrite⟩

/-- `_add_to_vector_store_with_operation_context`. -/
def addClaimed [Score S] : ChunkOp V (List (Row V)) := do
  Effect.modify fun s => { s with claimed := [] }
  match C.providers.embed .search (parseMessages C.writer.platform C.messages) with
  | none => .raise (.memory .providerError)
  | some vector => do
    let memories ← .read fun s => s.memory.memories
    let hits ← inMemory (.lift (memories.search C.writer.platform C.writer.distance vector 10 (scopeFilters C.scope)))
    let existing := hits.map Hit.row
    let extracted ← inMemory (.lift C.extracted)
    let fresh := selectNew (fun m => C.writer.md5 (extractedText m)) (storedHashes C.writer.platform existing) extracted
    let selected ← C.selectClaimed fresh
    if selected.isEmpty then pure []
    else do
      inMemory (.lift (C.preVectorWrite selected.length))
      let vectors ← inMemory (.lift (embedImported C.providers (selected.map extractedText)))
      let rows := (selected.zip vectors).map
        (importedRow C.writer C.providers.now C.context existing C.metadata)
      if (rows.map Row.id).Nodup ∧ ∀ row ∈ rows, row.id ≠ "" then do
        inMemory (insertMemories rows)
        inMemory (.lift C.sideEffects)
        pure rows
      else .raise (.memory .typeError)

/-- `release_memory_hashes` of what the call has claimed. -/
def releaseClaimed : ChunkOp V Unit := do
  let claimed ← .read ChunkWorld.claimed
  inDatabase fun db => (releaseMemoryHashes C.fence C.jobId C.chunkId (some claimed) C.now db).map fun r => ((), r.2)

def addItems (memoryIds : List String) : ChunkOp V Unit :=
  inDatabase fun db => (addGraphItems C.fence C.jobId C.chunkId
    (memoryIds.map fun id => ⟨C.graphRowId id, id, id⟩) C.now db).map ((), ·)

def succeedManifest (memoryIds : List String) : ChunkOp V Unit :=
  inDatabase fun db => (markManifest C.fence C.projectId C.importKey C.jobId ⟨.succeeded, some memoryIds, none⟩ C.now
    db).map fun r => ((), r.2)

/-- What follows the storage: the hashes, the graph items and the manifest are marked. -/
def finish (claimed memoryIds : List String) : ChunkOp V (List String) := do
  C.markHashes claimed (claimed.zip memoryIds)
  C.addItems memoryIds
  C.succeedManifest memoryIds
  pure memoryIds

/-- The storage of the chunk; where it raises, what it claimed is released. -/
def storeFresh [Score S] : ChunkOp V (List String) := do
  match ← Effect.attempt C.addClaimed with
  | .error e =>
    C.releaseClaimed
    .raise e
  | .ok rows => do
    let claimed ← .read ChunkWorld.claimed
    C.finish claimed (rows.map Row.id)

/-- `_import_rows_for_key`. -/
def rowsForKey (memories : Table V) : Except PyError (List (Row V)) :=
  memories.list C.writer.platform [("project_id", .str C.projectId), ("import_key", .str C.importKey)] 1000

/-- `ids_by_hash`. -/
def idsByHash (rows : List (Row V)) : List (String × String) :=
  rows.foldl (fun ids row =>
    let hash := Payload.get row.payload "hash"
    if hash.truthy then Dict.set (hash.pyStr C.writer.platform) row.id ids else ids) []

def hasText (row : Row V) : Bool :=
  match Payload.get row.payload "data" with
  | .str text => strip text ≠ ""
  | _ => false

/-- `_reconcile_import_vector_rows`, once there are rows. -/
def reconcile (rows : List (Row V)) : ChunkOp V (List String) := do
  if rows.all hasText = false then .raise (.runtime "Persisted import vector row is missing memory text.")
  else do
    inMemory (.lift C.sideEffects)
    let ids := C.idsByHash rows
    C.markHashes (ids.map Prod.fst) ids
    C.addItems (rows.map Row.id)
    C.succeedManifest (rows.map Row.id)
    pure (rows.map Row.id)

/-- `_store_import_chunk`. -/
def store [Score S] : ChunkOp V (List String) := do
  if C.reconciles then do
    let memories ← .read fun s => s.memory.memories
    let rows ← inMemory (.lift (C.rowsForKey memories))
    if rows.isEmpty then C.storeFresh else C.reconcile rows
  else C.storeFresh

end ChunkStorage

/-! ## Records of hashes -/

/-- A stored memory goes by this id, has this hash, and the hash is that of its text. -/
def Named (W : Writer V S) (stored : Set (Row V)) (hash id : String) : Prop :=
  ∃ row ∈ stored, row.id = id ∧ row.payload.lookup "hash" = some (.str hash) ∧ Digests W true row.payload

theorem Named.mono {W : Writer V S} {stored stored' : Set (Row V)} {hash id : String} (h : Named W stored hash id)
    (hsub : stored ⊆ stored') : Named W stored' hash id := by
  obtain ⟨row, hrow, hnamed⟩ := h
  exact ⟨row, hsub hrow, hnamed⟩

/-- Every hash that is recorded as succeeded names a memory. -/
def RecordsName (names : String → String → Prop) (db : Database) : Prop :=
  ∀ row ∈ db.hashes, row.status = .succeeded → ∃ id, row.memoryId = some id ∧ names row.memoryHash id

section Records

variable {names : String → String → Prop} {db db' : Database} {fence : Option String} {now : Instant}

theorem RecordsName.of_hashes (h : RecordsName names db) (heq : db'.hashes = db.hashes) : RecordsName names db' := by
  rw [RecordsName, heq]
  exact h

theorem RecordsName.mono {names' : String → String → Prop} (h : RecordsName names db)
    (hmono : ∀ hash id, names hash id → names' hash id) : RecordsName names' db := by
  intro row hrow hstatus
  obtain ⟨id, hid, hnames⟩ := h row hrow hstatus
  exact ⟨id, hid, hmono _ _ hnames⟩

theorem insertHash_records {c : HashClaim} {answer : Bool} (h : RecordsName names db)
    (hrun : insertHash fence c now db = .ok (answer, db')) : RecordsName names db' := by
  rw [insertHash, Fallible.bind_ok] at hrun
  obtain ⟨hashes, hinsert, hrun⟩ := hrun
  cases hrun
  rw [insertRow] at hinsert
  split at hinsert
  · cases hinsert
  · split at hinsert
    · cases hinsert
    · cases hinsert
      intro row hrow hstatus
      rcases List.mem_append.mp hrow with hrow | hrow
      · exact h row hrow hstatus
      · rw [List.mem_singleton.mp hrow] at hstatus
        cases hstatus

theorem reclaimHash_records {c : HashClaim} {answer : Bool} (h : RecordsName names db)
    (hrun : reclaimHash fence c now db = .ok (answer, db')) : RecordsName names db' := by
  rw [reclaimHash] at hrun
  split at hrun
  · cases hrun
  · rw [Fallible.bind_ok] at hrun
    obtain ⟨_, _, hrun⟩ := hrun
    cases hrun
    intro row hrow hstatus
    rcases mem_updateRows.mp hrow with ⟨hrow, _⟩ | ⟨old, _, _, rfl⟩
    · exact h row hrow hstatus
    · cases hstatus

theorem claimMemoryHash_records {c : HashClaim} {answer : Bool} (h : RecordsName names db)
    (hrun : claimMemoryHash fence c now db = .ok (answer, db')) : RecordsName names db' := by
  rw [claimMemoryHash] at hrun
  split at hrun
  · exact reclaimHash_records h hrun
  · exact insertHash_records h hrun

theorem releaseMemoryHashes_records {jobId chunkId : String} {given : Option (List String)} {released : Nat}
    (h : RecordsName names db) (hrun : releaseMemoryHashes fence jobId chunkId given now db = .ok (released, db')) :
    RecordsName names db' := by
  rw [releaseMemoryHashes] at hrun
  split at hrun
  · rw [Fallible.bind_ok] at hrun
    obtain ⟨_, _, hrun⟩ := hrun
    cases hrun
    exact h
  · rw [Fallible.bind_ok] at hrun
    obtain ⟨_, _, hrun⟩ := hrun
    cases hrun
    exact fun row hrow hstatus => h row (mem_deleteRows.mp hrow).1 hstatus

/-- Marking records the ids it is given. -/
theorem markMemoryHashesSucceeded_records {projectId conversationId jobId chunkId : String} {hashes : List String}
    {idByHash : List (String × String)} (h : RecordsName names db)
    (hids : ∀ hash ∈ hashes, ∃ id, idByHash.lookup hash = some id ∧ names hash id)
    (hrun : markMemoryHashesSucceeded fence projectId conversationId jobId chunkId hashes idByHash now db = .ok db') :
    RecordsName names db' := by
  rw [markMemoryHashesSucceeded, Fallible.bind_ok] at hrun
  obtain ⟨_, _, hrun⟩ := hrun
  cases hrun
  rw [RecordsName]
  dsimp only
  have hrows : ∀ row ∈ db.hashes, row.status = .succeeded → ∃ id, row.memoryId = some id ∧ names row.memoryHash id := h
  clear h
  generalize db.hashes = rows at hrows
  induction hashes generalizing rows with
  | nil => exact hrows
  | cons hash hashes ih =>
      refine ih (fun hash hmem => hids hash (List.mem_cons_of_mem _ hmem)) _ fun row hrow hstatus => ?_
      rcases mem_updateRows.mp hrow with ⟨hrow, _⟩ | ⟨old, _, hhit, rfl⟩
      · exact hrows row hrow hstatus
      · obtain ⟨id, hlookup, hnames⟩ := hids hash List.mem_cons_self
        have hhash : old.memoryHash = hash := by
          rw [Bool.and_eq_true, Bool.and_eq_true] at hhit
          simpa [HashRow.isAt] using (Bool.and_eq_true_iff.mp hhit.1.1).2
        refine ⟨id, hlookup, ?_⟩
        rw [← hhash] at hnames
        exact hnames

theorem changeJob_hashes {jobId : String} {change : JobRow → JobRow} {r : Option JobRow × Database}
    (hrun : changeJob fence jobId now change db = .ok r) : r.2.hashes = db.hashes := by
  rw [changeJob] at hrun
  dsimp only at hrun
  split at hrun
  · cases hrun
  · cases hrun
    rfl

theorem addGraphItems_hashes {jobId chunkId : String} {items : List GraphItem}
    (hrun : addGraphItems fence jobId chunkId items now db = .ok db') : db'.hashes = db.hashes := by
  rw [addGraphItems] at hrun
  split at hrun
  · cases hrun
    rfl
  · rw [Fallible.bind_ok] at hrun
    obtain ⟨inserted, _, hrun⟩ := hrun
    dsimp only at hrun
    split at hrun
    · obtain ⟨changed, hchanged, hrun⟩ := Fallible.bind_ok.mp hrun
      cases hrun
      have hhashes := changeJob_hashes hchanged
      exact hhashes
    · obtain ⟨_, _, hrun⟩ := Fallible.bind_ok.mp hrun
      cases hrun
      rfl

theorem markManifest_hashes {projectId importKey jobId : String} {mark : ManifestMark}
    {r : Option ManifestRow × Database} (hrun : markManifest fence projectId importKey jobId mark now db = .ok r) :
    r.2.hashes = db.hashes := by
  rw [markManifest, Fallible.bind_ok] at hrun
  obtain ⟨_, _, hrun⟩ := hrun
  cases hrun
  rfl

end Records

/-! ## What a call keeps -/

/-- The rows that are stored, and those that were changed or deleted. -/
def keptRows (gone : Set (Row V)) (memory : MemoryState V) : Set (Row V) :=
  {row | row ∈ memory.memories.rows ∨ row ∈ gone}

/-- What a call finds and leaves. -/
structure Importable (W : Writer V S) (known : Set ((String × String) × String)) (gone : Set (Row V)) (s : ChunkWorld V) : Prop where
  digested : ∀ row ∈ s.memory.memories.rows, Digests W true row.payload
  records : RecordsName (Named W (keptRows gone s.memory)) s.db
  known : ∀ e ∈ known, Named W (keptRows gone s.memory) e.1.2 e.2

def KeepsImportable (W : Writer V S) (known : Set ((String × String) × String)) (gone : Set (Row V))
    (s s' : ChunkWorld V) : Prop :=
  Importable W known gone s → Importable W known gone s'

section

variable {W : Writer V S} {known : Set ((String × String) × String)} {gone : Set (Row V)} {s s' : ChunkWorld V}

instance : Std.Refl (KeepsImportable W known gone) := ⟨fun _ h => h⟩

instance : IsTrans (ChunkWorld V) (KeepsImportable W known gone) := ⟨fun _ _ _ h h' hs => h' (h hs)⟩

theorem Importable.inDatabase {α : Type} {op : Database → Except RepositoryError (α × Database)}
    (h : Importable W known gone s)
    (hop : ∀ a db, op s.db = .ok (a, db) → RecordsName (Named W (keptRows gone s.memory)) db) :
    Importable W known gone ((inDatabase op).run s).2 := by
  rw [YiQiao.inDatabase]
  dsimp only
  cases hrun : op s.db with
  | error e => exact h
  | ok r => exact ⟨h.digested, hop r.1 r.2 hrun, h.known⟩

theorem inDatabase_within {α : Type} {op : Database → Except RepositoryError (α × Database)}
    (hop : ∀ names db a db', RecordsName names db → op db = .ok (a, db') → RecordsName names db') :
    Effect.Within (KeepsImportable W known gone) (inDatabase op) :=
  fun s h => h.inDatabase fun _ _ hrun => hop _ s.db _ _ h.records hrun

theorem keptRows_append {memory memory' : MemoryState V} {rows : List (Row V)}
    (h : memory'.memories.rows = memory.memories.rows ++ rows) : keptRows gone memory ⊆ keptRows gone memory' := by
  rintro row (hrow | hrow)
  · exact .inl (h ▸ List.mem_append_left _ hrow)
  · exact .inr hrow

theorem Importable.grow {memory : MemoryState V} {rows : List (Row V)} (h : Importable W known gone s)
    (hrows : memory.memories.rows = s.memory.memories.rows ++ rows) (hnew : ∀ row ∈ rows, Digests W true row.payload) :
    Importable W known gone { s with memory } where
  digested := by
    intro row hrow
    rcases List.mem_append.mp (hrows ▸ hrow) with hrow | hrow
    · exact h.digested row hrow
    · exact hnew row hrow
  records := h.records.mono fun _ _ hnamed => hnamed.mono (keptRows_append hrows)
  known := fun e he => (h.known e he).mono (keptRows_append hrows)

theorem inMemory_lift_within {α : Type} (x : Except PyError α) :
    Effect.Within (KeepsImportable W known gone) (inMemory (.lift x) : ChunkOp V α) := by
  intro s h
  rw [inMemory]
  dsimp only [Effect.run_lift]
  cases x with
  | error e => exact h
  | ok a => exact h

theorem inMemory_lift_ok {α : Type} {x : Except PyError α} {a : α} {s s' : ChunkWorld V}
    (h : (inMemory (.lift x) : ChunkOp V α).run s = (.ok a, s')) : s' = s := by
  rw [inMemory] at h
  cases x with
  | error e => cases h
  | ok b =>
      cases h
      rfl

theorem inMemory_lift_value {α : Type} {x : Except PyError α} {a : α} {s s' : ChunkWorld V}
    (h : (inMemory (.lift x) : ChunkOp V α).run s = (.ok a, s')) : x = .ok a := by
  rw [inMemory] at h
  cases x with
  | error e => cases h
  | ok b =>
      cases h
      rfl

theorem inMemory_insert_ok {rows : List (Row V)} {s s' : ChunkWorld V}
    (h : (inMemory (insertMemories rows)).run s = (.ok (), s')) :
    s'.claimed = s.claimed ∧ s'.memory.memories.rows = s.memory.memories.rows ++ rows := by
  rw [inMemory] at h
  dsimp only at h
  rcases insertMemories_run rows s.memory with ⟨memory, hrun, hrows⟩ | ⟨hrun, _⟩
  · rw [hrun] at h
    cases h
    exact ⟨rfl, hrows⟩
  · rw [hrun] at h
    cases h

theorem insertMemories_keeps {rows : List (Row V)} (hnew : ∀ row ∈ rows, Digests W true row.payload) :
    Effect.Within (KeepsImportable W known gone) (inMemory (insertMemories rows)) := by
  intro s h
  rw [inMemory]
  dsimp only
  rcases insertMemories_run rows s.memory with ⟨memory, hrun, hrows⟩ | ⟨hrun, _⟩
  · rw [hrun]
    exact h.grow hrows hnew
  · rw [hrun]
    exact h

end

section

variable {C : ChunkStorage V S} {known : Set ((String × String) × String)} {gone : Set (Row V)} {s s' : ChunkWorld V}

namespace ChunkStorage

theorem markHashes_keeps {hashes : List String} {ids : List (String × String)}
    (h : Importable C.writer known gone s)
    (hids : ∀ hash ∈ hashes, ∃ id, ids.lookup hash = some id ∧ Named C.writer (keptRows gone s.memory) hash id) :
    Importable C.writer known gone ((C.markHashes hashes ids).run s).2 := by
  refine h.inDatabase fun _ db hrun => ?_
  obtain ⟨db, hmark, hrun⟩ := Fallible.map_ok.mp hrun
  cases hrun
  exact markMemoryHashesSucceeded_records h.records hids hmark

theorem claimHash_within (hknown : ∀ e ∈ C.legacy, e ∈ known) (hash : String) :
    Effect.Within (KeepsImportable C.writer known gone) (C.claimHash hash) := by
  have hclaim : Effect.Within (KeepsImportable C.writer known gone)
      (inDatabase (claimMemoryHash C.fence (C.claim hash) C.now) : ChunkOp V Bool) :=
    inDatabase_within fun _ _ _ _ h hrun => claimMemoryHash_records h hrun
  rw [claimHash]
  split
  · rename_i legacyId hlegacy
    refine .bind hclaim fun claimed => ?_
    split
    · refine .bind (fun s h => ?_) fun _ => .pure _
      refine markHashes_keeps h fun hash' hmem => ?_
      rw [List.mem_singleton.mp hmem]
      obtain ⟨before, after, hsplit, _⟩ := List.lookup_eq_some_iff.mp hlegacy
      exact ⟨legacyId, by simp, h.known ((C.conversationId, hash), legacyId) (hknown _ (by simp [hsplit]))⟩
    · exact .pure _
  · exact hclaim

/-! ## What a claim leaves alone -/

def SameStored (s s' : ChunkWorld V) : Prop := s'.memory = s.memory ∧ s'.claimed = s.claimed

instance : Std.Refl (SameStored (V := V)) := ⟨fun _ => ⟨rfl, rfl⟩⟩

instance : IsTrans (ChunkWorld V) SameStored := ⟨fun _ _ _ h h' => ⟨h'.1.trans h.1, h'.2.trans h.2⟩⟩

theorem inDatabase_same {α : Type} (op : Database → Except RepositoryError (α × Database)) :
    Effect.Within (SameStored (V := V)) (inDatabase op) := by
  intro s
  rw [inDatabase]
  dsimp only
  cases op s.db with
  | error e => exact ⟨rfl, rfl⟩
  | ok r => exact ⟨rfl, rfl⟩

theorem claimHash_same (hash : String) : Effect.Within SameStored (C.claimHash hash) := by
  rw [claimHash]
  split
  · refine .bind (inDatabase_same _) fun claimed => ?_
    split
    · exact .bind (inDatabase_same _) fun _ => .pure _
    · exact .pure _
  · exact inDatabase_same _

/-- The claimed hashes are those of the selected memories, in order. -/
theorem selectClaimed_ok {memories selected : List Entries} (h : (C.selectClaimed memories).run s = (.ok selected, s')) :
    s'.memory = s.memory ∧ s'.claimed = s.claimed ++ selected.map fun m => C.writer.md5 (extractedText m) := by
  rw [selectClaimed] at h
  refine Effect.loop_ok (I := fun _ selected t => t.memory = s.memory ∧
    t.claimed = s.claimed ++ selected.map fun m => C.writer.md5 (extractedText m)) h ⟨rfl, by simp⟩ ?_
  intro done memory rest selected t selected' t' _ ⟨hmemory, hclaimed⟩ hrun
  dsimp only at hrun
  rw [Effect.bind_ok] at hrun
  obtain ⟨claimed, t₁, hclaim, hrun⟩ := hrun
  obtain ⟨hmemory₁, hclaimed₁⟩ := (claimHash_same _).of_ok hclaim
  cases claimed with
  | true =>
      cases hrun
      exact ⟨hmemory₁.trans hmemory, by simp [hclaimed₁, hclaimed]⟩
  | false =>
      cases hrun
      exact ⟨hmemory₁.trans hmemory, hclaimed₁.trans hclaimed⟩

/-! ## Storing -/

theorem importedRow_fields (existing : List (Row V)) (memory : Entries × V) :
    let row := importedRow C.writer C.providers.now C.context existing C.metadata memory
    row.payload.lookup "hash" = some (.str (C.writer.md5 (extractedText memory.1))) ∧
      Digests C.writer true row.payload := by
  have hagrees : Agrees (importedPayload C.writer C.providers.now existing C.metadata memory.1)
      (textBase C.writer (extractedText memory.1) (C.writer.md5 (extractedText memory.1)) C.metadata) :=
    importedPayload_agrees existing
  exact ⟨(textFields_of_agrees hagrees).2.2, textBase_digests hagrees (.inr ⟨rfl, rfl⟩)⟩

theorem importedRows_digested (existing : List (Row V)) (selected : List (Entries × V)) :
    ∀ row ∈ selected.map (importedRow C.writer C.providers.now C.context existing C.metadata),
      Digests C.writer true row.payload := by
  intro row hrow
  obtain ⟨memory, _, rfl⟩ := List.mem_map.mp hrow
  exact (importedRow_fields existing memory).2

theorem selectClaimed_within (hknown : ∀ e ∈ C.legacy, e ∈ known) (memories : List Entries) :
    Effect.Within (KeepsImportable C.writer known gone) (C.selectClaimed memories) := by
  refine .loop (fun selected memory _ => ?_) _
  refine .bind (claimHash_within hknown _) fun claimed => ?_
  split
  · exact .bind (.modify fun s h => ⟨h.digested, h.records, h.known⟩) fun _ => .pure _
  · exact .pure _

variable [Score S]

theorem addClaimed_within (hknown : ∀ e ∈ C.legacy, e ∈ known) :
    Effect.Within (KeepsImportable C.writer known gone) C.addClaimed := by
  rw [addClaimed]
  refine .bind (.modify fun s h => ⟨h.digested, h.records, h.known⟩) fun _ => ?_
  split
  · exact .raise _
  · refine .bind (.read _) fun memories => .bind (inMemory_lift_within _) fun hits =>
      .bind (inMemory_lift_within _) fun extracted => .bind (selectClaimed_within hknown _) fun selected => ?_
    split
    · exact .pure _
    · refine .bind (inMemory_lift_within _) fun _ => .bind (inMemory_lift_within _) fun vectors => ?_
      dsimp only
      split
      · exact .bind (insertMemories_keeps (importedRows_digested _ _)) fun _ =>
          .bind (inMemory_lift_within _) fun _ => .pure _
      · exact .raise _

/-- A stored row with the hash, which is that of its text. -/
def StoredWith (C : ChunkStorage V S) (memory : MemoryState V) (hash : String) (row : Row V) : Prop :=
  row ∈ memory.memories.rows ∧ row.payload.lookup "hash" = some (.str hash) ∧ Digests C.writer true row.payload

/-- The claimed hashes and the stored rows belong together, one by one. -/
theorem addClaimed_ok {rows : List (Row V)} (h : C.addClaimed.run s = (.ok rows, s')) :
    List.Forall₂ (StoredWith C s'.memory) s'.claimed rows := by
  rw [addClaimed, Effect.run_bind_modify] at h
  split at h
  · cases h
  · rw [Effect.run_bind_read, Effect.bind_ok] at h
    obtain ⟨hits, s₁, hhits, h⟩ := h
    have hs₁ := inMemory_lift_ok hhits
    rw [Effect.bind_ok] at h
    obtain ⟨extracted, s₂, hextracted, h⟩ := h
    have hs₂ := inMemory_lift_ok hextracted
    rw [Effect.bind_ok] at h
    obtain ⟨selected, s₃, hselected, h⟩ := h
    obtain ⟨_, hclaimed⟩ := selectClaimed_ok hselected
    rw [hs₂, hs₁, List.nil_append] at hclaimed
    split at h
    · rename_i hempty
      cases h
      rw [hclaimed, List.isEmpty_iff.mp hempty]
      exact .nil
    · rw [Effect.bind_ok] at h
      obtain ⟨_, s₄, hpre, h⟩ := h
      have hs₄ := inMemory_lift_ok hpre
      rw [Effect.bind_ok] at h
      obtain ⟨vectors, s₅, hvectors, h⟩ := h
      have hs₅ := inMemory_lift_ok hvectors
      have hlength := embedImported_length (inMemory_lift_value hvectors)
      rw [List.length_map] at hlength
      dsimp only at h
      split at h
      · rw [Effect.bind_ok] at h
        obtain ⟨_, s₆, hinsert, h⟩ := h
        rw [Effect.bind_ok] at h
        obtain ⟨_, s₇, hside, h⟩ := h
        have hs₇ := inMemory_lift_ok hside
        cases h
        obtain ⟨hclaimed₆, hrows⟩ := inMemory_insert_ok hinsert
        have hfirst : (selected.zip vectors).map Prod.fst = selected := List.map_fst_zip hlength.ge
        rw [hs₇, hclaimed₆, hs₅, hs₄, hclaimed]
        nth_rewrite 1 [← hfirst]
        rw [List.map_map, List.forall₂_map_left_iff, List.forall₂_map_right_iff, List.forall₂_same]
        intro memory hmemory
        obtain ⟨hhash, hdigests⟩ := importedRow_fields (C := C) (hits.map Hit.row) memory
        refine ⟨?_, hhash, hdigests⟩
        rw [hrows]
        exact List.mem_append_right _ (List.mem_map_of_mem hmemory)
      · cases h

omit [Score S] in
/-- The ids that the marking looks the claimed hashes up in are those of their rows. -/
theorem named_of_stored {claimed : List String} {rows : List (Row V)}
    (h : List.Forall₂ (StoredWith C s.memory) claimed rows) : ∀ hash ∈ claimed, ∃ id,
      (claimed.zip (rows.map Row.id)).lookup hash = some id ∧ Named C.writer (keptRows gone s.memory) hash id := by
  induction h with
  | nil =>
      intro hash hmem
      cases hmem
  | @cons first row claimed rows hstored _ ih =>
      intro hash hmem
      rw [List.map_cons, List.zip_cons_cons, List.lookup_cons]
      by_cases hfirst : hash = first
      · subst hfirst
        rw [beq_self_eq_true]
        exact ⟨row.id, rfl, row, .inl hstored.1, rfl, hstored.2⟩
      · rw [beq_eq_false_iff_ne.mpr hfirst]
        exact ih hash ((List.mem_cons.mp hmem).resolve_left hfirst)

omit [Score S] in
theorem finishing_within (memoryIds : List String) : Effect.Within (KeepsImportable C.writer known gone)
    (do C.addItems memoryIds; C.succeedManifest memoryIds; pure memoryIds) := by
  refine .bind (inDatabase_within ?_) fun _ => .bind (inDatabase_within ?_) fun _ => .pure _
  · intro names db _ db' h hrun
    obtain ⟨_, hadd, hrun⟩ := Fallible.map_ok.mp hrun
    cases hrun
    exact h.of_hashes (addGraphItems_hashes hadd)
  · intro names db _ db' h hrun
    obtain ⟨_, hmark, hrun⟩ := Fallible.map_ok.mp hrun
    cases hrun
    exact h.of_hashes (markManifest_hashes hmark)

theorem storeFresh_within (hknown : ∀ e ∈ C.legacy, e ∈ known) :
    Effect.Within (KeepsImportable C.writer known gone) C.storeFresh := by
  intro s
  have hkeeps := @addClaimed_within _ _ C known gone _ hknown s
  rw [storeFresh, Effect.run_bind_attempt]
  cases hrun : C.addClaimed.run s with
  | mk r s₁ =>
    rw [hrun] at hkeeps
    cases r with
    | error e =>
      refine fun h => ?_
      have hrelease : Effect.Within (KeepsImportable C.writer known gone)
          (do C.releaseClaimed; Effect.raise e : ChunkOp V (List String)) := by
        refine .bind (.bind (.read _) fun claimed => inDatabase_within ?_) fun _ => .raise _
        intro names db _ db' h hrun
        obtain ⟨_, hreleased, hrun⟩ := Fallible.map_ok.mp hrun
        cases hrun
        exact releaseMemoryHashes_records h hreleased
      exact hrelease s₁ (hkeeps h)
    | ok rows =>
      intro h
      have hstored := addClaimed_ok hrun
      dsimp only
      rw [Effect.run_bind_read]
      exact Effect.Within.bind_at (R := KeepsImportable C.writer known gone)
        (fun h => markHashes_keeps h (named_of_stored hstored)) (fun _ => finishing_within _) (hkeeps h)

omit [Score S] in
theorem idsByHash_mem {rows : List (Row V)} {e : String × String} (h : e ∈ C.idsByHash rows) :
    ∃ row ∈ rows, row.id = e.2 ∧ (Payload.get row.payload "hash").pyStr C.writer.platform = e.1 := by
  suffices ∀ ids, e ∈ rows.foldl (fun ids row =>
      let hash := Payload.get row.payload "hash"
      if hash.truthy then Dict.set (hash.pyStr C.writer.platform) row.id ids else ids) ids → e ∈ ids ∨
        ∃ row ∈ rows, row.id = e.2 ∧ (Payload.get row.payload "hash").pyStr C.writer.platform = e.1 by
    rcases this [] h with hnone | hrow
    · cases hnone
    · exact hrow
  clear h
  intro ids h
  induction rows generalizing ids with
  | nil => exact .inl h
  | cons row rows ih =>
      rw [List.foldl_cons] at h
      rcases ih _ h with hset | ⟨row', hrow', hnamed⟩
      · dsimp only at hset
        split at hset
        · rcases Dict.mem_set hset with rfl | hold
          · exact .inr ⟨row, List.mem_cons_self, rfl, rfl⟩
          · exact .inl hold
        · exact .inl hset
      · exact .inr ⟨row', List.mem_cons_of_mem _ hrow', hnamed⟩

omit [Score S] in
theorem reconcile_keeps {rows : List (Row V)} (hrows : rows ⊆ s.memory.memories.rows)
    (h : Importable C.writer known gone s) : Importable C.writer known gone ((C.reconcile rows).run s).2 := by
  rw [reconcile]
  split
  · exact h
  · rw [Effect.run_bind]
    cases hside : (inMemory (.lift C.sideEffects) : ChunkOp V Unit).run s with
    | mk r s₁ =>
      have hkeeps := inMemory_lift_within C.sideEffects s h
      rw [hside] at hkeeps
      cases r with
      | error e => exact hkeeps
      | ok u =>
        have hs₁ := inMemory_lift_ok hside
        subst hs₁
        refine Effect.Within.bind_at (R := KeepsImportable C.writer known gone)
          (fun h => markHashes_keeps h fun hash hmem => ?_) (fun _ => finishing_within _) hkeeps
        obtain ⟨e, he, rfl⟩ := List.mem_map.mp hmem
        obtain ⟨id, hlookup⟩ := Option.isSome_iff_exists.mp (Dict.lookup_isSome_of_mem he)
        refine ⟨id, hlookup, ?_⟩
        obtain ⟨row, hrow, hid, hhash⟩ := idsByHash_mem (Dict.mem_of_lookup hlookup)
        obtain ⟨text, hdata, hlemmatized, stored, hstored, hdigest⟩ := h.digested row (hrows hrow)
        rw [Payload.get, hstored] at hhash
        dsimp only [Option.getD_some, Value.pyStr] at hhash
        subst hhash
        exact ⟨row, .inl (hrows hrow), hid, hstored, text, hdata, hlemmatized, _, hstored, hdigest⟩

theorem store_keeps (hknown : ∀ e ∈ C.legacy, e ∈ known) :
    Effect.Within (KeepsImportable C.writer known gone) C.store := by
  intro s h
  rw [store]
  split
  · rw [Effect.run_bind_read, Effect.run_bind]
    cases hlist : (inMemory (.lift (C.rowsForKey s.memory.memories)) : ChunkOp V (List (Row V))).run s with
    | mk r s₁ =>
      cases r with
      | error e =>
        have hkeeps := inMemory_lift_within (C.rowsForKey s.memory.memories) s h
        rw [hlist] at hkeeps
        exact hkeeps
      | ok rows =>
        have hs₁ := inMemory_lift_ok hlist
        subst hs₁
        dsimp only
        split
        · exact storeFresh_within hknown _ h
        · exact reconcile_keeps (fun row hrow => (Table.mem_list (inMemory_lift_value hlist) hrow).1) h
  · exact storeFresh_within hknown s h

end ChunkStorage

end

/-! ## Runs -/

/-- `canonical_entity_scope` of a payload. -/
def payloadEntityScope (P : Platform) (payload : Payload) : List (String × String) :=
  ["user_id", "agent_id", "app_id", "run_id"].filterMap fun key =>
    match Payload.get payload key with
    | .null => none
    | v => if strip (v.pyStr P) = "" then none else some (key, strip (v.pyStr P))

/-- `_existing_import_memory_hashes`. -/
def existingImportMemoryHashes (P : Platform) (memories : Table V) (projectId : String)
    (entities : List (String × String)) : Except PyError LegacyIndex := do
  let scope := canonicalEntityScope entities
  let rows ← memories.list P (("project_id", .str projectId) :: idFilters scope) 100000
  pure (rows.foldl (fun index row =>
    let conversationId := Payload.get row.payload "conversation_id"
    let hash := Payload.get row.payload "hash"
    if payloadEntityScope P row.payload = scope ∧ conversationId.truthy ∧ hash.truthy then
      Dict.set (conversationId.pyStr P, hash.pyStr P) row.id index
    else index) [])

theorem existingImportMemoryHashes_named {W : Writer V S} {memory : MemoryState V} {gone : Set (Row V)}
    {projectId : String} {entities : List (String × String)} {index : LegacyIndex}
    (hdigested : ∀ row ∈ memory.memories.rows, Digests W true row.payload)
    (h : existingImportMemoryHashes W.platform memory.memories projectId entities = .ok index) :
    ∀ e ∈ index, Named W (keptRows gone memory) e.1.2 e.2 := by
  rw [existingImportMemoryHashes, Fallible.bind_ok] at h
  obtain ⟨rows, hlist, h⟩ := h
  cases h
  have hrows : rows ⊆ memory.memories.rows := fun row hrow => (Table.mem_list hlist hrow).1
  clear hlist
  suffices ∀ index : LegacyIndex, (∀ e ∈ index, Named W (keptRows gone memory) e.1.2 e.2) →
      ∀ e ∈ rows.foldl (fun index row =>
        let conversationId := Payload.get row.payload "conversation_id"
        let hash := Payload.get row.payload "hash"
        if payloadEntityScope W.platform row.payload = canonicalEntityScope entities ∧ conversationId.truthy ∧
            hash.truthy then
          Dict.set (conversationId.pyStr W.platform, hash.pyStr W.platform) row.id index
        else index) index, Named W (keptRows gone memory) e.1.2 e.2 from this [] (by simp)
  induction rows with
  | nil => exact fun _ hindex => hindex
  | cons row rows ih =>
      intro index hindex
      obtain ⟨hrow, hrest⟩ := List.cons_subset.mp hrows
      rw [List.foldl_cons]
      refine ih hrest _ ?_
      dsimp only
      split
      · intro e he
        rcases Dict.mem_set he with rfl | he
        · obtain ⟨text, hdata, hlemmatized, hash, hhash, hdigest⟩ := hdigested row hrow
          have htext : (Payload.get row.payload "hash").pyStr W.platform = hash := by
            rw [Payload.get, hhash]
            rfl
          refine ⟨row, .inl hrow, rfl, ?_, text, hdata, hlemmatized, hash, hhash, hdigest⟩
          dsimp only
          rw [htext]
          exact hhash
        · exact hindex e he
      · exact hindex

/-- The memories, the repository, what the jobs found when they began, and the rows that were changed or deleted. -/
structure ImportHistory (V : Type) where
  memory : MemoryState V
  db : Database
  legacy : String → LegacyIndex
  gone : Set (Row V)

/-- A job begins, a chunk is stored, another call of the repository marks no hash, or a session changes the
memories. -/
inductive ImportStep [Score S] (W : Writer V S) : ImportHistory V → ImportHistory V → Prop
  | begun (h : ImportHistory V) (jobId projectId : String) (entities : List (String × String)) (index : LegacyIndex)
      (hlist : existingImportMemoryHashes W.platform h.memory.memories projectId entities = .ok index) :
      ImportStep W h { h with legacy := fun id => if id = jobId then index else h.legacy id }
  | stored (h : ImportHistory V) (C : ChunkStorage V S) (hwriter : C.writer = W)
      (hlegacy : C.legacy = h.legacy C.jobId) :
      ImportStep W h { h with
        memory := (C.store.run ⟨h.memory, h.db, []⟩).2.memory
        db := (C.store.run ⟨h.memory, h.db, []⟩).2.db }
  | managed (h : ImportHistory V) (db : Database)
      (hmarked : ∀ row ∈ db.hashes, row.status = .succeeded → row ∈ h.db.hashes) :
      ImportStep W h { h with db }
  | called (h : ImportHistory V) (call : SessionCall V) :
      ImportStep W h { h with
        memory := call.perform W h.memory
        gone := h.gone ∪ {row | row ∈ h.memory.memories.rows ∧ row ∉ (call.perform W h.memory).memories.rows} }

/-- No memories and no hash records. -/
structure ImportHistory.Fresh (h : ImportHistory V) : Prop where
  memories : h.memory.memories.rows = []
  hashes : h.db.hashes = []
  legacy : ∀ jobId, h.legacy jobId = []

structure ImportHistory.Sound (W : Writer V S) (h : ImportHistory V) : Prop where
  digested : ∀ row ∈ h.memory.memories.rows, Digests W true row.payload
  records : RecordsName (Named W (keptRows h.gone h.memory)) h.db
  legacy : ∀ jobId, ∀ e ∈ h.legacy jobId, Named W (keptRows h.gone h.memory) e.1.2 e.2

theorem ImportHistory.Sound.step [Score S] {W : Writer V S} {h h' : ImportHistory V} (hs : h.Sound W)
    (hstep : ImportStep W h h') : h'.Sound W := by
  cases hstep with
  | begun jobId projectId entities index hlist =>
      refine ⟨hs.digested, hs.records, fun id e he => ?_⟩
      dsimp only at he
      split at he
      · exact existingImportMemoryHashes_named hs.digested hlist e he
      · exact hs.legacy id e he
  | stored C hwriter hlegacy =>
      subst hwriter
      have hfound : Importable C.writer {e | ∃ jobId, e ∈ h.legacy jobId} h.gone ⟨h.memory, h.db, []⟩ :=
        ⟨hs.digested, hs.records, fun e ⟨jobId, he⟩ => hs.legacy jobId e he⟩
      have hleft := @ChunkStorage.store_keeps _ _ C {e | ∃ jobId, e ∈ h.legacy jobId} h.gone _
        (fun e he => ⟨C.jobId, hlegacy ▸ he⟩) _ hfound
      exact ⟨hleft.digested, hleft.records, fun jobId e he => hleft.known e ⟨jobId, he⟩⟩
  | managed db hmarked =>
      exact ⟨hs.digested, fun row hrow hstatus => hs.records row (hmarked row hrow hstatus) hstatus, hs.legacy⟩
  | called call =>
      have hkept : keptRows h.gone h.memory ⊆
          keptRows (h.gone ∪ {row | row ∈ h.memory.memories.rows ∧ row ∉ (call.perform W h.memory).memories.rows})
            (call.perform W h.memory) := by
        rintro row (hrow | hgone)
        · by_cases hstill : row ∈ (call.perform W h.memory).memories.rows
          · exact .inl hstill
          · exact .inr (.inr ⟨hrow, hstill⟩)
        · exact .inr (.inl hgone)
      exact ⟨digests_perform hs.digested, hs.records.mono fun _ _ hnamed => hnamed.mono hkept,
        fun id e he => (hs.legacy id e he).mono hkept⟩

/-- A chunk with two facts, stored for a user. -/
def twoFacts : ChunkStorage Unit ℚ where
  writer := .plain .ascii
  providers := answering
  messages := []
  metadata := [("user_id", .str "u")]
  scope := [("user_id", "u")]
  extracted := .ok [[("text", .str "x")], [("text", .str "y")]]
  preVectorWrite _ := .ok ()
  idFactory hash := "id-" ++ hash
  sideEffects := .ok ()
  projectId := "p"
  jobId := "job"
  chunkId := "chunk"
  conversationId := "c"
  conversationScope := "c"
  importKey := "key"
  fence := none
  now := 0
  hashRowId hash := "row-" ++ hash
  graphRowId id := "item-" ++ id
  legacy := []
  reconciles := false

/-- The first of the facts is claimed by another chunk. -/
def claimedElsewhere : Database :=
  ⟨[], [], [], [], [⟨"row", "p", "c", "x", some "other job", some "other chunk", .claimed, none⟩], []⟩

end YiQiao
