import Mathlib.Algebra.GroupWithZero.Nat
import YiQiao.Lib.Fallible
import YiQiao.Lib.Rows

/-!
# The import repository

The tables of the chat import and the mutations on them. Every mutation runs in a transaction that checks,
where the caller holds a lease, that the job is leased to it and that the lease has not expired. A mutation
that meets a conflict goes on in a second transaction with a clock reading of its own; both are here.
-/

namespace YiQiao

open Lib

/-- An instant. -/
abbrev Instant := Int

/-! ## Tables -/

/-- The statuses of chunks, manifests, hashes and graph items. -/
inductive RecordStatus where
  | pending | processing | retrying | claimed | completed | imported | succeeded | split | skipped
  | cancelled | failed | released | retryable | synced
  deriving DecidableEq, Repr

inductive JobStatus where
  | uploading | queued | discovering | parsing | importing | syncingGraph | cancelling
  | cancelled | completed | completedWithErrors | failed
  deriving DecidableEq, Repr

/-- The counters that a run increments. -/
structure JobCounters where
  totalChunks : Int
  processedChunks : Int
  importedChunks : Int
  skippedChunks : Int
  failedChunks : Int
  splitChunks : Int
  retriedChunks : Int
  retryCount : Int
  memoriesCreated : Int
  graphAttempts : Int
  deriving DecidableEq, Repr

structure JobRow where
  id : String
  projectId : String
  status : JobStatus
  phase : String
  cancelRequested : Bool
  leaseOwner : Option String
  leaseExpiresAt : Option Instant
  workspace : Option String
  workspaceBytes : Nat
  sourceRetryRequired : Bool
  counters : JobCounters
  errorCount : Nat
  graphStatus : String
  graphError : Option String
  graphPendingItems : Nat
  graphSyncedItems : Nat
  graphFailedItems : Nat
  deriving DecidableEq

structure ChunkRow where
  id : String
  jobId : String
  projectId : String
  importKey : String
  conversationId : String
  status : RecordStatus
  attempt : Nat
  retryCount : Nat
  parentImportKey : Option String
  splitDepth : Nat
  memoryIds : List String
  claimedMemoryHashes : List String
  errorType : Option String
  errorMessage : Option String
  deriving DecidableEq

structure ManifestRow where
  id : String
  projectId : String
  importKey : String
  jobId : Option String
  chunkId : Option String
  status : RecordStatus
  attempts : Nat
  memoryIds : List String
  lastError : Option String
  deriving DecidableEq

structure ErrorRow where
  id : String
  jobId : String
  source : String
  message : String
  deriving DecidableEq

structure HashRow where
  id : String
  projectId : String
  conversationId : String
  memoryHash : String
  jobId : Option String
  chunkId : Option String
  status : RecordStatus
  memoryId : Option String
  deriving DecidableEq

structure GraphItemRow where
  id : String
  jobId : String
  chunkId : String
  itemKey : String
  memoryId : String
  status : RecordStatus
  attempts : Nat
  lastError : Option String
  deriving DecidableEq

structure Database where
  jobs : List JobRow
  chunks : List ChunkRow
  manifests : List ManifestRow
  errors : List ErrorRow
  hashes : List HashRow
  graphItems : List GraphItemRow
  deriving DecidableEq

def terminalChunkStatuses : List RecordStatus := [.completed, .imported, .succeeded, .split]

def succeededManifestStatuses : List RecordStatus := [.completed, .imported, .succeeded]

def reclaimableStatuses : List RecordStatus := [.failed, .released, .retryable]

/-! ## Leases -/

inductive RepositoryError where
  /-- `ImportLeaseLost`. -/
  | leaseLost
  /-- `IntegrityError`. -/
  | conflict
  /-- `ValueError("Unknown import job: ..")`. -/
  | unknownJob
  /-- `ImportWorkspaceBudgetExceeded`. -/
  | budgetExceeded
  /-- `ImportActiveJobLimitExceeded`. -/
  | activeJobLimit
  deriving DecidableEq, Repr

/-- `_active_lease_conditions` but for the id; a call without a lease owner asks for nothing. -/
def JobRow.leasedTo (fence : Option String) (now : Instant) (job : JobRow) : Bool :=
  fence.all fun owner => job.leaseOwner = some owner && job.leaseExpiresAt.any (now < ·)

/-- `_active_lease_exists`. -/
def Database.allows (db : Database) (fence : Option String) (jobId : String) (now : Instant) : Bool :=
  fence.isNone || db.jobs.any fun job => job.id = jobId && job.leasedTo fence now

/-- `_assert_active_lease`. -/
def assertActiveLease (fence : Option String) (jobId : String) (now : Instant) (db : Database) :
    Except RepositoryError Unit :=
  if db.allows fence jobId now then .ok () else .error .leaseLost

/-- An insertion that conflicts with a row of the table; with a lease owner, `_insert_if_active_lease`. -/
def insertRow {α : Type} (fence : Option String) (jobId : String) (now : Instant) (db : Database)
    (rows : List α) (conflicts : α → Bool) (row : α) : Except RepositoryError (List α) :=
  if db.allows fence jobId now = false then .error .leaseLost
  else if rows.any conflicts then .error .conflict
  else .ok (rows ++ [row])

/-- What a fenced statement that touched no row does: it asks whether the lease is still there. -/
def checkTouched (touched : Nat) (fence : Option String) (jobId : String) (now : Instant) (db : Database) :
    Except RepositoryError Unit :=
  if touched = 0 then assertActiveLease fence jobId now db else .ok ()

/-! ## Jobs -/

/-- A statement on a job row; with a lease owner it must touch it. -/
def changeJob (fence : Option String) (jobId : String) (now : Instant) (change : JobRow → JobRow)
    (db : Database) : Except RepositoryError (Option JobRow × Database) :=
  let hit := fun job : JobRow => job.id = jobId && job.leasedTo fence now
  if fence.isSome ∧ hitRows hit db.jobs = 0 then .error .leaseLost
  else
    let jobs := updateRows hit change db.jobs
    .ok (if hitRows hit db.jobs = 0 then none else jobs.find? fun job => job.id = jobId, { db with jobs })

/-- `update_job`; its lease owner is the caller, so that the column is not among the values. -/
def updateJob (fence : Option String) (jobId : String) (now : Instant) (values : JobRow → JobRow) (db : Database) :
    Except RepositoryError (Option JobRow × Database) :=
  changeJob fence jobId now (fun job => { values job with id := job.id, leaseOwner := job.leaseOwner }) db

def JobCounters.add (a b : JobCounters) : JobCounters where
  totalChunks := a.totalChunks + b.totalChunks
  processedChunks := a.processedChunks + b.processedChunks
  importedChunks := a.importedChunks + b.importedChunks
  skippedChunks := a.skippedChunks + b.skippedChunks
  failedChunks := a.failedChunks + b.failedChunks
  splitChunks := a.splitChunks + b.splitChunks
  retriedChunks := a.retriedChunks + b.retriedChunks
  retryCount := a.retryCount + b.retryCount
  memoriesCreated := a.memoriesCreated + b.memoriesCreated
  graphAttempts := a.graphAttempts + b.graphAttempts

/-- `increment_job`. -/
def incrementJob (fence : Option String) (jobId : String) (now : Instant) (deltas : JobCounters) (db : Database) :
    Except RepositoryError (Option JobRow × Database) :=
  changeJob fence jobId now (fun job => { job with counters := job.counters.add deltas }) db

/-- An update of the jobs table, and whether it touched a row. -/
def takeJob (hit : JobRow → Bool) (change : JobRow → JobRow) (db : Database) : Bool × Database :=
  (decide (hitRows hit db.jobs ≠ 0), { db with jobs := updateRows hit change db.jobs })

/-- `renew_job_lease`. -/
def renewJobLease (owner : String) (jobId : String) (seconds : Int) (now : Instant) (db : Database) :
    Bool × Database :=
  takeJob (fun job => job.id = jobId && job.leasedTo (some owner) now)
    (fun job => { job with leaseExpiresAt := some (now + seconds) }) db

/-- `reserve_workspace_bytes`. -/
def reserveWorkspaceBytes (owner : String) (jobId : String) (requested limit : Nat) (seconds : Int) (now : Instant)
    (db : Database) : Except RepositoryError (Nat × Database) := do
  assertActiveLease (some owner) jobId now db
  let used := (db.jobs.map JobRow.workspaceBytes).sum
  if limit < used + requested then .error .budgetExceeded
  else do
    let changed ← changeJob (some owner) jobId now (fun job =>
      { job with workspaceBytes := job.workspaceBytes + requested, leaseExpiresAt := some (now + seconds) }) db
    pure (used + requested, changed.2)

/-! ## Chunks -/

structure ChunkValues where
  id : String
  jobId : String
  importKey : String
  projectId : Option String
  conversationId : String
  status : RecordStatus
  attempt : Nat
  parentImportKey : Option String
  splitDepth : Nat

def ChunkValues.row (values : ChunkValues) (projectId : String) : ChunkRow where
  id := values.id
  jobId := values.jobId
  projectId := projectId
  importKey := values.importKey
  conversationId := values.conversationId
  status := values.status
  attempt := values.attempt
  retryCount := 0
  parentImportKey := values.parentImportKey
  splitDepth := values.splitDepth
  memoryIds := []
  claimedMemoryHashes := []
  errorType := none
  errorMessage := none

/-- The project of the values, or that of their job. -/
def ChunkValues.project (values : ChunkValues) (db : Database) : Except RepositoryError String :=
  match values.projectId with
  | some project => .ok project
  | none =>
      match db.jobs.find? fun job => job.id = values.jobId with
      | some job => .ok job.projectId
      | none => .error .unknownJob

def ChunkRow.isAt (jobId importKey : String) (row : ChunkRow) : Bool :=
  row.jobId = jobId && row.importKey = importKey

/-- `upsert_chunk`, up to a conflict. -/
def insertChunk (fence : Option String) (values : ChunkValues) (now : Instant) (db : Database) :
    Except RepositoryError (ChunkRow × Database) := do
  let project ← values.project db
  let row := values.row project
  let chunks ← insertRow fence values.jobId now db db.chunks
    (fun old => old.isAt values.jobId values.importKey || old.id = values.id) row
  pure (row, { db with chunks })

/-- A row that is there takes the values; a terminal one keeps its status. -/
def ChunkValues.overwrite (values : ChunkValues) (project : String) (row : ChunkRow) : ChunkRow :=
  { row with
    projectId := project
    conversationId := values.conversationId
    status := if row.status ∈ terminalChunkStatuses then row.status else values.status
    attempt := values.attempt
    parentImportKey := values.parentImportKey
    splitDepth := values.splitDepth }

/-- `upsert_chunk`, after a conflict. -/
def overwriteChunk (fence : Option String) (values : ChunkValues) (now : Instant) (db : Database) :
    Except RepositoryError (ChunkRow × Database) := do
  let project ← values.project db
  match db.chunks.find? (ChunkRow.isAt values.jobId values.importKey) with
  | none => .error .conflict
  | some existing =>
      let hit := fun row : ChunkRow => row.id = existing.id && db.allows fence values.jobId now
      checkTouched (hitRows hit db.chunks) fence values.jobId now db
      let chunks := updateRows hit (values.overwrite project) db.chunks
      pure ((chunks.find? fun row => row.id = existing.id).getD existing, { db with chunks })

/-- `update_chunk`. -/
def updateChunk (fence : Option String) (jobId importKey : String) (now : Instant) (values : ChunkRow → ChunkRow)
    (db : Database) : Except RepositoryError (Option ChunkRow × Database) := do
  let hit := fun row : ChunkRow => row.isAt jobId importKey && db.allows fence jobId now
  checkTouched (hitRows hit db.chunks) fence jobId now db
  let chunks := updateRows hit (fun row =>
    { values row with id := row.id, jobId := row.jobId, importKey := row.importKey }) db.chunks
  pure (chunks.find? (ChunkRow.isAt jobId importKey), { db with chunks })

/-! ## Manifests -/

/-- The claim of an import key by a chunk of a job. -/
structure Claim where
  id : String
  projectId : String
  importKey : String
  jobId : String
  chunkId : String

def ManifestRow.isAt (projectId importKey : String) (row : ManifestRow) : Bool :=
  row.projectId = projectId && row.importKey = importKey

def Claim.manifest (c : Claim) : ManifestRow where
  id := c.id
  projectId := c.projectId
  importKey := c.importKey
  jobId := some c.jobId
  chunkId := some c.chunkId
  status := .claimed
  attempts := 1
  memoryIds := []
  lastError := none

/-- `claim_manifest`, up to a conflict. -/
def insertManifest (fence : Option String) (c : Claim) (now : Instant) (db : Database) :
    Except RepositoryError (ManifestRow × Database) := do
  let manifests ← insertRow fence c.jobId now db db.manifests
    (fun old => old.isAt c.projectId c.importKey || old.id = c.id) c.manifest
  pure (c.manifest, { db with manifests })

/-- A manifest that was released although its chunk was split. -/
def Database.legacyReleasedSplit (db : Database) (row : ManifestRow) : Bool :=
  db.chunks.any fun chunk => some chunk.id = row.chunkId && chunk.status = .split

def Claim.take (c : Claim) (row : ManifestRow) : ManifestRow :=
  { row with
    jobId := some c.jobId
    chunkId := some c.chunkId
    status := .claimed
    attempts := row.attempts + 1
    lastError := none }

/-- The manifest that stands in the way, if it can be reclaimed. -/
def Database.reclaims (db : Database) (allowed : Bool) (existing row : ManifestRow) : Bool :=
  row.id = existing.id && row.status ∈ reclaimableStatuses &&
    !(row.status = .released && db.legacyReleasedSplit row) && allowed

/-- The manifest that stands in the way, if it should have been marked as split. -/
def Database.upgrades (db : Database) (allowed : Bool) (existing row : ManifestRow) : Bool :=
  row.id = existing.id && row.status = .released && db.legacyReleasedSplit row && allowed

/-- `claim_manifest`, after a conflict: the manifest is taken over if it can be reclaimed. -/
def reclaimManifest (fence : Option String) (c : Claim) (now : Instant) (db : Database) :
    Except RepositoryError ((Bool × ManifestRow) × Database) := do
  match db.manifests.find? (ManifestRow.isAt c.projectId c.importKey) with
  | none => .error .conflict
  | some existing =>
      let allowed := db.allows fence c.jobId now
      let claimed := hitRows (db.reclaims allowed existing) db.manifests
      checkTouched claimed fence c.jobId now db
      let manifests := updateRows (db.reclaims allowed existing) c.take db.manifests
      let manifests :=
        if claimed = 0 then
          updateRows (db.upgrades allowed existing) (fun row => { row with status := .split }) manifests
        else manifests
      pure ((decide (claimed ≠ 0), (manifests.find? fun row => row.id = existing.id).getD existing),
        { db with manifests })

/-- The values of `mark_manifest`. -/
structure ManifestMark where
  status : RecordStatus
  memoryIds : Option (List String)
  lastError : Option (Option String)

def ManifestMark.on (mark : ManifestMark) (row : ManifestRow) : ManifestRow :=
  { row with
    status := mark.status
    memoryIds := mark.memoryIds.getD row.memoryIds
    lastError := mark.lastError.getD row.lastError }

/-- `mark_manifest`: with a lease owner, only on a manifest of the job. -/
def markManifest (fence : Option String) (projectId importKey jobId : String) (mark : ManifestMark)
    (now : Instant) (db : Database) : Except RepositoryError (Option ManifestRow × Database) := do
  let hit := fun row : ManifestRow => row.isAt projectId importKey &&
    (fence.isNone || row.jobId = some jobId) && db.allows fence jobId now
  checkTouched (hitRows hit db.manifests) fence jobId now db
  let manifests := updateRows hit mark.on db.manifests
  pure (if hitRows hit db.manifests = 0 then none
    else manifests.find? (ManifestRow.isAt projectId importKey), { db with manifests })

/-! ## Errors -/

/-- `add_error`. -/
def addError (fence : Option String) (row : ErrorRow) (now : Instant) (db : Database) :
    Except RepositoryError Database := do
  let errors ← insertRow fence row.jobId now db db.errors (fun old => old.id = row.id) row
  let changed ← changeJob fence row.jobId now (fun job => { job with errorCount := job.errorCount + 1 })
    { db with errors }
  pure changed.2

/-! ## Memory hashes -/

/-- The claim of a memory hash in a conversation by a chunk of a job. -/
structure HashClaim where
  id : String
  projectId : String
  conversationId : String
  memoryHash : String
  jobId : String
  chunkId : String

def HashRow.isAt (projectId conversationId memoryHash : String) (row : HashRow) : Bool :=
  row.projectId = projectId && row.conversationId = conversationId && row.memoryHash = memoryHash

def HashClaim.row (c : HashClaim) : HashRow where
  id := c.id
  projectId := c.projectId
  conversationId := c.conversationId
  memoryHash := c.memoryHash
  jobId := some c.jobId
  chunkId := some c.chunkId
  status := .claimed
  memoryId := none

/-- `claim_memory_hash`, up to a conflict. -/
def insertHash (fence : Option String) (c : HashClaim) (now : Instant) (db : Database) :
    Except RepositoryError (Bool × Database) := do
  let hashes ← insertRow fence c.jobId now db db.hashes
    (fun old => old.isAt c.projectId c.conversationId c.memoryHash || old.id = c.id) c.row
  pure (true, { db with hashes })

/-- `claim_memory_hash`, after a conflict. -/
def reclaimHash (fence : Option String) (c : HashClaim) (now : Instant) (db : Database) :
    Except RepositoryError (Bool × Database) := do
  match db.hashes.find? (HashRow.isAt c.projectId c.conversationId c.memoryHash) with
  | none => .error .conflict
  | some existing =>
      let hit := fun row : HashRow =>
        row.id = existing.id && row.status ∈ reclaimableStatuses && db.allows fence c.jobId now
      checkTouched (hitRows hit db.hashes) fence c.jobId now db
      let hashes := updateRows hit (fun row => { row with
        jobId := some c.jobId, chunkId := some c.chunkId, status := .claimed, memoryId := none }) db.hashes
      pure (decide (hitRows hit db.hashes ≠ 0), { db with hashes })

/-- The hashes that a chunk has claimed, among the given ones if any are given. -/
def HashRow.claimedBy (jobId chunkId : String) (given : Option (List String)) (row : HashRow) : Bool :=
  row.jobId = some jobId && row.chunkId = some chunkId && row.status = .claimed &&
    given.all (row.memoryHash ∈ ·)

/-- `release_memory_hashes`. -/
def releaseMemoryHashes (fence : Option String) (jobId chunkId : String) (given : Option (List String))
    (now : Instant) (db : Database) : Except RepositoryError (Nat × Database) := do
  if given = some [] then
    assertActiveLease fence jobId now db
    pure (0, db)
  else
    let hit := fun row : HashRow => row.claimedBy jobId chunkId given && db.allows fence jobId now
    checkTouched (hitRows hit db.hashes) fence jobId now db
    pure (hitRows hit db.hashes, { db with hashes := deleteRows hit db.hashes })

/-- One of the statements of `mark_memory_hashes_succeeded`. -/
def succeedHash (allowed : Bool) (projectId conversationId jobId chunkId : String) (memoryId : Option String)
    (memoryHash : String) (hashes : List HashRow) : List HashRow :=
  updateRows (fun row => row.isAt projectId conversationId memoryHash &&
    row.claimedBy jobId chunkId none && allowed)
    (fun row => { row with status := .succeeded, memoryId := memoryId }) hashes

/-- `mark_memory_hashes_succeeded`, by a chunk of a job. -/
def markMemoryHashesSucceeded (fence : Option String) (projectId conversationId jobId chunkId : String)
    (hashes : List String) (idByHash : List (String × String)) (now : Instant) (db : Database) :
    Except RepositoryError Database := do
  let allowed := db.allows fence jobId now
  let rows := hashes.foldl (fun rows memoryHash => succeedHash allowed projectId conversationId jobId chunkId
    (idByHash.lookup memoryHash) memoryHash rows) db.hashes
  assertActiveLease fence jobId now db
  pure { db with hashes := rows }

/-! ## Graph items -/

structure GraphItem where
  id : String
  itemKey : String
  memoryId : String

def GraphItemRow.isAt (jobId chunkId itemKey : String) (row : GraphItemRow) : Bool :=
  row.jobId = jobId && row.chunkId = chunkId && row.itemKey = itemKey

def GraphItem.row (item : GraphItem) (jobId chunkId : String) : GraphItemRow :=
  ⟨item.id, jobId, chunkId, item.itemKey, item.memoryId, .pending, 0, none⟩

/-- The rows with the items that are new among them, and how many are new. -/
def insertGraphItems (fence : Option String) (jobId chunkId : String) (now : Instant) (db : Database) :
    List GraphItem → List GraphItemRow → Except RepositoryError (Nat × List GraphItemRow)
  | [], rows => .ok (0, rows)
  | item :: items, rows =>
      match insertRow fence jobId now db rows
        (fun old => old.isAt jobId chunkId item.itemKey || old.id = item.id) (item.row jobId chunkId) with
      | .ok rows => (insertGraphItems fence jobId chunkId now db items rows).map fun r => (r.1 + 1, r.2)
      | .error .conflict =>
          if rows.any (GraphItemRow.isAt jobId chunkId item.itemKey) then
            insertGraphItems fence jobId chunkId now db items rows
          else .error .conflict
      | .error e => .error e

/-- `add_graph_items`. -/
def addGraphItems (fence : Option String) (jobId chunkId : String) (items : List GraphItem) (now : Instant)
    (db : Database) : Except RepositoryError Database :=
  if items = [] then .ok db
  else do
    let inserted ← insertGraphItems fence jobId chunkId now db items db.graphItems
    let db := { db with graphItems := inserted.2 }
    if inserted.1 ≠ 0 then do
      let changed ← changeJob fence jobId now (fun job => { job with
        graphStatus := "pending", graphPendingItems := job.graphPendingItems + inserted.1 }) db
      pure changed.2
    else do
      assertActiveLease fence jobId now db
      pure db

def countStatus (status : RecordStatus) (rows : List GraphItemRow) : Nat :=
  rows.countP fun row => row.status = status

/-- `_refresh_graph_job_counts` of one job. -/
def refreshGraphJobCounts (fence : Option String) (jobId : String) (error : Option String) (now : Instant)
    (db : Database) : Except RepositoryError Database := do
  let rows := db.graphItems.filter fun row => row.jobId = jobId
  let pending := countStatus .pending rows
  let failed := countStatus .failed rows
  let changed ← changeJob fence jobId now (fun job => { job with
    graphStatus := if failed ≠ 0 then "failed" else if pending ≠ 0 then "pending" else "synced"
    graphError := if failed ≠ 0 then error else none
    graphPendingItems := pending
    graphSyncedItems := countStatus .synced rows
    graphFailedItems := failed }) db
  pure changed.2

/-- `mark_graph_items`, by a job. -/
def markGraphItems (fence : Option String) (jobId : String) (ids : List String) (status : RecordStatus)
    (error : Option String) (incrementAttempts : Bool) (now : Instant) (db : Database) :
    Except RepositoryError (Nat × Database) :=
  if ids = [] then .ok (0, db)
  else do
    let mine := fun row : GraphItemRow => row.id ∈ ids && row.jobId = jobId
    let hit := fun row : GraphItemRow => mine row && db.allows fence jobId now
    checkTouched (hitRows hit db.graphItems) fence jobId now db
    let graphItems := updateRows hit (fun row => { row with
      status := status
      lastError := if status = .synced then none else error
      attempts := if incrementAttempts then row.attempts + 1 else row.attempts }) db.graphItems
    let marked : Database := { db with graphItems }
    if db.graphItems.any mine then do
      let marked ← if incrementAttempts then
          (changeJob fence jobId now (fun job => { job with counters :=
            { job.counters with graphAttempts := job.counters.graphAttempts + 1 } }) marked).map Prod.snd
        else pure marked
      let marked ← refreshGraphJobCounts fence jobId error now marked
      pure (hitRows hit db.graphItems, marked)
    else pure (hitRows hit db.graphItems, marked)

end YiQiao
