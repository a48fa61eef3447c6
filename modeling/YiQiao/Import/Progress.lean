import YiQiao.Lib.Handlers
import YiQiao.Import.Process

/-!
# The hooks of the server

`_import_hooks` of `main.py`: what the claims and updates of a run do to the chunk rows of its job, and how the counters
of the job are computed again from the rows. A run increments the same counters; the lock is held by one recomputation at
a time, and by nothing else.
-/

namespace YiQiao

open Lib

/-- What `_import_hooks` gives, with no callback for duplicates. -/
def serverHooks : GivenHooks := ⟨true, true, true, false⟩

/-! ## Rows and counters -/

/-- A chunk row of the job, under its import key. -/
structure ProgressRow where
  status : RecordStatus
  memoryIds : List String
  deriving DecidableEq, Repr

structure Progress where
  rows : List (String × ProgressRow)
  counters : JobCounters
  /-- `_import_progress_lock` is held. -/
  recomputing : Bool

/-- The rows of one status. -/
def rowsOf (status : RecordStatus) (rows : List (String × ProgressRow)) : List (String × ProgressRow) :=
  rows.filter fun row => row.2.status = status

/-- What `_recompute_import_progress` writes. -/
def recount (rows : List (String × ProgressRow)) (counters : JobCounters) : JobCounters :=
  { counters with
    processedChunks := (rowsOf .succeeded rows).length + (rowsOf .skipped rows).length + (rowsOf .failed rows).length
    importedChunks := (rowsOf .succeeded rows).length
    skippedChunks := (rowsOf .skipped rows).length
    failedChunks := (rowsOf .failed rows).length
    splitChunks := (rowsOf .split rows).length
    memoriesCreated := ((rowsOf .succeeded rows).map fun row => row.2.memoryIds.length).sum }

/-- `get_chunk`, or else `_ensure_import_chunk`. -/
def foundRows (key : String) (rows : List (String × ProgressRow)) : List (String × ProgressRow) :=
  match rows.lookup key with
  | none => Dict.set key ⟨.pending, []⟩ rows
  | some _ => rows

/-- `upsert_chunk` of a pending row: a terminal one keeps its status. -/
def ensuredRow : Option ProgressRow → ProgressRow
  | none => ⟨.pending, []⟩
  | some row => if terminalChunkStatuses.contains row.status then row else { row with status := .pending }

/-- `update_chunk`. -/
def updatedRows (key : String) (status : RecordStatus) (memoryIds : Option (List String))
    (rows : List (String × ProgressRow)) : List (String × ProgressRow) :=
  match rows.lookup key with
  | none => rows
  | some row => Dict.set key ⟨status, memoryIds.getD row.memoryIds⟩ rows

/-! ## Requests -/

/-- What `claim_manifest` returns. -/
inductive ManifestClaim where
  | claimed (attempts : Nat)
  | refused (status : RecordStatus) (ownJob ownChunk : Bool) (memoryIds : List String)

inductive ServerRequest where
  /-- What is not served below. -/
  | other (request : ImportRequest)
  | findRow (key : String)
  | ensureRow (key : String)
  | updateRow (key : String) (status : RecordStatus) (memoryIds : Option (List String))
  | claimManifest (key : String)
  /-- `_import_rows_for_key` finds vector rows. -/
  | vectorRows (key : String)
  /-- The manifest is marked as released, and so are the hashes of the chunk. -/
  | releaseManifest (key : String)
  /-- What `_update_import_chunk` does to the manifest, the hashes and the errors. -/
  | tell (execution : ChunkAttempt) (state : ChunkUpdate)
  /-- `list_chunks`, with `_import_progress_lock` taken before. -/
  | readRows
  /-- The counts of these rows are written, and the lock is given back. -/
  | writeCounters (rows : List (String × ProgressRow))

abbrev ServerRequest.Answer : ServerRequest → Type
  | .other request => request.Answer
  | .ensureRow _ => RecordStatus
  | .claimManifest _ => ManifestClaim
  | .vectorRows _ => Bool
  | .readRows => List (String × ProgressRow)
  | .findRow _ | .updateRow .. | .releaseManifest _ | .tell .. | .writeCounters _ => Unit

abbrev serverInterface : Interface := ⟨ServerRequest, ServerRequest.Answer⟩

abbrev ServerProgram := Program serverInterface

abbrev ServerEvent := serverInterface.Event

def askServer (request : ServerRequest) : ServerProgram request.Answer := Program.request (E := serverInterface) request

/-! ## The hooks -/

/-- `_recompute_import_progress`. -/
def recomputeProgress : ServerProgram Unit := do
  let rows ← askServer .readRows
  askServer (.writeCounters rows)

/-- `_claim_import_chunk`, where the manifest was not given to the chunk. -/
def claimRefused (key : String) (status : RecordStatus) (ownJob ownChunk : Bool) (memoryIds : List String) :
    ServerProgram ClaimResult :=
  if status = .split then pure .split
  else if succeededManifestStatuses.contains status then
    if ownJob then do
      askServer (.updateRow key .succeeded (some memoryIds))
      recomputeProgress
      pure .resumeSucceeded
    else pure .succeeded
  else if status = .claimed ∧ ownJob ∧ ownChunk then do
    if ← askServer (.vectorRows key) then pure (.claimed true)
    else do
      askServer (.releaseManifest key)
      match ← askServer (.claimManifest key) with
      | .claimed attempts => pure (.claimed (1 < attempts))
      | .refused .. => pure .busy
  else pure .busy

/-- `_claim_import_chunk`. -/
def claimImportChunk (key : String) : ServerProgram ClaimResult := do
  let status ← askServer (.ensureRow key)
  if status = .succeeded then pure .resumeSucceeded
  else match ← askServer (.claimManifest key) with
    | .claimed attempts => pure (.claimed (1 < attempts))
    | .refused status ownJob ownChunk memoryIds => claimRefused key status ownJob ownChunk memoryIds

/-- The status that `_update_import_chunk` writes. -/
def ChunkUpdate.status : ChunkUpdate → RecordStatus
  | .processing => .processing
  | .retrying _ => .retrying
  | .succeeded _ => .succeeded
  | .skipped _ => .skipped
  | .split .. => .split
  | .cancelled => .cancelled
  | .busy _ | .failed _ => .failed

/-- The memory ids that `_update_import_chunk` writes. -/
def ChunkUpdate.memoryIds : ChunkUpdate → Option (List String)
  | .succeeded response => some response.memoryIds
  | .skipped .supersededSplit => some []
  | _ => none

/-- The progress is computed again after the update. -/
def ChunkUpdate.recomputes : ChunkUpdate → Bool
  | .succeeded _ | .skipped _ | .busy _ | .failed _ => true
  | .processing | .retrying _ | .split .. | .cancelled => false

/-- `_update_import_chunk`. -/
def updateImportChunk (execution : ChunkAttempt) (state : ChunkUpdate) : ServerProgram Unit := do
  askServer (.findRow execution.importKey)
  askServer (.tell execution state)
  askServer (.updateRow execution.importKey state.status state.memoryIds)
  if state.recomputes then recomputeProgress else pure ()

/-- What a run asks for is done by the hooks of the server; its storage callback looks for the row of the chunk first. -/
def serve : (request : ImportRequest) → ServerProgram request.Answer
  | .claimChunk execution _ => claimImportChunk execution.importKey
  | .updateChunk execution state => updateImportChunk execution state
  | .store payload execution => do
      askServer (.findRow execution.importKey)
      askServer (.other (.store payload execution))
  | request => askServer (.other request)

/-! ## What a request does -/

/-- What a request makes of the rows and the counters. -/
def Progress.after (s : Progress) : ServerRequest → Progress
  | .other (.increment deltas) => { s with counters := s.counters.add deltas }
  | .findRow key => { s with rows := foundRows key s.rows }
  | .ensureRow key => { s with rows := Dict.set key (ensuredRow (s.rows.lookup key)) s.rows }
  | .updateRow key status memoryIds => { s with rows := updatedRows key status memoryIds s.rows }
  | .readRows => { s with recomputing := true }
  | .writeCounters rows => { s with counters := recount rows s.counters, recomputing := false }
  | _ => s

/-- The answers that the rows allow, where the lock can be taken. -/
def Progress.Allows (s : Progress) : (request : ServerRequest) → request.Answer → Prop
  | .ensureRow key, status => status = (ensuredRow (s.rows.lookup key)).status
  | .readRows, rows => s.recomputing = false ∧ rows = s.rows
  | _, _ => True

structure HookedState where
  queue : List ConversationGroup
  progress : Progress

/-- The part of a request that the queue answers. -/
def fromServerQueue : (request : ServerRequest) → List ConversationGroup → request.Answer → List ConversationGroup → Prop
  | .other .nextGroup, queue, answer, queue' => answer = queue.head? ∧ queue' = queue.tail
  | _, queue, _, queue' => queue' = queue

def serverAnswers (request : ServerRequest) (s : HookedState) (answer : request.Answer) (s' : HookedState) : Prop :=
  fromServerQueue request s.queue answer s'.queue ∧ s.progress.Allows request answer ∧
    s'.progress = s.progress.after request

/-! ## Runs -/

/-- The counters when the workers start: `load_chunk_statuses` computes them from the rows, and the total is that of the
prepared chunks. -/
def Progress.start (rows : List (String × ProgressRow)) (counters : JobCounters)
    (prepared : List (Conversation × List MessageChunk)) : Progress where
  rows := rows
  counters := { recount rows counters with totalChunks := (prepared.map fun item => (item.2.length : Int)).sum }
  recomputing := false

/-- A run of `run_import_job` with the hooks of the server, whose workers have all returned. -/
structure ServerRun (I : Importer) (options : RunOptions) (conversations : List Conversation) extends
    ImportSetup I options serverHooks conversations where
  /-- The rows and the counters of the job before the run. -/
  rows : List (String × ProgressRow)
  rows_unique : Dict.Unique rows
  counters : JobCounters
  traces : List (List ServerEvent)
  workers : traces.length = options.workers
  returned : ∀ trace ∈ traces, (toImportSetup.worker.served serve).Run trace ()
  last : HookedState
  turns : Interleaved serverAnswers traces ⟨conversationGroups prepared, Progress.start rows counters prepared⟩ last

end YiQiao
