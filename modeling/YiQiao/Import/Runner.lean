import YiQiao.Import.Transactions

/-!
# Uploads, runs and the recovery scan

What the program writes to a job with `update_job`, and who writes it when. An upload, a run and a graph retry write
under the lease of the job; the recovery scan reads a job that nobody has leased, and writes what it makes of it later
and without a lease.
-/

namespace YiQiao

open Lib Locks

/-! ## What is written -/

/-- The calls of `import_jobs.update`. -/
inductive JobWrite where
  /-- The end of an upload, and the restart of a run by `_submit_memory_import`. -/
  | queued
  | discovering
  | parsing
  | importing (totalChunks : Int)
  | extracting
  | syncingGraph
  | graphStatus (status : String) (error : Option String)
  /-- `_recompute_import_progress`. -/
  | progress (counters : JobCounters)
  /-- A run that found no conversation. -/
  | noConversations
  /-- The end of a run. -/
  | finished (hasErrors sourceRetryRequired : Bool)
  /-- `mark_job_cancelled`, which names no phase at first, and the recovery scan. -/
  | cancelled (phase : Option String)
  /-- A run that failed. -/
  | runFailed
  /-- A retry that could not be started, and a job whose paths the recovery scan finds no more. -/
  | failed
  /-- `_expire_stale_import_upload` and `_abort_import_upload`; the workspace is kept if it cannot be deleted. -/
  | uploadFailed (deleted : Bool)
  /-- The end of `_run_graph_retry`. -/
  | graphRetried (hasErrors : Bool) (result : String) (error : Option String)
  /-- The workspace was deleted: `_prepare_terminal_import_workspace`, `_cleanup_terminal_import_workspace`. -/
  | workspaceDeleted

def JobWrite.values : JobWrite → JobRow → JobRow
  | .queued, job => { job with
      status := .queued, phase := "queued", counters := { job.counters with totalChunks := 0 } }
  | .discovering, job => { job with status := .discovering, phase := "parsing" }
  | .parsing, job => { job with status := .parsing }
  | .importing totalChunks, job => { job with
      status := .importing, phase := "extracting", counters := { job.counters with totalChunks := totalChunks } }
  | .extracting, job => { job with phase := "extracting" }
  | .syncingGraph, job => { job with status := .syncingGraph, phase := "graph_sync", graphStatus := "syncing" }
  | .graphStatus status error, job => { job with graphStatus := status, graphError := error }
  | .progress counters, job => { job with counters := counters }
  | .noConversations, job => { job with
      status := .completedWithErrors, phase := "completed", graphStatus := "skipped", sourceRetryRequired := true }
  | .finished hasErrors sourceRetryRequired, job => { job with
      status := if hasErrors then .completedWithErrors else .completed
      phase := "completed"
      sourceRetryRequired := sourceRetryRequired }
  | .cancelled phase, job => { job with
      status := .cancelled, phase := phase.getD job.phase, sourceRetryRequired := true }
  | .runFailed, job => { job with status := .failed, phase := "failed", sourceRetryRequired := true }
  | .failed, job => { job with status := .failed, phase := "failed" }
  | .uploadFailed deleted, job => { job with
      status := .failed
      phase := "failed"
      sourceRetryRequired := false
      workspace := if deleted then none else job.workspace
      workspaceBytes := if deleted then 0 else job.workspaceBytes }
  | .graphRetried hasErrors result error, job => { job with
      status := if hasErrors then .completedWithErrors else .completed
      phase := "completed"
      graphStatus := result
      graphError := error }
  | .workspaceDeleted, job => { job with workspace := none, workspaceBytes := 0 }

/-- The status that is written. -/
def JobWrite.status : JobWrite → Option JobStatus
  | .queued => some .queued
  | .discovering => some .discovering
  | .parsing => some .parsing
  | .importing _ => some .importing
  | .syncingGraph => some .syncingGraph
  | .noConversations => some .completedWithErrors
  | .finished hasErrors _ | .graphRetried hasErrors _ _ =>
      some (if hasErrors then .completedWithErrors else .completed)
  | .cancelled _ => some .cancelled
  | .runFailed | .failed | .uploadFailed _ => some .failed
  | .extracting | .graphStatus .. | .progress _ | .workspaceDeleted => none

/-- The write ends a run. -/
def JobWrite.ends (write : JobWrite) : Bool := write.status.any (· ∈ discardableJobStatuses)

@[simp] theorem JobWrite.values_status (write : JobWrite) (job : JobRow) :
    (write.values job).status = write.status.getD job.status := by
  cases write <;> rfl

@[simp] theorem JobWrite.values_projectId (write : JobWrite) (job : JobRow) :
    (write.values job).projectId = job.projectId := by
  cases write <;> rfl

@[simp] theorem JobWrite.values_leaseExpiresAt (write : JobWrite) (job : JobRow) :
    (write.values job).leaseExpiresAt = job.leaseExpiresAt := by
  cases write <;> rfl

/-- A status is an active one or one that a workspace can be discarded in. -/
theorem active_or_terminal (status : JobStatus) : status ∈ recoverableJobStatuses ↔ status ∉ discardableJobStatuses := by
  cases status <;> decide

/-! ## The program at work -/

structure World where
  db : Database
  now : Instant
  /-- The uploads, runs and graph retries that have not ended: their lease owners and jobs. -/
  workers : List (String × String)
  /-- The lease owners that were drawn so far. -/
  owners : List String
  /-- The jobs that a scan has listed. -/
  listed : List (String × String)
  /-- The jobs that a scan has read since. -/
  seen : List (String × JobRow)

/-- The clock reading with which a statement compares a lease. -/
def Step.time : Step → Option Instant
  | .mutate _ _ now | .acquireLease _ _ _ now | .discardLease _ _ _ _ now | .deleteUploading _ _ now
  | .reconcileBytes _ _ now => some now
  | .retryLease .. | .graphRetry .. | .completeDiscard .. | .abortDiscard .. | .cancel .. | .releaseLease ..
  | .createJob .. => none

/-- The lease owner that is drawn for a transaction. -/
def Step.draws : Step → Option String
  | .acquireLease owner .. | .retryLease owner .. | .graphRetry owner .. | .discardLease owner .. => some owner
  | .createJob row _ _ => row.leaseOwner
  | _ => none

/-- The worker that a transaction starts when it takes the job. -/
def Step.starts : Step → Option (String × String)
  | .acquireLease owner jobId .. | .retryLease owner jobId .. | .graphRetry owner jobId .. => some (owner, jobId)
  | .createJob row _ _ => row.leaseOwner.map fun owner => (owner, row.id)
  | _ => none

inductive Action where
  /-- A transaction that writes no values of the program's own. -/
  | transact (step : Step)
  /-- `import_jobs.update` with a lease owner. -/
  | write (columns : JobWrite) (owner jobId : String)
  /-- `list_recoverable_jobs`. -/
  | list (scanner : String)
  /-- A scan reads a job: `import_jobs.get` with `refresh`. -/
  | look (scanner jobId : String)
  /-- `_resume_memory_imports` writes what it makes of the job that it has read. -/
  | recover (scanner jobId : String) (pathsFound : Bool)
  /-- `_cleanup_terminal_import_workspace` without a lease owner: it clears the workspace of the job it has read. -/
  | tidy (scanner jobId : String)
  | crash (owner : String)
  | tick (seconds : Nat)

/-- What a recovery scan writes to a job that it has read: the other cases go on under a lease. -/
def JobRow.recovery (job : JobRow) (pathsFound : Bool) : Option JobWrite :=
  if job.status = .cancelling || job.cancelRequested then some (.cancelled (some "cancelled"))
  else if job.status = .syncingGraph then none
  else if pathsFound then none
  else some .failed

/-- What a cleanup writes to a job that it has read. -/
def JobRow.cleanup (job : JobRow) : Option JobWrite :=
  if job.workspace.isSome && job.status ∈ [JobStatus.completed, .completedWithErrors] && !job.sourceRetryRequired then
    some .workspaceDeleted
  else none

def World.sawJob (w : World) (scanner jobId : String) : Option JobRow :=
  (w.seen.find? fun entry => entry.1 = scanner && entry.2.id = jobId).map Prod.snd

/-- A write without a lease owner. -/
def World.unleased (w : World) (jobId : String) (write : JobWrite) : Step :=
  .mutate (.updateJob jobId write.values) none w.now

/-- The transaction of an action. -/
def Action.step (w : World) : Action → Option Step
  | .transact step => some step
  | .write columns owner jobId => some (.mutate (.updateJob jobId columns.values) (some owner) w.now)
  | .recover scanner jobId pathsFound =>
      (w.sawJob scanner jobId).bind fun job => (job.recovery pathsFound).map (w.unleased jobId)
  | .tidy scanner jobId => (w.sawJob scanner jobId).bind fun job => job.cleanup.map (w.unleased jobId)
  | _ => none

/-- `update_job`: what the program writes with it has actions of its own. -/
def Step.isUpdate : Step → Bool
  | .mutate (.updateJob ..) _ _ => true
  | _ => false

/-- What the program can do: the clock is one, lease owners are new, and a worker writes a status while it runs. -/
def Action.enabled (w : World) : Action → Bool
  | .transact step => !step.isUpdate && step.time.all (· = w.now) && step.draws.all (· ∉ w.owners)
  | .write columns owner jobId => columns.status.isNone || (owner, jobId) ∈ w.workers
  | .look scanner jobId => (scanner, jobId) ∈ w.listed
  | _ => true

def World.write (w : World) (step : Step) : World := { w with db := step.commit w.db }

/-- What an action does besides its transaction. -/
def Action.note (w : World) : Action → World
  | .transact step =>
      { w with
        owners := step.draws.toList ++ w.owners
        -- the worker starts if the job is leased to it now
        workers := (step.starts.toList.filter fun worker =>
          w.db.jobs.any fun job => job.id = worker.2 && job.leaseOwner = some worker.1) ++ w.workers }
  | .write columns owner jobId =>
      if columns.ends then { w with workers := w.workers.filter (· ≠ (owner, jobId)) } else w
  | .list scanner =>
      { w with listed := (((w.db.recoverableJobs w.now).filter fun job => job.status ≠ .uploading).map
        fun job => (scanner, job.id)) ++ w.listed }
  | .look scanner jobId =>
      { w with seen := ((w.db.jobs.filter fun job => job.id = jobId).map fun job => (scanner, job)) ++ w.seen }
  | .crash owner => { w with workers := w.workers.filter fun worker => worker.1 ≠ owner }
  | .tick seconds => { w with now := w.now + seconds }
  | .recover .. | .tidy .. => w

/-- One action of the program. -/
def Action.run (w : World) (action : Action) : World :=
  if action.enabled w then action.note ((action.step w).elim w w.write) else w

def World.run (w : World) (actions : List Action) : World := actions.foldl Action.run w

end YiQiao
