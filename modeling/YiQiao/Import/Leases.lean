import YiQiao.Import.Repository

/-!
# Leases of import jobs

How a worker comes to a job and leaves it: the repository's other statements on the jobs table. They ask for a
status of the job and, but for a retry, that no other lease is running.
-/

namespace YiQiao

open Lib

def leaseableJobStatuses : List JobStatus := [.uploading, .queued, .discovering, .parsing, .importing, .syncingGraph]

/-- `_DEFAULT_RECOVERABLE_JOB_STATUSES`, which are the active ones too. -/
def recoverableJobStatuses : List JobStatus := leaseableJobStatuses ++ [.cancelling]

def discardableJobStatuses : List JobStatus := [.cancelled, .completed, .completedWithErrors, .failed]

def cancellableJobStatuses : List JobStatus := [.queued, .discovering, .parsing, .importing, .syncingGraph]

def workspaceDiscardPhase : String := "discarding"

/-- No lease is running. -/
def JobRow.free (now : Instant) (job : JobRow) : Bool :=
  job.leaseOwner.isNone || job.leaseExpiresAt.all (· ≤ now)

def JobRow.leaseTo (owner : String) (expires : Instant) (job : JobRow) : JobRow :=
  { job with leaseOwner := some owner, leaseExpiresAt := some expires }

def JobRow.unlease (job : JobRow) : JobRow := { job with leaseOwner := none, leaseExpiresAt := none }

def JobRow.isOf (jobId projectId : String) (job : JobRow) : Bool := job.id = jobId && job.projectId = projectId

def Database.activeJobs (db : Database) (projectId : String) : Nat :=
  db.jobs.countP fun job => job.projectId = projectId && job.status ∈ recoverableJobStatuses

/-- `list_recoverable_jobs`. -/
def Database.recoverableJobs (db : Database) (now : Instant) : List JobRow :=
  db.jobs.filter fun job => job.status ∈ recoverableJobStatuses && job.free now

/-- `acquire_job_lease`. -/
def acquireJobLease (owner jobId : String) (seconds : Int) (now : Instant) (db : Database) : Bool × Database :=
  takeJob (fun job => job.id = jobId && job.status ∈ leaseableJobStatuses && !job.cancelRequested && job.free now)
    (JobRow.leaseTo owner (now + seconds)) db

/-- `acquire_job_retry_lease`: whoever holds the job's lease loses it. -/
def acquireJobRetryLease (owner jobId projectId : String) (seconds : Int) (maxActive : Option Nat) (now : Instant)
    (db : Database) : Except RepositoryError (Bool × Database) :=
  let hit := fun job : JobRow => job.isOf jobId projectId &&
    job.status ∈ [JobStatus.cancelled, .completedWithErrors, .failed] && job.phase ≠ workspaceDiscardPhase
  if maxActive.isSome ∧ hitRows hit db.jobs = 0 then .ok (false, db)
  else if maxActive.any (· ≤ db.activeJobs projectId) then .error .activeJobLimit
  else .ok (takeJob hit (fun job => JobRow.leaseTo owner (now + seconds)
    { job with
      status := .queued
      phase := "queued"
      cancelRequested := false
      graphError := none
      counters := { job.counters with totalChunks := 0 } }) db)

/-- `activate_graph_retry`. -/
def activateGraphRetry (owner jobId projectId : String) (seconds : Int) (maxActive : Nat) (now : Instant)
    (db : Database) : Except RepositoryError (Bool × Database) :=
  let hit := fun job : JobRow => job.isOf jobId projectId &&
    job.status ∈ [JobStatus.completed, .completedWithErrors] &&
    job.graphStatus ∈ ["failed", "pending", "disabled"] && job.phase ≠ workspaceDiscardPhase
  if hitRows hit db.jobs = 0 then .ok (false, db)
  else if maxActive ≤ db.activeJobs projectId then .error .activeJobLimit
  else .ok (takeJob hit (fun job => JobRow.leaseTo owner (now + seconds)
    { job with status := .syncingGraph, phase := "graph_sync", graphStatus := "syncing" }) db)

/-- `acquire_job_workspace_discard_lease`. -/
def acquireJobWorkspaceDiscardLease (owner jobId projectId : String) (seconds : Int) (now : Instant)
    (db : Database) : Bool × Database :=
  takeJob (fun job => job.isOf jobId projectId && job.status ∈ discardableJobStatuses && job.workspace.isSome &&
      (job.phase ≠ workspaceDiscardPhase || job.free now))
    (fun job => JobRow.leaseTo owner (now + seconds) { job with phase := workspaceDiscardPhase }) db

/-- `_terminal_phase`. -/
def terminalPhase : JobStatus → String
  | .completed | .completedWithErrors => "completed"
  | .cancelled => "cancelled"
  | .failed => "failed"
  | .uploading => "uploading"
  | .queued => "queued"
  | .discovering => "discovering"
  | .parsing => "parsing"
  | .importing => "importing"
  | .syncingGraph => "syncing_graph"
  | .cancelling => "cancelling"

/-- The end of a workspace discard by the worker that took it up. -/
def endDiscard (owner jobId : String) (change : JobRow → JobRow) (db : Database) : Except RepositoryError Database :=
  let hit := fun job : JobRow => job.id = jobId && job.status ∈ discardableJobStatuses &&
    job.phase = workspaceDiscardPhase && job.leaseOwner = some owner
  if hitRows hit db.jobs = 0 then .error .leaseLost
  else .ok (takeJob hit (fun job => (change { job with phase := terminalPhase job.status }).unlease) db).2

/-- `complete_job_workspace_discard`. -/
def completeJobWorkspaceDiscard (owner jobId : String) : Database → Except RepositoryError Database :=
  endDiscard owner jobId fun job => { job with workspace := none, workspaceBytes := 0, sourceRetryRequired := false }

/-- `abort_job_workspace_discard`. -/
def abortJobWorkspaceDiscard (owner jobId : String) : Database → Except RepositoryError Database :=
  endDiscard owner jobId fun job => job

/-- `request_job_cancel`. -/
def requestJobCancel (jobId projectId : String) (db : Database) : Bool × Database :=
  takeJob (fun job => job.isOf jobId projectId && job.status ∈ cancellableJobStatuses)
    (fun job => { job with cancelRequested := true, status := .cancelling, phase := "cancelling" }) db

/-- `release_job_lease`. -/
def releaseJobLease (owner jobId : String) (db : Database) : Bool × Database :=
  takeJob (fun job => job.id = jobId && job.leaseOwner = some owner) JobRow.unlease db

/-- `create_job_with_active_limit`; `create_job` has no limits. -/
def createJob (row : JobRow) (maxActive maxRetained : Option Nat) (db : Database) :
    Except RepositoryError Database :=
  if maxActive.any (· ≤ db.activeJobs row.projectId) then .error .activeJobLimit
  else if maxRetained.any (· ≤ (db.jobs.map JobRow.workspaceBytes).sum) then .error .budgetExceeded
  else if db.jobs.any (·.id = row.id) then .error .conflict
  else .ok { db with jobs := db.jobs ++ [row] }

/-- `delete_uploading_job`. -/
def deleteUploadingJob (owner jobId : String) (now : Instant) (db : Database) : Bool × Database :=
  let hit := fun job : JobRow => job.id = jobId && job.status = .uploading && job.leasedTo (some owner) now
  (decide (hitRows hit db.jobs ≠ 0), { db with jobs := deleteRows hit db.jobs })

/-- `reconcile_workspace_bytes`. -/
def reconcileWorkspaceBytes (jobId : String) (bytes : Nat) (now : Instant) (db : Database) : Bool × Database :=
  takeJob (fun job => job.id = jobId && job.free now) (fun job => { job with workspaceBytes := bytes }) db

end YiQiao
