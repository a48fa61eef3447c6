import YiQiao.Import.Fence

/-!
# What a step makes of a job

Every transaction changes the jobs table row by row, or adds a row, or deletes rows. `Step.Turns` lists what may
become of a row; the invariants of jobs are derived from it.
-/

namespace YiQiao

open Lib

/-- A job without what only counts and reports. -/
def JobRow.core (job : JobRow) : JobRow :=
  { job with
    counters := ⟨0, 0, 0, 0, 0, 0, 0, 0, 0, 0⟩
    errorCount := 0
    graphStatus := ""
    graphError := none
    graphPendingItems := 0
    graphSyncedItems := 0
    graphFailedItems := 0 }

/-- Rows of one core agree in everything but counts and reports. -/
structure JobRow.Agrees (job job' : JobRow) : Prop where
  id : job'.id = job.id
  projectId : job'.projectId = job.projectId
  status : job'.status = job.status
  phase : job'.phase = job.phase
  cancelRequested : job'.cancelRequested = job.cancelRequested
  leaseOwner : job'.leaseOwner = job.leaseOwner
  leaseExpiresAt : job'.leaseExpiresAt = job.leaseExpiresAt
  workspace : job'.workspace = job.workspace
  workspaceBytes : job'.workspaceBytes = job.workspaceBytes
  sourceRetryRequired : job'.sourceRetryRequired = job.sourceRetryRequired

theorem JobRow.agrees {job job' : JobRow} (h : job'.core = job.core) : job.Agrees job' := by
  simp only [JobRow.core, JobRow.mk.injEq] at h
  obtain ⟨hid, hproject, hstatus, hphase, hcancel, howner, hexpires, hworkspace, hbytes, hretry, -⟩ := h
  exact ⟨hid, hproject, hstatus, hphase, hcancel, howner, hexpires, hworkspace, hbytes, hretry⟩

/-- `update_job` of a row. -/
def JobRow.update (values : JobRow → JobRow) (job : JobRow) : JobRow :=
  { values job with id := job.id, leaseOwner := job.leaseOwner }

/-- A job that `acquire_job_lease` leases. -/
def JobRow.acquirable (jobId : String) (now : Instant) (job : JobRow) : Bool :=
  job.id = jobId && job.status ∈ leaseableJobStatuses && !job.cancelRequested && job.free now

/-- A job that `acquire_job_retry_lease` takes. -/
def JobRow.retryable (jobId projectId : String) (job : JobRow) : Bool :=
  job.isOf jobId projectId && job.status ∈ [JobStatus.cancelled, .completedWithErrors, .failed] &&
    job.phase ≠ workspaceDiscardPhase

def JobRow.retried (owner : String) (expires : Instant) (job : JobRow) : JobRow :=
  JobRow.leaseTo owner expires
    { job with
      status := .queued
      phase := "queued"
      cancelRequested := false
      graphError := none
      counters := { job.counters with totalChunks := 0 } }

/-- A job that `activate_graph_retry` takes. -/
def JobRow.graphRetryable (jobId projectId : String) (job : JobRow) : Bool :=
  job.isOf jobId projectId && job.status ∈ [JobStatus.completed, .completedWithErrors] &&
    job.graphStatus ∈ ["failed", "pending", "disabled"] && job.phase ≠ workspaceDiscardPhase

def JobRow.graphRetried (owner : String) (expires : Instant) (job : JobRow) : JobRow :=
  JobRow.leaseTo owner expires
    { job with status := .syncingGraph, phase := "graph_sync", graphStatus := "syncing" }

/-- A job whose workspace `acquire_job_workspace_discard_lease` takes. -/
def JobRow.discardable (jobId projectId : String) (now : Instant) (job : JobRow) : Bool :=
  job.isOf jobId projectId && job.status ∈ discardableJobStatuses && job.workspace.isSome &&
    (job.phase ≠ workspaceDiscardPhase || job.free now)

def JobRow.discarding (owner : String) (expires : Instant) (job : JobRow) : JobRow :=
  JobRow.leaseTo owner expires { job with phase := workspaceDiscardPhase }

/-- A job whose discard is held. -/
def JobRow.discardedBy (owner jobId : String) (job : JobRow) : Bool :=
  job.id = jobId && job.status ∈ discardableJobStatuses && job.phase = workspaceDiscardPhase &&
    job.leaseOwner = some owner

def JobRow.kept (job : JobRow) : JobRow := JobRow.unlease { job with phase := terminalPhase job.status }

def JobRow.discarded (job : JobRow) : JobRow :=
  { job.kept with workspace := none, workspaceBytes := 0, sourceRetryRequired := false }

def JobRow.cancellable (jobId projectId : String) (job : JobRow) : Bool :=
  job.isOf jobId projectId && job.status ∈ cancellableJobStatuses

def JobRow.cancelled (job : JobRow) : JobRow :=
  { job with cancelRequested := true, status := .cancelling, phase := "cancelling" }

/-- What may become of a job row. -/
inductive Step.Turns : Step → JobRow → JobRow → Prop
  | same {step : Step} {job job' : JobRow} (h : job'.core = job.core) : Step.Turns step job job'
  | update {jobId : String} {values : JobRow → JobRow} {fence : Option String} {now : Instant} {job : JobRow}
      (hid : job.id = jobId) (hleased : job.leasedTo fence now = true) :
      Step.Turns (.mutate (.updateJob jobId values) fence now) job (job.update values)
  | renew {jobId : String} {seconds : Int} {fence : Option String} {now : Instant} {job : JobRow}
      (hid : job.id = jobId) (hleased : job.leasedTo (some (leaseOwnerText fence)) now = true) :
      Step.Turns (.mutate (.renewJobLease jobId seconds) fence now) job
        { job with leaseExpiresAt := some (now + seconds) }
  | reserve {jobId : String} {requested limit : Nat} {seconds : Int} {fence : Option String} {now : Instant}
      {job : JobRow} (hid : job.id = jobId) (hleased : job.leasedTo (some (leaseOwnerText fence)) now = true) :
      Step.Turns (.mutate (.reserveWorkspaceBytes jobId requested limit seconds) fence now) job
        { job with workspaceBytes := job.workspaceBytes + requested, leaseExpiresAt := some (now + seconds) }
  | acquire {owner jobId : String} {seconds : Int} {now : Instant} {job : JobRow}
      (hit : job.acquirable jobId now = true) :
      Step.Turns (.acquireLease owner jobId seconds now) job (job.leaseTo owner (now + seconds))
  | retry {owner jobId projectId : String} {seconds : Int} {maxActive : Option Nat} {now : Instant} {job : JobRow}
      (hit : job.retryable jobId projectId = true) :
      Step.Turns (.retryLease owner jobId projectId seconds maxActive now) job (job.retried owner (now + seconds))
  | graphRetry {owner jobId projectId : String} {seconds : Int} {maxActive : Nat} {now : Instant} {job : JobRow}
      (hit : job.graphRetryable jobId projectId = true) :
      Step.Turns (.graphRetry owner jobId projectId seconds maxActive now) job
        (job.graphRetried owner (now + seconds))
  | discardLease {owner jobId projectId : String} {seconds : Int} {now : Instant} {job : JobRow}
      (hit : job.discardable jobId projectId now = true) :
      Step.Turns (.discardLease owner jobId projectId seconds now) job (job.discarding owner (now + seconds))
  | completeDiscard {owner jobId : String} {job : JobRow} (hit : job.discardedBy owner jobId = true) :
      Step.Turns (.completeDiscard owner jobId) job job.discarded
  | abortDiscard {owner jobId : String} {job : JobRow} (hit : job.discardedBy owner jobId = true) :
      Step.Turns (.abortDiscard owner jobId) job job.kept
  | cancel {jobId projectId : String} {job : JobRow} (hit : job.cancellable jobId projectId = true) :
      Step.Turns (.cancel jobId projectId) job job.cancelled
  | release {owner jobId : String} {job : JobRow} (hid : job.id = jobId) (howner : job.leaseOwner = some owner) :
      Step.Turns (.releaseLease owner jobId) job job.unlease
  | reconcile {jobId : String} {bytes : Nat} {now : Instant} {job : JobRow} (hid : job.id = jobId)
      (hfree : job.free now = true) :
      Step.Turns (.reconcileBytes jobId bytes now) job { job with workspaceBytes := bytes }

/-- The step adds or deletes no job. -/
def Step.keepsRows : Step → Prop
  | .createJob .. | .deleteUploading .. => False
  | _ => True

variable {owner jobId projectId : String} {fence : Option String} {now : Instant} {db : Database}

theorem isOf_iff {job : JobRow} : job.isOf jobId projectId = true ↔ job.id = jobId ∧ job.projectId = projectId := by
  simp [JobRow.isOf]

theorem retryable_id {job : JobRow} (h : job.retryable jobId projectId = true) : job.id = jobId := by
  simp only [JobRow.retryable, Bool.and_eq_true] at h
  exact (isOf_iff.mp h.1.1).1

theorem graphRetryable_id {job : JobRow} (h : job.graphRetryable jobId projectId = true) : job.id = jobId := by
  simp only [JobRow.graphRetryable, Bool.and_eq_true] at h
  exact (isOf_iff.mp h.1.1.1).1

theorem discardable_id {now : Instant} {job : JobRow} (h : job.discardable jobId projectId now = true) :
    job.id = jobId := by
  simp only [JobRow.discardable, Bool.and_eq_true] at h
  exact (isOf_iff.mp h.1.1.1).1

theorem updateRows_forall₂ {R : JobRow → JobRow → Prop} {hit : JobRow → Bool} {change : JobRow → JobRow}
    {rows : List JobRow} (hchange : ∀ job ∈ rows, hit job = true → R job (change job)) (hsame : ∀ job, R job job) :
    List.Forall₂ R rows (updateRows hit change rows) := by
  rw [updateRows, List.forall₂_map_right_iff, List.forall₂_same]
  intro job hjob
  cases hhit : hit job with
  | true => exact hchange job hjob hhit
  | false => exact hsame job

theorem Step.Turns.refl (step : Step) (job : JobRow) : step.Turns job job := .same rfl

theorem takeJob_turns {step : Step} {hit : JobRow → Bool} {change : JobRow → JobRow}
    (h : ∀ job, hit job = true → step.Turns job (change job)) :
    List.Forall₂ step.Turns db.jobs (takeJob hit change db).2.jobs :=
  updateRows_forall₂ (fun job _ => h job) (Step.Turns.refl step)

/-- The rows have kept their cores. -/
abbrev SameCores : List JobRow → List JobRow → Prop := List.Forall₂ fun job job' => job'.core = job.core

theorem SameCores.refl (jobs : List JobRow) : SameCores jobs jobs := List.forall₂_same.mpr fun _ _ => rfl

theorem SameCores.trans {xs ys zs : List JobRow} (h : SameCores xs ys) (h' : SameCores ys zs) : SameCores xs zs := by
  induction h generalizing zs with
  | nil => exact h'
  | cons hxy _ ih =>
    cases h' with
    | cons hyz hrest => exact .cons (hyz.trans hxy) (ih hrest)

theorem SameCores.turns {step : Step} {xs ys : List JobRow} (h : SameCores xs ys) : List.Forall₂ step.Turns xs ys :=
  h.imp fun _ _ h => .same h

theorem changeJob_sameCores {change : JobRow → JobRow} {r : Option JobRow × Database}
    (h : changeJob fence jobId now change db = .ok r) (hchange : ∀ job, (change job).core = job.core) :
    SameCores db.jobs r.2.jobs := by
  rw [changeJob_ok h]
  exact updateRows_forall₂ (fun job _ _ => hchange job) fun _ => rfl

theorem addError_sameCores {db' : Database} {row : ErrorRow} (h : addError fence row now db = .ok db') :
    SameCores db.jobs db'.jobs := by
  simp only [addError, Fallible.bind_ok, Fallible.pure_ok] at h
  obtain ⟨errors, -, changed, hchanged, rfl⟩ := h
  have hcores := changeJob_sameCores hchanged fun _ => rfl
  exact hcores

theorem refreshGraphJobCounts_sameCores {db' : Database} {error : Option String}
    (h : refreshGraphJobCounts fence jobId error now db = .ok db') : SameCores db.jobs db'.jobs := by
  simp only [refreshGraphJobCounts, Fallible.bind_ok, Fallible.pure_ok] at h
  obtain ⟨changed, hchanged, rfl⟩ := h
  exact changeJob_sameCores hchanged fun _ => rfl

theorem addGraphItems_sameCores {db' : Database} {chunkId : String} {items : List GraphItem}
    (h : addGraphItems fence jobId chunkId items now db = .ok db') : SameCores db.jobs db'.jobs := by
  rw [addGraphItems] at h
  split at h
  · cases h
    exact .refl _
  · simp only [Fallible.bind_ok] at h
    obtain ⟨inserted, -, h⟩ := h
    split at h
    · simp only [Fallible.bind_ok, Fallible.pure_ok] at h
      obtain ⟨changed, hchanged, rfl⟩ := h
      have hcores := changeJob_sameCores hchanged fun _ => rfl
      exact hcores
    · simp only [Fallible.bind_ok, Fallible.pure_ok] at h
      obtain ⟨-, -, rfl⟩ := h
      exact .refl _

theorem markGraphItems_sameCores {r : Nat × Database} {ids : List String} {status : RecordStatus}
    {error : Option String} {incrementAttempts : Bool}
    (h : markGraphItems fence jobId ids status error incrementAttempts now db = .ok r) :
    SameCores db.jobs r.2.jobs := by
  rw [markGraphItems] at h
  split at h
  · cases h
    exact .refl _
  · simp only [Fallible.bind_ok] at h
    obtain ⟨-, -, h⟩ := h
    split at h
    · split at h
      · simp only [Fallible.bind_ok, Fallible.map_ok, Fallible.pure_ok] at h
        obtain ⟨-, ⟨changed, hchanged, rfl⟩, refreshed, hrefreshed, rfl⟩ := h
        have hcounted := changeJob_sameCores hchanged fun _ => rfl
        exact SameCores.trans hcounted (refreshGraphJobCounts_sameCores hrefreshed)
      · simp only [Fallible.bind_ok, Fallible.pure_ok] at h
        obtain ⟨-, rfl, refreshed, hrefreshed, rfl⟩ := h
        have hcores := refreshGraphJobCounts_sameCores hrefreshed
        exact hcores
    · cases h
      exact .refl _

/-- A mutation of a shared table writes no job. -/
theorem Mutation.run_jobs {m : Mutation} {r : Bool × Database} (h : m.run fence now db = .ok r)
    (hm : m.table ≠ none) : r.2.jobs = db.jobs := by
  cases m with
  | insertChunk values =>
    simp only [run, YiQiao.insertChunk, Fallible.map_ok, Fallible.bind_ok, Fallible.pure_ok] at h
    obtain ⟨-, ⟨-, -, chunks, -, rfl⟩, rfl⟩ := h
    rfl
  | overwriteChunk values =>
    obtain ⟨written, hwritten, rfl⟩ := Fallible.map_ok.mp h
    obtain ⟨chunks, hchunks⟩ := overwriteChunk_ok hwritten
    rw [hchunks]
  | updateChunk jobId importKey values =>
    simp only [run, YiQiao.updateChunk, Fallible.map_ok, Fallible.bind_ok, Fallible.pure_ok] at h
    obtain ⟨-, ⟨-, -, rfl⟩, rfl⟩ := h
    rfl
  | insertManifest c =>
    simp only [run, YiQiao.insertManifest, Fallible.map_ok, Fallible.bind_ok, Fallible.pure_ok] at h
    obtain ⟨-, ⟨manifests, -, rfl⟩, rfl⟩ := h
    rfl
  | reclaimManifest c =>
    simp only [run, YiQiao.reclaimManifest, Fallible.map_ok] at h
    obtain ⟨claimed, h, rfl⟩ := h
    split at h
    · cases h
    · simp only [Fallible.bind_ok, Fallible.pure_ok] at h
      obtain ⟨-, -, rfl⟩ := h
      rfl
  | markManifest projectId importKey jobId mark =>
    simp only [run, YiQiao.markManifest, Fallible.map_ok, Fallible.bind_ok, Fallible.pure_ok] at h
    obtain ⟨-, ⟨-, -, rfl⟩, rfl⟩ := h
    rfl
  | insertHash c =>
    simp only [run, YiQiao.insertHash, Fallible.bind_ok, Fallible.pure_ok] at h
    obtain ⟨hashes, -, rfl⟩ := h
    rfl
  | reclaimHash c =>
    simp only [run, YiQiao.reclaimHash] at h
    split at h
    · cases h
    · simp only [Fallible.bind_ok, Fallible.pure_ok] at h
      obtain ⟨-, -, rfl⟩ := h
      rfl
  | releaseMemoryHashes jobId chunkId given =>
    simp only [run, YiQiao.releaseMemoryHashes, Fallible.map_ok] at h
    obtain ⟨released, h, rfl⟩ := h
    split at h
    · simp only [Fallible.bind_ok, Fallible.pure_ok] at h
      obtain ⟨-, -, rfl⟩ := h
      rfl
    · simp only [Fallible.bind_ok, Fallible.pure_ok] at h
      obtain ⟨-, -, rfl⟩ := h
      rfl
  | markMemoryHashesSucceeded projectId conversationId jobId chunkId hashes idByHash =>
    simp only [run, YiQiao.markMemoryHashesSucceeded, Fallible.map_ok, Fallible.bind_ok, Fallible.pure_ok] at h
    obtain ⟨-, ⟨-, -, rfl⟩, rfl⟩ := h
    rfl
  | _ => exact absurd rfl hm

theorem endDiscard_turns {step : Step} {change : JobRow → JobRow} {db' : Database}
    (h : endDiscard owner jobId change db = .ok db')
    (hchange : ∀ job, job.discardedBy owner jobId = true →
      step.Turns job (change { job with phase := terminalPhase job.status }).unlease) :
    List.Forall₂ step.Turns db.jobs db'.jobs := by
  rw [endDiscard] at h
  split at h
  · cases h
  · cases h
    exact takeJob_turns hchange

/-- A step turns every job row into one. -/
theorem Step.turns {step : Step} {r : Bool × Database} (h : step.run db = .ok r) (hrows : step.keepsRows) :
    List.Forall₂ step.Turns db.jobs r.2.jobs := by
  cases step with
  | mutate m fence now =>
    change m.run fence now db = .ok r at h
    cases m with
    | updateJob jobId values =>
      obtain ⟨changed, hchanged, rfl⟩ := Fallible.map_ok.mp h
      rw [changeJob_ok hchanged]
      refine updateRows_forall₂ (fun job _ hhit => ?_) (Step.Turns.refl _)
      rw [Bool.and_eq_true, decide_eq_true_eq] at hhit
      exact .update hhit.1 hhit.2
    | incrementJob jobId deltas =>
      obtain ⟨changed, hchanged, rfl⟩ := Fallible.map_ok.mp h
      exact (changeJob_sameCores hchanged fun _ => rfl).turns
    | renewJobLease jobId seconds =>
      cases h
      refine takeJob_turns fun job hhit => ?_
      rw [Bool.and_eq_true, decide_eq_true_eq] at hhit
      exact .renew hhit.1 hhit.2
    | reserveWorkspaceBytes jobId requested limit seconds =>
      obtain ⟨reserved, hreserved, rfl⟩ := Fallible.map_ok.mp h
      simp only [YiQiao.reserveWorkspaceBytes, Fallible.bind_ok] at hreserved
      obtain ⟨-, -, hreserved⟩ := hreserved
      split at hreserved
      · cases hreserved
      · simp only [Fallible.bind_ok, Fallible.pure_ok] at hreserved
        obtain ⟨changed, hchanged, rfl⟩ := hreserved
        rw [changeJob_ok hchanged]
        refine updateRows_forall₂ (fun job _ hhit => ?_) (Step.Turns.refl _)
        rw [Bool.and_eq_true, decide_eq_true_eq] at hhit
        exact .reserve hhit.1 hhit.2
    | addError row =>
      obtain ⟨added, hadded, rfl⟩ := Fallible.map_ok.mp h
      exact (addError_sameCores hadded).turns
    | addGraphItems jobId chunkId items =>
      obtain ⟨added, hadded, rfl⟩ := Fallible.map_ok.mp h
      exact (addGraphItems_sameCores hadded).turns
    | markGraphItems jobId ids status error incrementAttempts =>
      obtain ⟨marked, hmarked, rfl⟩ := Fallible.map_ok.mp h
      exact (markGraphItems_sameCores hmarked).turns
    | _ =>
      rw [Mutation.run_jobs h (by simp [Mutation.table])]
      exact (SameCores.refl _).turns
  | acquireLease owner jobId seconds now =>
    cases h
    exact takeJob_turns fun _ hhit => .acquire hhit
  | retryLease owner jobId projectId seconds maxActive now =>
    simp only [run, acquireJobRetryLease] at h
    split at h
    · cases h
      exact (SameCores.refl _).turns
    · split at h
      · cases h
      · cases h
        exact takeJob_turns fun _ hhit => .retry hhit
  | graphRetry owner jobId projectId seconds maxActive now =>
    simp only [run, activateGraphRetry] at h
    split at h
    · cases h
      exact (SameCores.refl _).turns
    · split at h
      · cases h
      · cases h
        exact takeJob_turns fun _ hhit => .graphRetry hhit
  | discardLease owner jobId projectId seconds now =>
    cases h
    exact takeJob_turns fun _ hhit => .discardLease hhit
  | completeDiscard owner jobId =>
    obtain ⟨db', hdone, rfl⟩ := Fallible.map_ok.mp h
    exact endDiscard_turns hdone fun _ hhit => .completeDiscard hhit
  | abortDiscard owner jobId =>
    obtain ⟨db', hdone, rfl⟩ := Fallible.map_ok.mp h
    exact endDiscard_turns hdone fun _ hhit => .abortDiscard hhit
  | cancel jobId projectId =>
    cases h
    exact takeJob_turns fun _ hhit => .cancel hhit
  | releaseLease owner jobId =>
    cases h
    refine takeJob_turns fun job hhit => ?_
    rw [Bool.and_eq_true, decide_eq_true_eq, decide_eq_true_eq] at hhit
    exact .release hhit.1 hhit.2
  | createJob row maxActive maxRetained => exact hrows.elim
  | deleteUploading owner jobId now => exact hrows.elim
  | reconcileBytes jobId bytes now =>
    cases h
    refine takeJob_turns fun job hhit => ?_
    rw [Bool.and_eq_true, decide_eq_true_eq] at hhit
    exact .reconcile hhit.1 hhit.2

end YiQiao
