import YiQiao.Import.Watch

/-!
# Retained workspaces

A job says that its source can be retried, and where the workspace with the source is. The two are written together
when a workspace is discarded, and apart from each other at the end of a run, by a cleanup and by the recovery scan.
-/

namespace YiQiao

open Lib

/-- A job whose source is to be retried has its workspace recorded. -/
def JobRow.Kept (job : JobRow) : Prop := job.sourceRetryRequired = true → job.workspace.isSome = true

/-- So does a terminal job. -/
def JobRow.KeptAtEnd (job : JobRow) : Prop := job.status ∈ discardableJobStatuses → job.Kept

/-- The write clears the workspace of no job whose source is to be retried, and has no source retried whose workspace
is gone. -/
def JobWrite.Keeps (job : JobRow) : JobWrite → Prop
  | .workspaceDeleted => job.sourceRetryRequired = false
  | .noConversations | .cancelled _ | .runFailed | .finished _ true => job.workspace.isSome = true
  | _ => True

/-- The write ends no job whose workspace is gone while its source is to be retried, and clears the workspace of no
such job that has ended. -/
def JobWrite.KeepsAtEnd (job : JobRow) : JobWrite → Prop
  | .workspaceDeleted => job.status ∈ discardableJobStatuses → job.sourceRetryRequired = false
  | .noConversations | .cancelled _ | .runFailed | .finished _ true => job.workspace.isSome = true
  | .failed | .graphRetried .. => job.Kept
  | _ => True

/-- The writes of an action meet the condition in the rows they hit, and a new job has the property. -/
def World.Meets (p : JobRow → Prop) (cond : JobRow → JobWrite → Prop) (w : World) (action : Action) : Prop :=
  action.enabled w = true → match action with
    | .write columns owner jobId =>
        ∀ job ∈ w.db.jobs, job.updatable jobId (some owner) w.now = true → cond job columns
    | .recover scanner jobId pathsFound =>
        ∀ read columns, w.sawJob scanner jobId = some read → read.recovery pathsFound = some columns →
          ∀ job ∈ w.db.jobs, job.updatable jobId none w.now = true → cond job columns
    | .tidy scanner jobId =>
        ∀ read columns, w.sawJob scanner jobId = some read → read.cleanup = some columns →
          ∀ job ∈ w.db.jobs, job.updatable jobId none w.now = true → cond job columns
    | .transact (.createJob row _ _) => (∀ job ∈ w.db.jobs, job.id ≠ row.id) → p row
    | _ => True

/-- After the action every job has the property. -/
def World.Leaves (p : JobRow → Prop) (w : World) (action : Action) : Prop :=
  ∀ job ∈ (action.run w).db.jobs, p job

/-- A property of rows that transactions keep, and that writes keep under a condition. -/
structure KeptUnder (p : JobRow → Prop) (cond : JobRow → JobWrite → Prop) : Prop where
  turns : ∀ {step : Step} {job job' : JobRow}, step.Turns job job' → step.isUpdate = false → p job → p job'
  writes : ∀ {job : JobRow} (columns : JobWrite), p job → (p (job.update columns.values) ↔ cond job columns)

variable {w : World} {action : Action} {p : JobRow → Prop} {cond : JobRow → JobWrite → Prop}

theorem KeptUnder.leaves (hkept : KeptUnder p cond) (hw : ∀ job ∈ w.db.jobs, p job) (h : w.Meets p cond action) :
    w.Leaves p action := by
  intro job' hjob'
  rcases action.run_db w with hdb | ⟨henabled, step, hstep, hdb⟩
  · exact hw job' (hdb ▸ hjob')
  · rw [hdb] at hjob'
    have h := h henabled
    have hwrite : ∀ (columns : JobWrite) (jobId : String) (fence : Option String),
        step = .mutate (.updateJob jobId columns.values) fence w.now →
        (∀ job ∈ w.db.jobs, job.updatable jobId fence w.now = true → cond job columns) → p job' := by
      rintro columns jobId fence rfl hcond
      rw [updateJob_commit] at hjob'
      rcases mem_updateRows.mp hjob' with ⟨hold, -⟩ | ⟨job, hjob, hhit, rfl⟩
      · exact hw job' hold
      · exact (hkept.writes columns (hw job hjob)).mpr (hcond job hjob hhit)
    rcases Action.step_cases hstep with rfl | ⟨columns, owner, jobId, rfl, hwritten⟩ |
      ⟨scanner, jobId, pathsFound, read, columns, rfl, hread, hcolumns, hwritten⟩ |
      ⟨scanner, jobId, read, rfl, hread, hcolumns, hwritten⟩
    · rcases Step.commit_row hjob' with ⟨job, hjob, hturn⟩ | ⟨⟨maxActive, maxRetained, rfl⟩, hfresh⟩
      · simp only [Action.enabled, Bool.and_eq_true, Bool.not_eq_true'] at henabled
        exact hkept.turns hturn henabled.1.1 (hw job hjob)
      · exact h hfresh
    · exact hwrite columns jobId _ hwritten h
    · exact hwrite columns jobId _ hwritten (h read columns hread hcolumns)
    · exact hwrite .workspaceDeleted jobId _ hwritten (h read _ hread hcolumns)

theorem KeptUnder.meets (hkept : KeptUnder p cond) (hw : ∀ job ∈ w.db.jobs, p job) (h : w.Leaves p action) :
    w.Meets p cond action := by
  intro henabled
  have hwrite : ∀ (columns : JobWrite) (jobId : String) (fence : Option String),
      action.step w = some (.mutate (.updateJob jobId columns.values) fence w.now) →
      ∀ job ∈ w.db.jobs, job.updatable jobId fence w.now = true → cond job columns := by
    intro columns jobId fence hstep job hjob hhit
    have hdb := Action.run_commit henabled hstep
    rw [updateJob_commit] at hdb
    have hmem : job.update columns.values ∈
        (takeJob (JobRow.updatable jobId fence w.now) (JobRow.update columns.values) w.db).2.jobs :=
      mem_takeJob hjob hhit
    exact (hkept.writes columns (hw job hjob)).mp (h _ (hdb ▸ hmem))
  cases action with
  | transact step =>
    cases step with
    | createJob row maxActive maxRetained =>
      intro hfresh
      have hdb := Action.run_commit henabled rfl
      rcases createJob_commit row maxActive maxRetained w.db with ⟨-, job, hjob, hid⟩ | ⟨hjobs, -⟩
      · exact absurd hid (hfresh job hjob)
      · have hmem : row ∈ ((Step.createJob row maxActive maxRetained).commit w.db).jobs :=
          hjobs ▸ List.mem_append_right _ List.mem_cons_self
        exact h row (hdb ▸ hmem)
    | _ => trivial
  | write columns owner jobId => exact hwrite columns jobId _ rfl
  | recover scanner jobId pathsFound =>
    intro read columns hread hcolumns
    refine hwrite columns jobId none ?_
    simp only [Action.step, hread, Option.bind_some, hcolumns, Option.map_some, World.unleased]
  | tidy scanner jobId =>
    intro read columns hread hcolumns
    refine hwrite columns jobId none ?_
    simp only [Action.step, hread, Option.bind_some, hcolumns, Option.map_some, World.unleased]
  | _ => trivial

/-- Every state of a run has the property exactly if every action meets the condition. -/
theorem KeptUnder.run (hkept : KeptUnder p cond) (hw : ∀ job ∈ w.db.jobs, p job) (actions : List Action) :
    World.Always (World.Leaves p) w actions ↔ World.Always (World.Meets p cond) w actions := by
  constructor
  · exact fun h => h.mono (I := fun w => ∀ job ∈ w.db.jobs, p job) hw fun w action hw h => ⟨hkept.meets hw h, h⟩
  · exact fun h => h.mono (I := fun w => ∀ job ∈ w.db.jobs, p job) hw
      fun w action hw h => ⟨hkept.leaves hw h, hkept.leaves hw h⟩

theorem kept_agrees {job job' : JobRow} (hcore : job'.core = job.core) (h : job.Kept) : job'.Kept := by
  have a := JobRow.agrees hcore
  rw [JobRow.Kept, a.sourceRetryRequired, a.workspace]
  exact h

theorem kept_turns {step : Step} {job job' : JobRow} (hturn : step.Turns job job') (hupdate : step.isUpdate = false)
    (h : job.Kept) : job'.Kept := by
  cases hturn with
  | same hcore => exact kept_agrees hcore h
  | update => cases hupdate
  | completeDiscard => exact fun hretry => nomatch hretry
  | _ => exact h

theorem kept_under : KeptUnder JobRow.Kept JobWrite.Keeps where
  turns := kept_turns
  writes := by
    intro job columns h
    cases columns with
    | workspaceDeleted =>
      have hgone : (job.update JobWrite.workspaceDeleted.values).Kept ↔ (job.sourceRetryRequired = true → False) := by
        simp [JobRow.Kept, JobRow.update, JobWrite.values]
      exact hgone.trans (by simp [JobWrite.Keeps])
    | finished hasErrors sourceRetryRequired =>
      cases sourceRetryRequired with
      | true => simp [JobRow.Kept, JobRow.update, JobWrite.values, JobWrite.Keeps]
      | false => simp [JobRow.Kept, JobRow.update, JobWrite.values, JobWrite.Keeps]
    | noConversations => simp [JobRow.Kept, JobRow.update, JobWrite.values, JobWrite.Keeps]
    | cancelled phase => simp [JobRow.Kept, JobRow.update, JobWrite.values, JobWrite.Keeps]
    | runFailed => simp [JobRow.Kept, JobRow.update, JobWrite.values, JobWrite.Keeps]
    | uploadFailed deleted => simp [JobRow.Kept, JobRow.update, JobWrite.values, JobWrite.Keeps]
    | _ => exact ⟨fun _ => trivial, fun _ => h⟩

theorem keptAtEnd_turns {step : Step} {job job' : JobRow} (hturn : step.Turns job job') (hupdate : step.isUpdate = false)
    (h : job.KeptAtEnd) : job'.KeptAtEnd := by
  cases hturn with
  | same hcore =>
    intro hend
    exact kept_agrees hcore (h ((JobRow.agrees hcore).status ▸ hend))
  | update => cases hupdate
  | completeDiscard =>
    intro _ hretry
    cases hretry
  | retry => exact fun hend => absurd hend (show JobStatus.queued ∉ discardableJobStatuses by decide)
  | graphRetry => exact fun hend => absurd hend (show JobStatus.syncingGraph ∉ discardableJobStatuses by decide)
  | cancel => exact fun hend => absurd hend (show JobStatus.cancelling ∉ discardableJobStatuses by decide)
  | _ => exact h

theorem keptAtEnd_under : KeptUnder JobRow.KeptAtEnd JobWrite.KeepsAtEnd where
  turns := keptAtEnd_turns
  writes := by
    intro job columns h
    have hend : ∀ hasErrors : Bool,
        (if hasErrors then JobStatus.completedWithErrors else .completed) ∈ discardableJobStatuses := by decide
    have hterminal : JobStatus.completedWithErrors ∈ discardableJobStatuses ∧ JobStatus.cancelled ∈ discardableJobStatuses ∧
        JobStatus.failed ∈ discardableJobStatuses := by decide
    obtain ⟨herrors, hcancelled, hfailed⟩ := hterminal
    have hactive : ∀ status ∈ leaseableJobStatuses, status ∉ discardableJobStatuses := by decide
    cases columns with
    | workspaceDeleted =>
      have hgone : (job.update JobWrite.workspaceDeleted.values).KeptAtEnd ↔
          (job.status ∈ discardableJobStatuses → job.sourceRetryRequired = true → False) := by
        simp [JobRow.KeptAtEnd, JobRow.Kept, JobRow.update, JobWrite.values]
      exact hgone.trans (by simp [JobWrite.KeepsAtEnd])
    | finished hasErrors sourceRetryRequired =>
      cases sourceRetryRequired with
      | true => simp [JobRow.KeptAtEnd, JobRow.Kept, JobRow.update, JobWrite.values, JobWrite.KeepsAtEnd, hend]
      | false => simp [JobRow.KeptAtEnd, JobRow.Kept, JobRow.update, JobWrite.values, JobWrite.KeepsAtEnd]
    | noConversations => simp [JobRow.KeptAtEnd, JobRow.Kept, JobRow.update, JobWrite.values, JobWrite.KeepsAtEnd, herrors]
    | cancelled phase => simp [JobRow.KeptAtEnd, JobRow.Kept, JobRow.update, JobWrite.values, JobWrite.KeepsAtEnd, hcancelled]
    | runFailed => simp [JobRow.KeptAtEnd, JobRow.Kept, JobRow.update, JobWrite.values, JobWrite.KeepsAtEnd, hfailed]
    | failed => exact ⟨fun hkept => hkept hfailed, fun hkept _ => hkept⟩
    | graphRetried hasErrors result error => exact ⟨fun hkept => hkept (hend hasErrors), fun hkept _ => hkept⟩
    | uploadFailed deleted => exact ⟨fun _ => trivial, fun _ _ hretry => by cases hretry⟩
    | queued => exact ⟨fun _ => trivial, fun _ hended => absurd hended (hactive .queued (by decide))⟩
    | discovering => exact ⟨fun _ => trivial, fun _ hended => absurd hended (hactive .discovering (by decide))⟩
    | parsing => exact ⟨fun _ => trivial, fun _ hended => absurd hended (hactive .parsing (by decide))⟩
    | importing totalChunks => exact ⟨fun _ => trivial, fun _ hended => absurd hended (hactive .importing (by decide))⟩
    | syncingGraph => exact ⟨fun _ => trivial, fun _ hended => absurd hended (hactive .syncingGraph (by decide))⟩
    | extracting => exact ⟨fun _ => trivial, fun _ => h⟩
    | graphStatus status error => exact ⟨fun _ => trivial, fun _ => h⟩
    | progress counters => exact ⟨fun _ => trivial, fun _ => h⟩

/-- **Retained workspaces.** In every run: every terminal job whose source is to be retried has its workspace recorded
in every state exactly if no write ends a job whose workspace is gone while its source is to be retried, and no write
clears the workspace of such a job that has ended; and every job does so exactly if no write clears the workspace of a
job whose source is to be retried, and none has the source retried of a job whose workspace is gone. -/
theorem workspace_kept_iff (w : World) (hw : ∀ job ∈ w.db.jobs, job.Kept) (actions : List Action) :
    (World.Always (World.Leaves JobRow.KeptAtEnd) w actions ↔
      World.Always (World.Meets JobRow.KeptAtEnd JobWrite.KeepsAtEnd) w actions) ∧
    (World.Always (World.Leaves JobRow.Kept) w actions ↔
      World.Always (World.Meets JobRow.Kept JobWrite.Keeps) w actions) :=
  ⟨keptAtEnd_under.run (fun job hjob _ => hw job hjob) actions, kept_under.run hw actions⟩

/-- A job is imported, its workspace is deleted at the end, and its graph is retried; the retry is cancelled, and its
worker crashes. -/
def cancelledGraphRetry : List Action :=
  [.transact (.createJob { runningJob "job" "project" (some "upload") (some 60) with
      status := .uploading, phase := "uploading", workspace := some "upload" } (some 1) none),
    .write .queued "upload" "job", .transact (.releaseLease "upload" "job"),
    .transact (.acquireLease "worker" "job" 60 0), .write .discovering "worker" "job", .write .parsing "worker" "job",
    .write (.importing 1) "worker" "job", .write .syncingGraph "worker" "job",
    .write (.graphStatus "failed" none) "worker" "job", .write .workspaceDeleted "worker" "job",
    .write (.finished true false) "worker" "job", .transact (.releaseLease "worker" "job"),
    .transact (.graphRetry "second" "job" "project" 60 1 0), .transact (.cancel "job" "project"), .crash "second",
    .tick 60]

def World.empty : World := ⟨.empty, 0, [], [], [], []⟩

theorem retry_without_workspace : ¬ ∀ (w : World) (actions : List Action), w.db.jobs = [] →
    World.Always (World.Leaves JobRow.KeptAtEnd) w actions := by
  intro h
  have hall := h .empty (cancelledGraphRetry ++ [.list "scan", .look "scan" "job", .recover "scan" "job" true]) rfl
  obtain ⟨-, -, -, -, -, -, -, -, -, -, -, -, -, -, -, -, -, -, hlast, -⟩ := hall
  have hcancelled : ∃ job ∈ (World.empty.run (cancelledGraphRetry ++
      [.list "scan", .look "scan" "job", .recover "scan" "job" true])).db.jobs,
      job.status = .cancelled ∧ job.sourceRetryRequired = true ∧ job.workspace = none := by
    decide
  obtain ⟨job, hjob, hstatus, hretry, hworkspace⟩ := hcancelled
  have hsome := hlast job hjob (by rw [hstatus]; decide) hretry
  rw [hworkspace] at hsome
  cases hsome

/-- A job in the hands of a worker. -/
def World.importing : World :=
  ⟨{ Database.empty with jobs := [{ runningJob "job" "project" (some "worker") (some 60) with workspace := some "upload" }] },
    0, [("worker", "job")], ["worker"], [], []⟩

theorem workspace_kept_cancelled :
    World.Always (World.Leaves JobRow.KeptAtEnd) World.importing [.write (.cancelled none) "worker" "job"] :=
  (workspace_kept_iff World.importing (by unfold JobRow.Kept; decide) _).1.mpr
    ⟨fun _ job hjob _ => (by revert job; decide : job.workspace.isSome = true), trivial⟩

end YiQiao
