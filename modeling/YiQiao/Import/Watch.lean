import YiQiao.Import.Runner

/-!
# Who changes the status of a leased job

While the lease of a job runs, its worker and a cancel request change its status. The recovery scan writes without a
lease what it made of a job that it read before, and a retry takes a terminal job whose lease may still run: apart from
these two nobody else does.
-/

namespace YiQiao

open Lib

/-- The action is the lease owner's, or a cancel request. -/
def Action.isBy (job : JobRow) : Action → Prop
  | .write _ owner _ => job.leaseOwner = some owner
  | .transact (.mutate _ fence _) => fence.isSome = true ∧ job.leaseOwner = fence
  | .transact (.cancel _ _) => True
  | _ => False

/-- The action changes the status of no leased job, unless it is the lease owner's or a cancel request. -/
def World.Respects (w : World) (action : Action) : Prop :=
  ∀ job ∈ w.db.jobs, ∀ job' ∈ (action.run w).db.jobs, job'.id = job.id → job.free w.now = false →
    job'.status ≠ job.status → action.isBy job

/-- A retry and a graph retry find no lease running on the job they take, and the recovery scan finds none on the job
whose status it changes. -/
def World.Defers (w : World) (action : Action) : Prop :=
  action.enabled w = true → match action with
    | .transact (.retryLease _ jobId projectId _ _ _) =>
        ∀ job ∈ w.db.jobs, job.retryable jobId projectId = true → job.free w.now = true
    | .transact (.graphRetry _ jobId projectId _ _ _) =>
        ∀ job ∈ w.db.jobs, job.graphRetryable jobId projectId = true → job.free w.now = true
    | .recover scanner jobId pathsFound =>
        ∀ read columns, w.sawJob scanner jobId = some read → read.recovery pathsFound = some columns →
          ∀ job ∈ w.db.jobs, job.id = jobId → columns.status = some job.status ∨ job.free w.now = true
    | _ => True

/-- Every action of a run, and the state that it finds. -/
def World.Always (p : World → Action → Prop) : World → List Action → Prop
  | _, [] => True
  | w, action :: actions => p w action ∧ World.Always p (action.run w) actions

variable {w : World} {action : Action}

@[simp] theorem Action.note_db (w : World) (action : Action) : (action.note w).db = w.db := by
  cases action with
  | write columns owner jobId =>
    simp only [note]
    split
    · rfl
    · rfl
  | _ => rfl

/-- What an action makes of the tables. -/
theorem Action.run_db (w : World) (action : Action) :
    (action.run w).db = w.db ∨ action.enabled w = true ∧ ∃ step, action.step w = some step ∧
      (action.run w).db = step.commit w.db := by
  rw [Action.run]
  split
  · next henabled =>
    cases hstep : action.step w with
    | none => exact .inl (action.note_db w)
    | some step => exact .inr ⟨henabled, step, rfl, action.note_db _⟩
  · exact .inl rfl

theorem Action.run_commit {step : Step} (henabled : action.enabled w = true) (hstep : action.step w = some step) :
    (action.run w).db = step.commit w.db := by
  rw [Action.run, if_pos henabled, hstep]
  exact action.note_db _

theorem Action.run_ids (h : (w.db.jobs.map JobRow.id).Nodup) (action : Action) :
    ((action.run w).db.jobs.map JobRow.id).Nodup := by
  rcases action.run_db w with hdb | ⟨-, step, -, hdb⟩
  · rw [hdb]
    exact h
  · rw [hdb]
    exact step.commit_ids h

theorem recovery_status {read : JobRow} {pathsFound : Bool} {columns : JobWrite}
    (h : read.recovery pathsFound = some columns) : ∃ status ∈ discardableJobStatuses, columns.status = some status := by
  rw [JobRow.recovery] at h
  split at h
  · cases h
    exact ⟨.cancelled, by decide, rfl⟩
  · split at h
    · cases h
    · split at h
      · cases h
      · cases h
        exact ⟨.failed, by decide, rfl⟩

theorem cleanup_status {read : JobRow} {columns : JobWrite} (h : read.cleanup = some columns) :
    columns = .workspaceDeleted := by
  rw [JobRow.cleanup] at h
  split at h
  · cases h
    rfl
  · cases h

/-- Where a transaction comes from. -/
theorem Action.step_cases {step : Step} (h : action.step w = some step) :
    action = .transact step ∨
    (∃ columns owner jobId, action = .write columns owner jobId ∧
      step = .mutate (.updateJob jobId columns.values) (some owner) w.now) ∨
    (∃ scanner jobId pathsFound read columns, action = .recover scanner jobId pathsFound ∧
      w.sawJob scanner jobId = some read ∧ read.recovery pathsFound = some columns ∧
      step = .mutate (.updateJob jobId columns.values) none w.now) ∨
    (∃ scanner jobId read, action = .tidy scanner jobId ∧ w.sawJob scanner jobId = some read ∧
      read.cleanup = some .workspaceDeleted ∧
      step = .mutate (.updateJob jobId JobWrite.workspaceDeleted.values) none w.now) := by
  cases action with
  | transact own => exact .inl (congrArg Action.transact (Option.some.inj h))
  | write columns owner jobId => exact .inr (.inl ⟨columns, owner, jobId, rfl, (Option.some.inj h).symm⟩)
  | recover scanner jobId pathsFound =>
    obtain ⟨read, hread, h⟩ := Option.bind_eq_some_iff.mp h
    obtain ⟨columns, hcolumns, h⟩ := Option.map_eq_some_iff.mp h
    exact .inr (.inr (.inl ⟨scanner, jobId, pathsFound, read, columns, rfl, hread, hcolumns, h.symm⟩))
  | tidy scanner jobId =>
    obtain ⟨read, hread, h⟩ := Option.bind_eq_some_iff.mp h
    obtain ⟨columns, hcolumns, h⟩ := Option.map_eq_some_iff.mp h
    cases cleanup_status hcolumns
    exact .inr (.inr (.inr ⟨scanner, jobId, read, rfl, hread, hcolumns, h.symm⟩))
  | list scanner => cases h
  | look scanner jobId => cases h
  | crash owner => cases h
  | tick seconds => cases h

/-- A transaction of its own is none of `update_job`. -/
theorem transact_not_update {jobId : String} {values : JobRow → JobRow} {fence : Option String} {now : Instant}
    (henabled : (Action.transact (.mutate (.updateJob jobId values) fence now)).enabled w = true) : False := by
  simp [Action.enabled, Step.isUpdate] at henabled

/-- The action changes statuses only of jobs that it may. -/
theorem World.Defers.respects (hids : (w.db.jobs.map JobRow.id).Nodup) (h : w.Defers action) : w.Respects action := by
  intro job hjob job' hjob' hid hfree hstatus
  rcases action.run_db w with hdb | ⟨henabled, step, hstep, hdb⟩
  · rw [hdb] at hjob'
    rw [eq_of_key_eq hids hjob' hjob hid] at hstatus
    exact absurd rfl hstatus
  · rw [hdb] at hjob'
    have h := h henabled
    have hturn := Step.commit_turn hids hjob hjob' hid
    rcases Action.step_cases hstep with rfl | ⟨columns, owner, jobId, rfl, rfl⟩ |
      ⟨scanner, jobId, pathsFound, read, columns, rfl, hread, hcolumns, rfl⟩ | ⟨scanner, jobId, read, rfl, -, -, rfl⟩
    · cases hturn with
      | same hcore => exact absurd (JobRow.agrees hcore).status hstatus
      | update => exact (transact_not_update henabled).elim
      | retry hhit =>
        rw [h job hjob hhit] at hfree
        cases hfree
      | graphRetry hhit =>
        rw [h job hjob hhit] at hfree
        cases hfree
      | cancel => trivial
      | _ => exact absurd rfl hstatus
    · cases hturn with
      | same hcore => exact absurd (JobRow.agrees hcore).status hstatus
      | update _ hleased =>
        simp only [JobRow.leasedTo, Option.all_some, Bool.and_eq_true, decide_eq_true_eq] at hleased
        exact hleased.1
    · cases hturn with
      | same hcore => exact absurd (JobRow.agrees hcore).status hstatus
      | update hupdated _ =>
        rcases h read columns hread hcolumns job hjob hupdated with hsame | hjobFree
        · exact absurd (by simp [JobRow.update, hsame]) hstatus
        · rw [hjobFree] at hfree
          cases hfree
    · cases hturn with
      | same hcore => exact absurd (JobRow.agrees hcore).status hstatus
      | update => exact absurd rfl hstatus

theorem retryable_status {jobId projectId : String} {job : JobRow} (h : job.retryable jobId projectId = true) :
    job.status ≠ .queued := by
  intro hqueued
  simp [JobRow.retryable, hqueued] at h

theorem graphRetryable_status {jobId projectId : String} {job : JobRow}
    (h : job.graphRetryable jobId projectId = true) : job.status ≠ .syncingGraph := by
  intro hsyncing
  simp [JobRow.graphRetryable, hsyncing] at h

/-- An action that does not defer changes a status that it may not. -/
theorem World.Respects.defers (h : w.Respects action) : w.Defers action := by
  intro henabled
  cases action with
  | transact step =>
    have hdb := Action.run_commit henabled rfl
    cases step with
    | retryLease owner jobId projectId seconds maxActive now =>
      intro job hjob hhit
      by_contra hfree
      have hmem : job.retried owner (now + seconds) ∈ ((Step.retryLease owner jobId projectId seconds maxActive
          now).commit w.db).jobs := mem_takeJob hjob hhit
      exact h job hjob (job.retried owner (now + seconds)) (hdb ▸ hmem) rfl (by simpa using hfree)
        (retryable_status hhit).symm
    | graphRetry owner jobId projectId seconds maxActive now =>
      intro job hjob hhit
      by_contra hfree
      have hmem : job.graphRetried owner (now + seconds) ∈ ((Step.graphRetry owner jobId projectId seconds maxActive
          now).commit w.db).jobs := mem_takeJob hjob hhit
      exact h job hjob (job.graphRetried owner (now + seconds)) (hdb ▸ hmem) rfl (by simpa using hfree)
        (graphRetryable_status hhit).symm
    | _ => trivial
  | recover scanner jobId pathsFound =>
    intro read columns hread hcolumns job hjob hid
    by_contra hnot
    rw [not_or] at hnot
    have hstep : (Action.recover scanner jobId pathsFound).step w = some (w.unleased jobId columns) := by
      simp only [Action.step, hread, Option.bind_some, hcolumns, Option.map_some]
    have hdb := Action.run_commit henabled hstep
    rw [World.unleased, updateJob_commit] at hdb
    have hhit : job.updatable jobId none w.now = true := by simp [JobRow.updatable, JobRow.leasedTo, hid]
    have hmem : job.update columns.values ∈
        (takeJob (JobRow.updatable jobId none w.now) (JobRow.update columns.values) w.db).2.jobs :=
      mem_takeJob hjob hhit
    refine h job hjob (job.update columns.values) (hdb ▸ hmem) rfl (by simpa using hnot.2) ?_
    obtain ⟨status, -, hstatus⟩ := recovery_status hcolumns
    intro hsame
    rw [show (job.update columns.values).status = (columns.values job).status from rfl, JobWrite.values_status,
      hstatus] at hsame
    exact hnot.1 (hstatus.trans (congrArg some hsame))
  | _ => trivial

theorem World.Always.mono {p q : World → Action → Prop} {I : World → Prop} {actions : List Action}
    (h : World.Always p w actions) (hw : I w) (hstep : ∀ w action, I w → p w action → q w action ∧ I (action.run w)) :
    World.Always q w actions := by
  induction actions generalizing w with
  | nil => trivial
  | cons action actions ih =>
    obtain ⟨hq, hI⟩ := hstep w action hw h.1
    exact ⟨hq, ih h.2 hI⟩

/-- **Leased jobs.** In every run of uploads, workers, routes and recovery scans, the status of a job whose lease runs is
changed by its lease owner and by cancel requests only, exactly if no retry, graph retry or recovery scan takes or
overwrites a job whose lease runs. -/
theorem leased_status_kept_iff (w : World) (hids : (w.db.jobs.map JobRow.id).Nodup) (actions : List Action) :
    World.Always World.Respects w actions ↔ World.Always World.Defers w actions := by
  constructor
  · exact fun h => h.mono (I := fun w => (w.db.jobs.map JobRow.id).Nodup) hids
      fun w action hids h => ⟨h.defers, action.run_ids hids⟩
  · exact fun h => h.mono (I := fun w => (w.db.jobs.map JobRow.id).Nodup) hids
      fun w action hids h => ⟨h.respects hids, action.run_ids hids⟩

/-- Two scans read a job that is to be cancelled. One cancels it, the job is retried and runs, and the other one cancels
it again. -/
def cancelledTwice : List Action :=
  [.list "first", .look "first" "job", .list "second", .look "second" "job", .recover "second" "job" true,
    .transact (.retryLease "worker" "job" "project" 60 (some 1) 0)]

def cancellingWorld : World where
  db := { Database.empty with jobs := [{ runningJob "job" "project" none none with
    status := .cancelling, phase := "cancelling", cancelRequested := true, workspace := some "upload" }] }
  now := 0
  workers := []
  owners := []
  listed := []
  seen := []

theorem running_job_cancelled : ¬ ∀ (w : World) (actions : List Action), (w.db.jobs.map JobRow.id).Nodup →
    World.Always World.Respects w actions := by
  intro h
  have hall := h cancellingWorld (cancelledTwice ++ [.recover "first" "job" true]) (by decide)
  obtain ⟨-, -, -, -, -, -, hlast, -⟩ := hall
  have hqueued : ∃ job ∈ (cancellingWorld.run cancelledTwice).db.jobs, job.status = .queued ∧
      job.free (cancellingWorld.run cancelledTwice).now = false ∧
      ∃ job' ∈ (cancellingWorld.run (cancelledTwice ++ [.recover "first" "job" true])).db.jobs,
        job'.id = job.id ∧ job'.status = .cancelled := by
    decide
  obtain ⟨job, hjob, hqueued, hfree, job', hjob', hid, hcancelled⟩ := hqueued
  exact hlast job hjob job' hjob' hid hfree (by rw [hqueued, hcancelled]; decide)

theorem leased_status_kept_first_scan :
    World.Always World.Respects cancellingWorld
      [.list "first", .look "first" "job", .recover "first" "job" true] :=
  (leased_status_kept_iff cancellingWorld (by decide) _).mpr
    ⟨fun _ => trivial, fun _ => trivial, fun _ read columns _ _ job hjob _ => .inr (by
      revert job; decide), trivial⟩

end YiQiao
