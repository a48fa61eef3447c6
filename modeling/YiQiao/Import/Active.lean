import YiQiao.Import.Watch

/-!
# The limit of active jobs

Creating a job, retrying one and retrying its graph check the limit under the lock of the project's imports. Workers
and the recovery scan change statuses without that lock; they make no job active that is not, as long as the scan does
not end a job under the hands of its worker.
-/

namespace YiQiao

open Lib Locks

def Action.stages : Action → List (Stage Resource World)
  | .transact step => step.stages.map fun stage => ⟨stage.lock, fun w => stage.passes w.db⟩
  | _ => []

/-- The program, with transactions that wait for each other's locks. -/
def program : Protocol Action Resource World := ⟨Action.stages, fun action w => action.run w⟩

/-- The operations on jobs of the project are given the limit, and a job is created in an active status. -/
def Action.Limited (projectId : String) (limit : Nat) : Action → Prop
  | .transact (.createJob row maxActive _) =>
      row.status ∈ recoverableJobStatuses ∧ (row.projectId = projectId → maxActive = some limit)
  | .transact (.retryLease _ _ project _ maxActive _) => project = projectId → maxActive = some limit
  | .transact (.graphRetry _ _ project _ maxActive _) => project = projectId → maxActive = limit
  | _ => True

/-- The recovery scan ends no job whose lease runs. -/
def World.Yields (w : World) : Action → Prop
  | .recover scanner jobId pathsFound =>
      ∀ read, w.sawJob scanner jobId = some read → (read.recovery pathsFound).isSome = true →
        ∀ job ∈ w.db.jobs, job.id = jobId → job.status ∈ recoverableJobStatuses → job.free w.now = true
  | _ => True

/-- A worker that has not ended, and whose lease runs, has an active job. -/
structure World.Sound (w : World) : Prop where
  ids : (w.db.jobs.map JobRow.id).Nodup
  leases : ∀ job ∈ w.db.jobs, ∀ owner, job.leaseOwner = some owner → owner ∈ w.owners
  drawn : ∀ worker ∈ w.workers, worker.1 ∈ w.owners
  live : ∀ worker ∈ w.workers, ∀ job ∈ w.db.jobs, job.id = worker.2 → job.leaseOwner = some worker.1 →
    job.free w.now = false → job.status ∈ recoverableJobStatuses

variable {w : World} {action : Action} {projectId : String} {limit : Nat}

theorem leasedTo_some {owner : String} {now : Instant} {job : JobRow} (h : job.leasedTo (some owner) now = true) :
    job.leaseOwner = some owner ∧ job.free now = false := by
  simp only [JobRow.leasedTo, Option.all_some, Bool.and_eq_true, decide_eq_true_eq] at h
  refine ⟨h.1, ?_⟩
  cases hexpires : job.leaseExpiresAt with
  | none => simp [hexpires] at h
  | some expires =>
    have hlater : now < expires := by simpa [hexpires] using h.2
    simp [JobRow.free, h.1, hexpires, hlater]

theorem free_mono {now later : Instant} (h : now ≤ later) {job : JobRow} (hfree : job.free later = false) :
    job.free now = false := by
  simp only [JobRow.free, Bool.or_eq_false_iff] at hfree ⊢
  refine ⟨hfree.1, ?_⟩
  cases hexpires : job.leaseExpiresAt with
  | none => simp [hexpires] at hfree
  | some expires =>
    have hlater : later < expires := by simpa [hexpires] using hfree.2
    simpa using Int.lt_of_le_of_lt h hlater

/-! ## Which rows become active -/

theorem active_getD {columns : JobWrite} {job : JobRow} (h : columns.ends = true) :
    columns.status.getD job.status ∉ recoverableJobStatuses := by
  rw [JobWrite.ends] at h
  cases hstatus : columns.status with
  | none => simp [hstatus] at h
  | some status =>
    rw [active_or_terminal, not_not]
    simpa [hstatus] using h

/-- The step is a retry or a graph retry that takes the job. -/
def Step.Revives (job : JobRow) : Step → Prop
  | .retryLease _ jobId project _ _ _ => job.retryable jobId project = true
  | .graphRetry _ jobId project _ _ _ => job.graphRetryable jobId project = true
  | _ => False

/-- A transaction of its own makes no job active that is not, but for a retry and a graph retry. -/
theorem Step.Turns.active {step : Step} {job job' : JobRow} (hturn : step.Turns job job')
    (hupdate : step.isUpdate = false) (hactive : job'.status ∈ recoverableJobStatuses) :
    job.status ∈ recoverableJobStatuses ∨ step.Revives job := by
  cases hturn with
  | same hcore => exact .inl ((JobRow.agrees hcore).status ▸ hactive)
  | update => cases hupdate
  | retry hhit => exact .inr hhit
  | graphRetry hhit => exact .inr hhit
  | cancel hhit =>
    simp only [JobRow.cancellable, Bool.and_eq_true, decide_eq_true_eq] at hhit
    have hsub : ∀ status ∈ cancellableJobStatuses, status ∈ recoverableJobStatuses := by decide
    exact .inl (hsub _ hhit.2)
  | _ => exact .inl hactive

/-- A worker writes active statuses to active jobs only. -/
theorem World.Sound.write (h : w.Sound) {columns : JobWrite} {owner jobId : String}
    (henabled : (Action.write columns owner jobId).enabled w = true) {job : JobRow} (hjob : job ∈ w.db.jobs)
    (hid : job.id = jobId) (hleased : job.leasedTo (some owner) w.now = true)
    (hactive : (columns.values job).status ∈ recoverableJobStatuses) : job.status ∈ recoverableJobStatuses := by
  rw [JobWrite.values_status] at hactive
  cases hstatus : columns.status with
  | none => simpa [hstatus] using hactive
  | some status =>
    obtain ⟨howner, hfree⟩ := leasedTo_some hleased
    have hworker : (owner, jobId) ∈ w.workers := by simpa [Action.enabled, hstatus] using henabled
    exact h.live _ hworker job hjob hid howner hfree

/-- Only a retry and a graph retry make a job active that is not. -/
theorem World.Sound.active (h : w.Sound) {step : Step} (henabled : action.enabled w = true)
    (hstep : action.step w = some step) {job job' : JobRow} (hjob : job ∈ w.db.jobs) (hturn : step.Turns job job')
    (hactive : job'.status ∈ recoverableJobStatuses) :
    job.status ∈ recoverableJobStatuses ∨ action = .transact step ∧ step.Revives job := by
  rcases Action.step_cases hstep with rfl | ⟨columns, owner, jobId, rfl, rfl⟩ |
    ⟨scanner, jobId, pathsFound, read, columns, rfl, -, hcolumns, rfl⟩ | ⟨scanner, jobId, read, rfl, -, -, rfl⟩
  · have hupdate : step.isUpdate = false := by
      simp only [Action.enabled, Bool.and_eq_true, Bool.not_eq_true'] at henabled
      exact henabled.1.1
    exact (hturn.active hupdate hactive).imp id fun hrevives => ⟨rfl, hrevives⟩
  · cases hturn with
    | same hcore => exact .inl ((JobRow.agrees hcore).status ▸ hactive)
    | update hid hleased => exact .inl (h.write henabled hjob hid hleased hactive)
  · cases hturn with
    | same hcore => exact .inl ((JobRow.agrees hcore).status ▸ hactive)
    | update =>
      obtain ⟨status, hterminal, hstatus⟩ := recovery_status hcolumns
      have hactive : (columns.values job).status ∈ recoverableJobStatuses := hactive
      rw [JobWrite.values_status, hstatus, Option.getD_some, active_or_terminal] at hactive
      exact absurd hterminal hactive
  · cases hturn with
    | same hcore => exact .inl ((JobRow.agrees hcore).status ▸ hactive)
    | update => exact .inl hactive

/-! ## The invariant -/

theorem World.Sound.tick (h : w.Sound) (seconds : Nat) : World.Sound { w with now := w.now + seconds } where
  ids := h.ids
  leases := h.leases
  drawn := h.drawn
  live := fun worker hworker job hjob hid howner hfree =>
    h.live worker hworker job hjob hid howner
      (free_mono (Int.le_add_of_nonneg_right (Int.natCast_nonneg seconds)) hfree)

/-- Fewer workers have less to keep. -/
theorem World.Sound.fewer (h : w.Sound) {workers : List (String × String)} (hsub : ∀ worker ∈ workers, worker ∈ w.workers) :
    World.Sound { w with workers := workers } where
  ids := h.ids
  leases := h.leases
  drawn := fun worker hworker => h.drawn worker (hsub worker hworker)
  live := fun worker hworker => h.live worker (hsub worker hworker)

/-- The worker has nothing to keep, or its job is active. -/
def World.Serves (w : World) (worker : String × String) (job : JobRow) : Prop :=
  job.id = worker.2 → job.leaseOwner = some worker.1 → job.free w.now = false → job.status ∈ recoverableJobStatuses

theorem World.Sound.serves (h : w.Sound) {worker : String × String} (hworker : worker ∈ w.workers) {job : JobRow}
    (hjob : job ∈ w.db.jobs) : w.Serves worker job := h.live worker hworker job hjob

/-- What a worker relies on are the id, the lease and the status. -/
theorem World.Serves.of_eq {worker : String × String} {job job' : JobRow} (h : w.Serves worker job)
    (hid : job'.id = job.id) (howner : job'.leaseOwner = job.leaseOwner)
    (hexpires : job'.leaseExpiresAt = job.leaseExpiresAt) (hstatus : job'.status = job.status) :
    w.Serves worker job' := by
  intro hid' howner' hfree
  rw [hstatus]
  refine h (hid.symm.trans hid') (howner.symm.trans howner') ?_
  rw [← hfree, JobRow.free, JobRow.free, howner, hexpires]

theorem World.Serves.of_active {worker : String × String} {job : JobRow} (h : job.status ∈ recoverableJobStatuses) :
    w.Serves worker job := fun _ _ _ => h

theorem World.Serves.of_unleased {worker : String × String} {job : JobRow} (h : job.leaseOwner = none) :
    w.Serves worker job := by
  intro _ howner
  rw [h] at howner
  cases howner

theorem World.Serves.agrees {worker : String × String} {job job' : JobRow} (h : w.Serves worker job)
    (hcore : job'.core = job.core) : w.Serves worker job' :=
  let a := JobRow.agrees hcore
  h.of_eq a.id a.leaseOwner a.leaseExpiresAt a.status

/-- A new lease owner is nobody's. -/
theorem World.Sound.serves_new (h : w.Sound) {worker : String × String} (hworker : worker ∈ w.workers) {owner : String}
    (hnew : owner ∉ w.owners) {job : JobRow} (howner : job.leaseOwner = some owner) : w.Serves worker job := by
  intro _ howner'
  rw [howner] at howner'
  cases howner'
  exact absurd (h.drawn worker hworker) hnew

theorem World.Sound.serves_transact (h : w.Sound) {step : Step} (henabled : (Action.transact step).enabled w = true)
    {worker : String × String} (hworker : worker ∈ w.workers) {job job' : JobRow} (hjob : job ∈ w.db.jobs)
    (hturn : step.Turns job job') : w.Serves worker job' := by
  have hserves := h.serves hworker hjob
  simp only [Action.enabled, Bool.and_eq_true, Bool.not_eq_true'] at henabled
  obtain ⟨⟨hupdate, htime⟩, hdraws⟩ := henabled
  cases hturn with
  | same hcore => exact hserves.agrees hcore
  | update => cases hupdate
  | @renew jobId seconds fence now _ hid hleased =>
    have hnow : now = w.now := by simpa [Step.time] using htime
    rw [hnow] at hleased
    exact fun hid howner _ => hserves hid howner (leasedTo_some hleased).2
  | @reserve jobId requested limit seconds fence now _ hid hleased =>
    have hnow : now = w.now := by simpa [Step.time] using htime
    rw [hnow] at hleased
    exact fun hid howner _ => hserves hid howner (leasedTo_some hleased).2
  | acquire hhit =>
    simp only [JobRow.acquirable, Bool.and_eq_true, decide_eq_true_eq] at hhit
    exact .of_active (List.mem_append_left _ hhit.1.1.2)
  | retry => exact .of_active (show JobStatus.queued ∈ recoverableJobStatuses by decide)
  | graphRetry => exact .of_active (show JobStatus.syncingGraph ∈ recoverableJobStatuses by decide)
  | @discardLease owner jobId projectId seconds now _ _ =>
    have hnew : owner ∉ w.owners := by simpa [Step.draws] using hdraws
    exact h.serves_new hworker hnew rfl
  | completeDiscard => exact .of_unleased rfl
  | abortDiscard => exact .of_unleased rfl
  | cancel => exact .of_active (show JobStatus.cancelling ∈ recoverableJobStatuses by decide)
  | release => exact .of_unleased rfl
  | reconcile => exact hserves.of_eq rfl rfl rfl rfl

theorem World.Sound.serves_write (h : w.Sound) {columns : JobWrite} {owner jobId : String} {worker : String × String}
    (hworker : worker ∈ w.workers) (hends : columns.ends = true → worker ≠ (owner, jobId)) {job job' : JobRow}
    (hjob : job ∈ w.db.jobs)
    (hturn : (Step.mutate (.updateJob jobId columns.values) (some owner) w.now).Turns job job') :
    w.Serves worker job' := by
  have hserves := h.serves hworker hjob
  cases hturn with
  | same hcore => exact hserves.agrees hcore
  | update hid hleased =>
    have hstatus : (job.update columns.values).status = columns.status.getD job.status := columns.values_status job
    cases hcolumns : columns.status with
    | none =>
      rw [hcolumns] at hstatus
      exact hserves.of_eq rfl rfl (columns.values_leaseExpiresAt job) hstatus
    | some status =>
      rw [hcolumns, Option.getD_some] at hstatus
      by_cases hterminal : status ∈ discardableJobStatuses
      · -- the writer is the only worker that has this lease
        intro hid' howner' _
        have howner := (leasedTo_some hleased).1
        refine absurd ?_ (hends (by simp [JobWrite.ends, hcolumns, hterminal]))
        exact Prod.ext (Option.some.inj (howner'.symm.trans howner)) (hid'.symm.trans hid)
      · exact .of_active (hstatus ▸ (active_or_terminal status).mpr hterminal)

/-- What a transaction leaves a worker that it does not end. -/
theorem World.Sound.serves_commit (h : w.Sound) {step : Step} (henabled : action.enabled w = true)
    (hstep : action.step w = some step) (hyields : w.Yields action) {worker : String × String}
    (hworker : worker ∈ w.workers)
    (hends : ∀ columns owner jobId, action = .write columns owner jobId → columns.ends = true → worker ≠ (owner, jobId))
    {job' : JobRow} (hjob' : job' ∈ (step.commit w.db).jobs) : w.Serves worker job' := by
  rcases Step.commit_row hjob' with ⟨job, hjob, hturn⟩ | ⟨⟨maxActive, maxRetained, rfl⟩, -⟩
  · rcases Action.step_cases hstep with rfl | ⟨columns, owner, jobId, rfl, rfl⟩ |
      ⟨scanner, jobId, pathsFound, read, columns, rfl, hread, hcolumns, rfl⟩ | ⟨scanner, jobId, read, rfl, -, -, rfl⟩
    · exact h.serves_transact henabled hworker hjob hturn
    · exact h.serves_write hworker (hends columns owner jobId rfl) hjob hturn
    · cases hturn with
      | same hcore => exact (h.serves hworker hjob).agrees hcore
      | update hid _ =>
        -- the scan writes to no job that a worker has
        intro hid' howner' hfree
        have hfree : job.free w.now = false := by
          rw [← hfree, JobRow.free, JobRow.free]
          rw [show (job.update columns.values).leaseExpiresAt = job.leaseExpiresAt from columns.values_leaseExpiresAt job]
          rfl
        have hactive := h.serves hworker hjob hid' howner' hfree
        have hyield := hyields read hread (by rw [hcolumns]; rfl) job hjob hid hactive
        rw [hyield] at hfree
        cases hfree
    · cases hturn with
      | same hcore => exact (h.serves hworker hjob).agrees hcore
      | update => exact (h.serves hworker hjob).of_eq rfl rfl rfl rfl
  · rcases Action.step_cases hstep with rfl | ⟨columns, owner, jobId, -, hstep⟩ |
      ⟨scanner, jobId, pathsFound, read, columns, -, -, -, hstep⟩ | ⟨scanner, jobId, read, -, -, -, hstep⟩
    · simp only [Action.enabled, Bool.and_eq_true] at henabled
      intro hid howner
      have hnew : worker.1 ∉ w.owners := by simpa [Step.draws, howner] using henabled.2
      exact absurd (h.drawn worker hworker) hnew
    · cases hstep
    · cases hstep
    · cases hstep

/-- A lease is kept, given up, or given to the lease owner that was drawn for it. -/
theorem Step.Turns.owner {step : Step} {job job' : JobRow} (h : step.Turns job job') :
    job'.leaseOwner = job.leaseOwner ∨ job'.leaseOwner = none ∨ job'.leaseOwner = step.draws := by
  cases h with
  | same hcore => exact .inl (JobRow.agrees hcore).leaseOwner
  | acquire => exact .inr (.inr rfl)
  | retry => exact .inr (.inr rfl)
  | graphRetry => exact .inr (.inr rfl)
  | discardLease => exact .inr (.inr rfl)
  | completeDiscard => exact .inr (.inl rfl)
  | abortDiscard => exact .inr (.inl rfl)
  | release => exact .inr (.inl rfl)
  | _ => exact .inl rfl

theorem World.Sound.leases_commit (h : w.Sound) {step : Step} {job' : JobRow} (hjob' : job' ∈ (step.commit w.db).jobs)
    {owner : String} (howner : job'.leaseOwner = some owner) : owner ∈ step.draws.toList ++ w.owners := by
  rcases Step.commit_row hjob' with ⟨job, hjob, hturn⟩ | ⟨⟨maxActive, maxRetained, rfl⟩, -⟩
  · rcases hturn.owner with hsame | hnone | hdrawn
    · exact List.mem_append_right _ (h.leases job hjob owner (hsame.symm.trans howner))
    · rw [hnone] at howner
      cases howner
    · rw [← hdrawn, howner]
      exact List.mem_append_left _ List.mem_cons_self
  · rw [show (Step.createJob job' maxActive maxRetained).draws = job'.leaseOwner from rfl, howner]
    exact List.mem_append_left _ List.mem_cons_self

theorem Step.starts_draws {step : Step} {worker : String × String} (h : step.starts = some worker) :
    step.draws = some worker.1 := by
  cases step with
  | acquireLease owner jobId seconds now =>
    cases h
    rfl
  | retryLease owner jobId projectId seconds maxActive now =>
    cases h
    rfl
  | graphRetry owner jobId projectId seconds maxActive now =>
    cases h
    rfl
  | createJob row maxActive maxRetained =>
    obtain ⟨owner, howner, rfl⟩ := Option.map_eq_some_iff.mp h
    exact howner
  | _ => cases h

/-- Only a transaction of its own draws a lease owner. -/
theorem Action.step_draws {step : Step} (h : action.step w = some step) (haction : action ≠ .transact step) :
    step.draws = none := by
  rcases Action.step_cases h with rfl | ⟨columns, owner, jobId, -, rfl⟩ |
    ⟨scanner, jobId, pathsFound, read, columns, -, -, -, rfl⟩ | ⟨scanner, jobId, read, -, -, -, rfl⟩
  · exact absurd rfl haction
  · rfl
  · rfl
  · rfl

/-- A worker starts on an active job. -/
theorem World.Sound.started (h : w.Sound) {step : Step} (henabled : (Action.transact step).enabled w = true)
    (hcreate : ∀ row maxActive maxRetained, step = .createJob row maxActive maxRetained →
      row.status ∈ recoverableJobStatuses) {worker : String × String} (hstarts : step.starts = some worker)
    {job' : JobRow} (hjob' : job' ∈ (step.commit w.db).jobs) : w.Serves worker job' := by
  have hdraws := Step.starts_draws hstarts
  simp only [Action.enabled, Bool.and_eq_true] at henabled
  have hnew : worker.1 ∉ w.owners := by simpa [hdraws] using henabled.2
  rcases Step.commit_row hjob' with ⟨job, hjob, hturn⟩ | ⟨⟨maxActive, maxRetained, rfl⟩, -⟩
  · have hold : job'.leaseOwner = job.leaseOwner → w.Serves worker job' := by
      intro hsame _ howner
      exact absurd (h.leases job hjob _ (hsame.symm.trans howner)) hnew
    cases hturn with
    | same hcore => exact hold (JobRow.agrees hcore).leaseOwner
    | acquire hhit =>
      simp only [JobRow.acquirable, Bool.and_eq_true, decide_eq_true_eq] at hhit
      exact .of_active (List.mem_append_left _ hhit.1.1.2)
    | retry => exact .of_active (show JobStatus.queued ∈ recoverableJobStatuses by decide)
    | graphRetry => exact .of_active (show JobStatus.syncingGraph ∈ recoverableJobStatuses by decide)
    | _ => cases hstarts
  · exact .of_active (hcreate job' maxActive maxRetained rfl)

/-- The transaction of an action keeps the invariant for the workers that it leaves and starts. -/
theorem World.Sound.commit (h : w.Sound) {step : Step} (henabled : action.enabled w = true)
    (hstep : action.step w = some step) (hyields : w.Yields action) {workers : List (String × String)}
    {owners : List String} (howners : ∀ owner, owner ∈ step.draws.toList ++ w.owners → owner ∈ owners)
    (hdrawn : ∀ worker ∈ workers, worker.1 ∈ owners)
    (hworkers : ∀ worker ∈ workers, (worker ∈ w.workers ∧ ∀ columns owner jobId,
        action = .write columns owner jobId → columns.ends = true → worker ≠ (owner, jobId)) ∨
      ∀ job' ∈ (step.commit w.db).jobs, w.Serves worker job') :
    World.Sound { w.write step with workers := workers, owners := owners } where
  ids := step.commit_ids h.ids
  leases := fun _ hjob' owner howner => howners owner (h.leases_commit hjob' howner)
  drawn := hdrawn
  live := by
    intro worker hworker job' hjob'
    rcases hworkers worker hworker with ⟨hold, hends⟩ | hserves
    · exact h.serves_commit henabled hstep hyields hold hends hjob'
    · exact hserves job' hjob'

/-- **The step lemma.** -/
theorem World.Sound.run (h : w.Sound) (hyields : w.Yields action)
    (hcreate : ∀ row maxActive maxRetained, action = .transact (.createJob row maxActive maxRetained) →
      row.status ∈ recoverableJobStatuses) : (action.run w).Sound := by
  rw [Action.run]
  split
  · next henabled =>
    cases action with
    | transact step =>
      refine h.commit henabled rfl hyields (fun _ => id) (fun worker hworker => ?_) fun worker hworker => ?_
      · rcases List.mem_append.mp hworker with hnew | hold
        · have hdraws := Step.starts_draws (Option.mem_toList.mp (List.mem_filter.mp hnew).1)
          exact List.mem_append_left _ (Option.mem_toList.mpr hdraws)
        · exact List.mem_append_right _ (h.drawn worker hold)
      · rcases List.mem_append.mp hworker with hnew | hold
        · refine .inr fun job' hjob' => h.started henabled (fun row a b hstep => hcreate row a b (congrArg _ hstep)) ?_ hjob'
          exact Option.mem_toList.mp (List.mem_filter.mp hnew).1
        · exact .inl ⟨hold, fun _ _ _ h => by cases h⟩
    | write columns owner jobId =>
      simp only [Action.note]
      split
      · next hends =>
        refine h.commit henabled rfl hyields (fun _ => id) (fun worker hworker => ?_) fun worker hworker => ?_
        · exact h.drawn worker (List.mem_filter.mp hworker).1
        · obtain ⟨hold, hne⟩ := List.mem_filter.mp hworker
          refine .inl ⟨hold, fun columns' owner' jobId' haction _ => ?_⟩
          cases haction
          simpa using hne
      · next hends =>
        refine h.commit henabled rfl hyields (fun _ => id) h.drawn fun worker hworker => ?_
        refine .inl ⟨hworker, fun columns' owner' jobId' haction hends' => ?_⟩
        cases haction
        exact absurd hends' hends
    | list scanner => exact ⟨h.ids, h.leases, h.drawn, h.live⟩
    | look scanner jobId => exact ⟨h.ids, h.leases, h.drawn, h.live⟩
    | recover scanner jobId pathsFound =>
      cases hstep : (Action.recover scanner jobId pathsFound).step w with
      | none => exact h
      | some step =>
        have hdraws := Action.step_draws hstep (by simp)
        exact h.commit henabled hstep hyields (by simp [hdraws]) h.drawn
          fun worker hworker => .inl ⟨hworker, fun _ _ _ h => by cases h⟩
    | tidy scanner jobId =>
      cases hstep : (Action.tidy scanner jobId).step w with
      | none => exact h
      | some step =>
        have hdraws := Action.step_draws hstep (by simp)
        exact h.commit henabled hstep hyields (by simp [hdraws]) h.drawn
          fun worker hworker => .inl ⟨hworker, fun _ _ _ h => by cases h⟩
    | crash owner => exact h.fewer fun worker hworker => (List.mem_filter.mp hworker).1
    | tick seconds => exact h.tick seconds
  · exact h

/-! ## The count -/

/-- The project in which an action may make a job active. -/
def Action.raises : Action → Option String
  | .transact (.createJob row _ _) => some row.projectId
  | .transact (.retryLease _ _ projectId _ _ _) | .transact (.graphRetry _ _ projectId _ _ _) => some projectId
  | _ => none

theorem Step.Turns.project {step : Step} {job job' : JobRow} (h : step.Turns job job') (hupdate : step.isUpdate = false) :
    job'.projectId = job.projectId := by
  cases h with
  | same hcore => exact (JobRow.agrees hcore).projectId
  | update => cases hupdate
  | _ => rfl

theorem Action.turn_project {step : Step} (henabled : action.enabled w = true) (hstep : action.step w = some step)
    {job job' : JobRow} (hturn : step.Turns job job') : job'.projectId = job.projectId := by
  have hwrite : ∀ (columns : JobWrite) (jobId : String) (fence : Option String),
      (Step.mutate (.updateJob jobId columns.values) fence w.now).Turns job job' → job'.projectId = job.projectId := by
    intro columns jobId fence hturn
    cases hturn with
    | same hcore => exact (JobRow.agrees hcore).projectId
    | update => exact columns.values_projectId job
  rcases Action.step_cases hstep with rfl | ⟨columns, owner, jobId, -, rfl⟩ |
    ⟨scanner, jobId, pathsFound, read, columns, -, -, -, rfl⟩ | ⟨scanner, jobId, read, -, -, -, rfl⟩
  · refine hturn.project ?_
    simp only [Action.enabled, Bool.and_eq_true, Bool.not_eq_true'] at henabled
    exact henabled.1.1
  · exact hwrite columns jobId _ hturn
  · exact hwrite columns jobId _ hturn
  · exact hwrite .workspaceDeleted jobId _ hturn

theorem revives_raises {step : Step} {job : JobRow} (h : step.Revives job) :
    (Action.transact step).raises = some job.projectId := by
  cases step with
  | retryLease owner jobId project seconds maxActive now =>
    have h : job.retryable jobId project = true := h
    simp only [JobRow.retryable, JobRow.isOf, Bool.and_eq_true, decide_eq_true_eq] at h
    exact congrArg some h.1.1.2.symm
  | graphRetry owner jobId project seconds maxActive now =>
    have h : job.graphRetryable jobId project = true := h
    simp only [JobRow.graphRetryable, JobRow.isOf, Bool.and_eq_true, decide_eq_true_eq] at h
    exact congrArg some h.1.1.1.2.symm
  | _ => exact h.elim

/-- Nothing else makes a job of the project active. -/
theorem World.Sound.activeJobs_le (h : w.Sound) (hraises : action.raises ≠ some projectId) :
    (action.run w).db.activeJobs projectId ≤ w.db.activeJobs projectId := by
  rcases action.run_db w with hdb | ⟨henabled, step, hstep, hdb⟩
  · exact Nat.le_of_eq (congrArg (Database.activeJobs · projectId) hdb)
  · rw [hdb]
    by_cases hrows : step.keepsRows
    · refine countP_le_of_forall₂ (Step.commit_turns hrows) fun job hjob job' hturn hcounted => ?_
      simp only [Bool.and_eq_true, decide_eq_true_eq] at hcounted ⊢
      have hproject := Action.turn_project henabled hstep hturn
      rcases h.active henabled hstep hjob hturn hcounted.2 with hactive | ⟨rfl, hrevives⟩
      · exact ⟨hproject.symm.trans hcounted.1, hactive⟩
      · refine absurd ?_ hraises
        rw [revives_raises hrevives, ← hproject, hcounted.1]
    · cases step with
      | createJob row maxActive maxRetained =>
        rcases Action.step_cases hstep with rfl | ⟨columns, owner, jobId, -, hstep⟩ |
          ⟨scanner, jobId, pathsFound, read, columns, -, -, -, hstep⟩ | ⟨scanner, jobId, read, -, -, -, hstep⟩
        · have hproject : row.projectId ≠ projectId := fun hproject => hraises (congrArg some hproject)
          rcases createJob_commit row maxActive maxRetained w.db with ⟨hjobs, -⟩ | ⟨hjobs, -⟩
          · exact Nat.le_of_eq (congrArg (List.countP _) hjobs)
          · rw [Database.activeJobs, Database.activeJobs, hjobs, List.countP_append]
            simp [hproject]
        · cases hstep
        · cases hstep
        · cases hstep
      | deleteUploading owner jobId now => exact List.filter_sublist.countP_le
      | _ => exact absurd trivial hrows

/-- An action makes one job active at most. -/
theorem World.Sound.activeJobs_succ (h : w.Sound) (hraises : action.raises = some projectId) :
    (action.run w).db.activeJobs projectId ≤ w.db.activeJobs projectId + 1 := by
  rcases action.run_db w with hdb | ⟨-, step, hstep, hdb⟩
  · rw [hdb]
    exact Nat.le_succ _
  · rw [hdb]
    cases action with
    | transact own =>
      cases hstep
      cases step with
      | createJob row maxActive maxRetained =>
        rcases createJob_commit row maxActive maxRetained w.db with ⟨hjobs, -⟩ | ⟨hjobs, -⟩
        · rw [Database.activeJobs, Database.activeJobs, hjobs]
          exact Nat.le_succ _
        · rw [Database.activeJobs, Database.activeJobs, hjobs, List.countP_append]
          exact Nat.add_le_add_left (List.countP_le_length ..) _
      | retryLease owner jobId project seconds maxActive now =>
        exact countP_updateRows_le _ h.ids fun _ => retryable_id
      | graphRetry owner jobId project seconds maxActive now =>
        exact countP_updateRows_le _ h.ids fun _ => graphRetryable_id
      | _ => cases hraises
    | _ => cases hraises

/-! ## The limit -/

/-- From the check on, an operation that makes a job active knows that there is room for it. -/
def Action.Room (projectId : String) (limit : Nat) (action : Action) (resource : Resource) (w : World) : Prop :=
  action.raises = some projectId → resource = .activeImports projectId → w.db.activeJobs projectId < limit

theorem activeStage_passes {projectId : String} {eligible : Database → Bool} {limit : Nat} {db : Database}
    (h : (activeStage projectId eligible limit).passes db = true) : db.activeJobs projectId < limit := by
  simp only [activeStage, Bool.and_eq_true, decide_eq_true_eq] at h
  exact h.2

/-- The operations on jobs of the project take the lock of its imports, and check the limit under it. -/
theorem Action.Limited.stage (hok : action.Limited projectId limit) (hraises : action.raises = some projectId) :
    ∃ eligible, (⟨.activeImports projectId, fun w => (activeStage projectId eligible limit).passes w.db⟩ :
      Stage Resource World) ∈ action.stages ∧ ∀ stage ∈ action.stages, stage.lock = .activeImports projectId →
        stage = ⟨.activeImports projectId, fun w => (activeStage projectId eligible limit).passes w.db⟩ := by
  cases action with
  | transact step =>
    cases step with
    | createJob row maxActive maxRetained =>
      cases hraises
      rw [show maxActive = some limit from hok.2 rfl]
      refine ⟨fun _ => true, List.mem_cons_self, fun stage hstage hlock => ?_⟩
      rcases List.mem_cons.mp hstage with rfl | hstage
      · rfl
      · obtain ⟨inner, hinner, rfl⟩ := List.mem_map.mp hstage
        obtain ⟨_, _, rfl⟩ := Option.map_eq_some_iff.mp (Option.mem_toList.mp hinner)
        cases hlock
    | retryLease owner jobId project seconds maxActive now =>
      cases hraises
      rw [show maxActive = some limit from hok rfl]
      refine ⟨_, List.mem_cons_of_mem _ List.mem_cons_self, fun stage hstage hlock => ?_⟩
      rcases List.mem_cons.mp hstage with rfl | hstage
      · cases hlock
      · exact List.mem_singleton.mp hstage
    | graphRetry owner jobId project seconds maxActive now =>
      cases hraises
      rw [show maxActive = limit from hok rfl]
      refine ⟨_, List.mem_cons_of_mem _ List.mem_cons_self, fun stage hstage hlock => ?_⟩
      rcases List.mem_cons.mp hstage with rfl | hstage
      · cases hlock
      · exact List.mem_singleton.mp hstage
    | _ => cases hraises
  | _ => cases hraises

theorem Action.Limited.create (hok : action.Limited projectId limit) : ∀ row maxActive maxRetained,
    action = .transact (.createJob row maxActive maxRetained) → row.status ∈ recoverableJobStatuses := by
  rintro row maxActive maxRetained rfl
  exact hok.1

theorem active_rely (projectId : String) (limit : Nat) :
    Rely program (Action.Limited projectId limit) World.Yields
      (fun _ w => w.Sound ∧ w.db.activeJobs projectId ≤ limit) (Action.Room projectId limit) where
  reads := by
    intro action stage w hok hstage hpasses hraises hlock
    obtain ⟨eligible, -, hunique⟩ := hok.stage hraises
    rw [hunique stage hstage hlock] at hpasses
    exact activeStage_passes hpasses
  keeps := by
    rintro action resource other log w hok ⟨hsound, -⟩ - hlocks hroom hraises rfl
    refine Nat.lt_of_le_of_lt (hsound.activeJobs_le fun hother => ?_) (hroom hraises rfl)
    obtain ⟨eligible, hmem, -⟩ := hok.stage hother
    exact hlocks _ hmem rfl
  commits := by
    rintro action log w hok ⟨hsound, hlimit⟩ hyields hroom
    refine ⟨hsound.run hyields hok.create, ?_⟩
    by_cases hraises : action.raises = some projectId
    · obtain ⟨eligible, hmem, -⟩ := hok.stage hraises
      exact Nat.le_trans (hsound.activeJobs_succ hraises) (hroom _ hmem hraises rfl)
    · exact Nat.le_trans (hsound.activeJobs_le hraises) hlimit

/-- No job yet. -/
def World.start (db : Database) (now : Instant) : World := ⟨{ db with jobs := [] }, now, [], [], [], []⟩

/-- **The limit of active jobs.** However the operations on the jobs of a project, the uploads, the workers and the
recovery scans are interleaved: as long as the scan ends no job whose lease runs, the jobs of the project in an active
status stay within the limit; and only a commit changes anything, so that an operation that is refused for the limit
leaves all rows. -/
theorem active_jobs_within_limit (db : Database) (now : Instant) (projectId : String) (limit : Nat)
    (events : List (Event String Action)) (h : Begins (Action.Limited projectId limit) events) :
    let m := program.run (.fresh (World.start db now)) events
    (program.Admits World.Yields (World.start db now) m.log → m.state.db.activeJobs projectId ≤ limit) ∧
    ∀ event, let m' := program.next m event
      m'.log = m.log → m'.state = m.state := by
  intro m
  constructor
  · intro hadmits
    have hstart : (World.start db now).Sound :=
      ⟨List.nodup_nil, fun _ hjob => (nomatch hjob), fun _ hworker => (nomatch hworker),
        fun _ hworker => (nomatch hworker)⟩
    exact ((active_rely projectId limit).run h ⟨hstart, Nat.zero_le _⟩ hadmits).2
  · intro event m' hlog
    rcases next_cases (P := program) m event with ⟨hstate, -⟩ | ⟨who, step, passed, -, -, -, hlog'⟩
    · exact hstate
    · rw [show m'.log = m.log ++ [step] from hlog'] at hlog
      simp at hlog

/-- An action that nothing interrupts. -/
def atOnce (action : Action) : List (Event String Action) :=
  .begin "client" action :: (action.stages.map fun _ => .enter "client") ++ [.commit "client"]

/-- An upload of one job, with a limit of one. -/
def uploadOf (jobId owner : String) : Action :=
  .transact (.createJob { runningJob jobId "project" (some owner) (some 60) with
    status := .uploading, phase := "uploading", workspace := some jobId } (some 1) none)

/-- A job is cancelled by one scan and retried, and another scan, which has read it before, cancels it under the hands
of its worker; there is room for a second job then, and the worker goes on. -/
def cancelledUnderWorker : List Action :=
  [uploadOf "job" "upload", .write .queued "upload" "job", .transact (.releaseLease "upload" "job"),
    .transact (.cancel "job" "project"), .list "first", .look "first" "job", .list "second", .look "second" "job",
    .recover "second" "job" true, .transact (.retryLease "worker" "job" "project" 60 (some 1) 0),
    .recover "first" "job" true, uploadOf "other" "upload2", .write .discovering "worker" "job"]

theorem limit_exceeded : ¬ ∀ (db : Database) (now : Instant) (projectId : String) (limit : Nat)
    (events : List (Event String Action)), Begins (Action.Limited projectId limit) events →
      (program.run (.fresh (World.start db now)) events).state.db.activeJobs projectId ≤ limit := by
  intro h
  have hlimit := h .empty 0 "project" 1 (cancelledUnderWorker.flatMap atOnce) ?_
  · exact absurd hlimit (by decide)
  · intro event hevent who action hbegin
    subst hbegin
    obtain ⟨own, hown, hevent⟩ := List.mem_flatMap.mp hevent
    have haction : who = "client" ∧ action = own := by simpa [atOnce] using hevent
    obtain ⟨-, rfl⟩ := haction
    simp only [cancelledUnderWorker, List.mem_cons, List.not_mem_nil, or_false] at hown
    rcases hown with rfl | rfl | rfl | rfl | rfl | rfl | rfl | rfl | rfl | rfl | rfl | rfl | rfl
    · exact ⟨by decide, fun _ => rfl⟩
    · trivial
    · trivial
    · trivial
    · trivial
    · trivial
    · trivial
    · trivial
    · trivial
    · exact fun _ => rfl
    · trivial
    · exact ⟨by decide, fun _ => rfl⟩
    · trivial

theorem active_jobs_within_limit_upload :
    (program.run (.fresh (World.start .empty 0)) (atOnce (uploadOf "job" "upload") ++
      atOnce (uploadOf "other" "upload2"))).state.db.activeJobs "project" ≤ 1 := by
  refine (active_jobs_within_limit .empty 0 "project" 1 _ ?_).1 ⟨trivial, trivial⟩
  intro event hevent who action hbegin
  subst hbegin
  have haction : who = "client" ∧ action = uploadOf "job" "upload" ∨
      who = "client" ∧ action = uploadOf "other" "upload2" := by simpa [atOnce] using hevent
  rcases haction with ⟨-, rfl⟩ | ⟨-, rfl⟩
  · exact ⟨by decide, fun _ => rfl⟩
  · exact ⟨by decide, fun _ => rfl⟩

end YiQiao
