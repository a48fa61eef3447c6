import YiQiao.Import.Turns
import YiQiao.Lib.Locks

/-!
# The transactions of the jobs table

`Step.run` is a transaction in one piece. Here it takes its locks, reads under them, and commits, while others do
the same; when nothing comes in between it is `Step.after`.
-/

namespace YiQiao

open Lib Locks

/-- What `_serialize_resource_transaction` locks. -/
inductive Resource where
  /-- `active-imports:{project_id}` -/
  | activeImports (projectId : String)
  /-- `workspace-budget` -/
  | workspaceBudget
  /-- `import-job-operation:{job_id}` -/
  | jobOperation (jobId : String)
  deriving DecidableEq

def Database.usedBytes (db : Database) : Nat := (db.jobs.map JobRow.workspaceBytes).sum

/-- A lock under which nothing is read. -/
def justLock (resource : Resource) : Stage Resource Database := ⟨resource, fun _ => true⟩

/-- The check of the active jobs. -/
def activeStage (projectId : String) (eligible : Database → Bool) (limit : Nat) : Stage Resource Database :=
  ⟨.activeImports projectId, fun db => eligible db && db.activeJobs projectId < limit⟩

/-- The locks of a transaction, in the order in which it takes them, and what it reads under each. -/
def Step.stages : Step → List (Stage Resource Database)
  | .mutate (.reserveWorkspaceBytes jobId requested limit _) fence now =>
      [⟨.workspaceBudget, fun db => db.allows (some (leaseOwnerText fence)) jobId now &&
        db.usedBytes + requested ≤ limit⟩]
  | .retryLease _ jobId projectId _ maxActive _ =>
      justLock (.jobOperation jobId) :: (maxActive.map (activeStage projectId
        fun db => hitRows (JobRow.retryable jobId projectId) db.jobs ≠ 0)).toList
  | .graphRetry _ jobId projectId _ maxActive _ =>
      [justLock (.jobOperation jobId), activeStage projectId
        (fun db => hitRows (JobRow.graphRetryable jobId projectId) db.jobs ≠ 0) maxActive]
  | .discardLease _ jobId _ _ _ | .completeDiscard _ jobId | .abortDiscard _ jobId => [justLock (.jobOperation jobId)]
  | .createJob row maxActive maxRetained =>
      (maxActive.map (activeStage row.projectId fun _ => true)).toList ++
        (maxRetained.map fun limit =>
          (⟨.workspaceBudget, fun db => db.usedBytes < limit⟩ : Stage Resource Database)).toList
  | .deleteUploading .. | .reconcileBytes .. => [justLock .workspaceBudget]
  | _ => []

/-- A job that `reserve_workspace_bytes` reserves for. -/
def JobRow.reserves (jobId : String) (fence : Option String) (now : Instant) (job : JobRow) : Bool :=
  job.id = jobId && job.leasedTo (some (leaseOwnerText fence)) now

/-- The statements that write, and the commit. -/
def Step.commit (step : Step) (db : Database) : Database :=
  match step with
  | .mutate (.reserveWorkspaceBytes jobId requested _ seconds) fence now =>
      (takeJob (JobRow.reserves jobId fence now) (fun job => { job with
        workspaceBytes := job.workspaceBytes + requested, leaseExpiresAt := some (now + seconds) }) db).2
  | .retryLease owner jobId projectId seconds _ now =>
      (takeJob (JobRow.retryable jobId projectId) (JobRow.retried owner (now + seconds)) db).2
  | .graphRetry owner jobId projectId seconds _ now =>
      (takeJob (JobRow.graphRetryable jobId projectId) (JobRow.graphRetried owner (now + seconds)) db).2
  | .createJob row _ _ => if db.jobs.any (·.id = row.id) then db else { db with jobs := db.jobs ++ [row] }
  | step => step.after db

def transactions : Protocol Step Resource Database := ⟨Step.stages, Step.commit⟩

variable {db : Database}

theorem takeJob_of_none {hit : JobRow → Bool} {change : JobRow → JobRow} (h : hitRows hit db.jobs = 0) :
    takeJob hit change db = (false, db) := by
  rw [takeJob, updateRows_of_none (hitRows_eq_zero.mp h), h]
  rfl

theorem allows_some_iff {owner jobId : String} {now : Instant} :
    db.allows (some owner) jobId now = true ↔
      hitRows (fun job : JobRow => job.id = jobId && job.leasedTo (some owner) now) db.jobs ≠ 0 := by
  rw [hitRows, ne_eq, List.countP_eq_zero]
  simp [Database.allows]

theorem usedBytes_eq (db : Database) : (db.jobs.map JobRow.workspaceBytes).sum = db.usedBytes := rfl

theorem reserve_alone (jobId : String) (requested limit : Nat) (seconds : Int) (fence : Option String) (now : Instant) :
    transactions.alone (.mutate (.reserveWorkspaceBytes jobId requested limit seconds) fence now) db =
      (Step.mutate (.reserveWorkspaceBytes jobId requested limit seconds) fence now).after db := by
  simp only [transactions, Protocol.alone, Step.stages, List.all_cons, List.all_nil, Bool.and_true, Step.after,
    Step.run, Mutation.run, YiQiao.reserveWorkspaceBytes, assertActiveLease, usedBytes_eq]
  cases hallows : db.allows (some (leaseOwnerText fence)) jobId now with
  | false => rfl
  | true =>
    by_cases hlimit : limit < db.usedBytes + requested
    · rw [if_neg (by simpa using hlimit)]
      simp [bind, Except.bind, Except.map, hlimit]
    · rw [if_pos (by simpa using hlimit)]
      simp only [if_true, bind, Except.bind, if_neg hlimit, changeJob,
        if_neg (fun h : _ ∧ _ => allows_some_iff.mp hallows h.2)]
      rfl

/-- Both checks of a job that is to become active again. -/
theorem activeChecks {eligible active limit : Nat} {taken : Bool × Database} :
    (if (decide (eligible ≠ 0) && decide (active < limit)) = true then taken.2 else db) =
      match (if eligible = 0 then .ok (false, db) else if limit ≤ active then .error .activeJobLimit else .ok taken :
        Except RepositoryError (Bool × Database)) with
      | .ok r => r.2
      | .error _ => db := by
  by_cases heligible : eligible = 0
  · rw [if_pos heligible, if_neg (by simp [heligible])]
  · rw [if_neg heligible]
    by_cases hlimit : limit ≤ active
    · rw [if_pos hlimit, if_neg (by simp [hlimit])]
    · rw [if_neg hlimit, if_pos (by simp [heligible, Nat.lt_of_not_le hlimit])]

theorem retry_alone (owner jobId projectId : String) (seconds : Int) (maxActive : Option Nat) (now : Instant) :
    transactions.alone (.retryLease owner jobId projectId seconds maxActive now) db =
      (Step.retryLease owner jobId projectId seconds maxActive now).after db := by
  cases maxActive with
  | none => rfl
  | some limit =>
    simp only [transactions, Protocol.alone, Step.stages, justLock, activeStage, Option.map_some, Option.toList,
      List.all_cons, List.all_nil, Bool.true_and, Bool.and_true, Step.after, Step.run, acquireJobRetryLease,
      Option.isSome_some, true_and, Option.any_some]
    refine activeChecks.trans ?_
    simp only [decide_eq_true_eq]
    rfl

theorem graphRetry_alone (owner jobId projectId : String) (seconds : Int) (maxActive : Nat) (now : Instant) :
    transactions.alone (.graphRetry owner jobId projectId seconds maxActive now) db =
      (Step.graphRetry owner jobId projectId seconds maxActive now).after db := by
  simp only [transactions, Protocol.alone, Step.stages, justLock, activeStage, List.all_cons, List.all_nil,
    Bool.true_and, Bool.and_true, Step.after, Step.run, activateGraphRetry]
  exact activeChecks

theorem create_alone (row : JobRow) (maxActive maxRetained : Option Nat) :
    transactions.alone (.createJob row maxActive maxRetained) db =
      (Step.createJob row maxActive maxRetained).after db := by
  have hactive : ((maxActive.map (activeStage row.projectId fun _ => true)).toList.all fun stage => stage.passes db) =
      !maxActive.any (· ≤ db.activeJobs row.projectId) := by
    cases maxActive with
    | none => rfl
    | some limit => simp [activeStage, ← decide_not]
  have hretained : ((maxRetained.map fun limit =>
      (⟨.workspaceBudget, fun db => db.usedBytes < limit⟩ : Stage Resource Database)).toList.all
        fun stage => stage.passes db) = !maxRetained.any (· ≤ db.usedBytes) := by
    cases maxRetained with
    | none => rfl
    | some limit => simp [← decide_not]
  have hrun : (Step.createJob row maxActive maxRetained).run db = Except.map (fun r => (true, r))
      (if maxActive.any (· ≤ db.activeJobs row.projectId) then .error .activeJobLimit
      else if maxRetained.any (· ≤ db.usedBytes) then .error .budgetExceeded
      else if db.jobs.any (·.id = row.id) then .error .conflict
      else .ok { db with jobs := db.jobs ++ [row] }) := rfl
  simp only [transactions, Protocol.alone, Step.stages, List.all_append, hactive, hretained, Step.after, hrun]
  cases maxActive.any (· ≤ db.activeJobs row.projectId) with
  | true => rfl
  | false =>
    cases maxRetained.any (· ≤ db.usedBytes) with
    | true => rfl
    | false =>
      simp only [Step.commit, Bool.not_false, Bool.and_true, if_true, Bool.false_eq_true, if_false]
      split
      · rfl
      · rfl

/-- A transaction that nothing interrupts is the step in one piece. -/
theorem Step.alone_eq (step : Step) (db : Database) : transactions.alone step db = step.after db := by
  cases step with
  | mutate m fence now =>
    cases m with
    | reserveWorkspaceBytes jobId requested limit seconds => exact reserve_alone jobId requested limit seconds fence now
    | _ => rfl
  | retryLease owner jobId projectId seconds maxActive now => exact retry_alone owner jobId projectId seconds maxActive now
  | graphRetry owner jobId projectId seconds maxActive now =>
    exact graphRetry_alone owner jobId projectId seconds maxActive now
  | createJob row maxActive maxRetained => exact create_alone row maxActive maxRetained
  | _ => rfl

theorem commit_eq_after {step : Step} (h : step.stages.all (fun stage => stage.passes db) = true) :
    step.commit db = step.after db := by
  rw [← Step.alone_eq, Protocol.alone]
  exact (if_pos h).symm

/-- What a commit makes of the rows is what the step makes of them. -/
theorem Step.commit_turns {step : Step} (hrows : step.keepsRows) :
    List.Forall₂ step.Turns db.jobs (step.commit db).jobs := by
  have hafter : List.Forall₂ step.Turns db.jobs (step.after db).jobs := by
    rw [Step.after]
    cases hrun : step.run db with
    | error e => exact (SameCores.refl _).turns
    | ok r => exact step.turns hrun hrows
  cases step with
  | mutate m fence now =>
    cases m with
    | reserveWorkspaceBytes jobId requested limit seconds =>
      refine takeJob_turns fun job hhit => ?_
      rw [JobRow.reserves, Bool.and_eq_true, decide_eq_true_eq] at hhit
      exact .reserve hhit.1 hhit.2
    | _ => exact hafter
  | retryLease owner jobId projectId seconds maxActive now => exact takeJob_turns fun _ hhit => .retry hhit
  | graphRetry owner jobId projectId seconds maxActive now => exact takeJob_turns fun _ hhit => .graphRetry hhit
  | createJob row maxActive maxRetained => exact hrows.elim
  | deleteUploading owner jobId now => exact hrows.elim
  | _ => exact hafter

/-! ## Rows and their ids -/

theorem Step.Turns.id {step : Step} {job job' : JobRow} (h : step.Turns job job') : job'.id = job.id := by
  cases h with
  | same hcore => exact (JobRow.agrees hcore).id
  | _ => rfl

theorem createJob_commit (row : JobRow) (maxActive maxRetained : Option Nat) (db : Database) :
    ((Step.createJob row maxActive maxRetained).commit db).jobs = db.jobs ∧ (∃ job ∈ db.jobs, job.id = row.id) ∨
      ((Step.createJob row maxActive maxRetained).commit db).jobs = db.jobs ++ [row] ∧
        ∀ job ∈ db.jobs, job.id ≠ row.id := by
  simp only [Step.commit]
  cases hany : db.jobs.any (·.id = row.id) with
  | true => exact .inl ⟨rfl, by simpa using hany⟩
  | false => exact .inr ⟨rfl, by simpa using hany⟩

theorem Step.commit_ids (h : (db.jobs.map JobRow.id).Nodup) (step : Step) :
    ((step.commit db).jobs.map JobRow.id).Nodup := by
  by_cases hrows : step.keepsRows
  · exact Fallible.forall₂_map_eq (Step.commit_turns hrows) (fun _ _ hturn => hturn.id.symm) ▸ h
  · cases step with
    | createJob row maxActive maxRetained =>
      rcases createJob_commit row maxActive maxRetained db with ⟨hjobs, -⟩ | ⟨hjobs, hfresh⟩
      · rw [hjobs]
        exact h
      · rw [hjobs, List.map_append, List.nodup_append]
        refine ⟨h, by simp, fun id hid id' hid' => ?_⟩
        obtain ⟨job, hjob, rfl⟩ := List.mem_map.mp hid
        rw [List.mem_singleton.mp hid']
        exact hfresh job hjob
    | deleteUploading owner jobId now => exact h.sublist (List.filter_sublist.map JobRow.id)
    | _ => exact absurd trivial hrows

/-- A row after a commit: one that the step has turned, or the row of a new job. -/
theorem Step.commit_row {step : Step} {job' : JobRow} (hmem : job' ∈ (step.commit db).jobs) :
    (∃ job ∈ db.jobs, step.Turns job job') ∨
      (∃ maxActive maxRetained, step = .createJob job' maxActive maxRetained) ∧ ∀ job ∈ db.jobs, job.id ≠ job'.id := by
  by_cases hrows : step.keepsRows
  · exact .inl (Fallible.exists_left_of_mem (Step.commit_turns hrows) hmem)
  · cases step with
    | createJob row maxActive maxRetained =>
      rcases createJob_commit row maxActive maxRetained db with ⟨hjobs, -⟩ | ⟨hjobs, hfresh⟩
      · rw [hjobs] at hmem
        exact .inl ⟨job', hmem, .refl _ _⟩
      · rw [hjobs] at hmem
        rcases List.mem_append.mp hmem with hmem | hmem
        · exact .inl ⟨job', hmem, .refl _ _⟩
        · rw [List.mem_singleton.mp hmem]
          exact .inr ⟨⟨maxActive, maxRetained, rfl⟩, hfresh⟩
    | deleteUploading owner jobId now => exact .inl ⟨job', (List.mem_filter.mp hmem).1, .refl _ _⟩
    | _ => exact absurd trivial hrows

/-- A row of before, by its id. -/
theorem Step.commit_turn {step : Step} (h : (db.jobs.map JobRow.id).Nodup) {job job' : JobRow} (hjob : job ∈ db.jobs)
    (hjob' : job' ∈ (step.commit db).jobs) (hid : job'.id = job.id) : step.Turns job job' := by
  rcases Step.commit_row hjob' with ⟨old, hold, hturn⟩ | ⟨-, hfresh⟩
  · rwa [← eq_of_key_eq h hold hjob (hturn.id.symm.trans hid)]
  · exact absurd hid.symm (hfresh job hjob)

theorem mem_takeJob {hit : JobRow → Bool} {change : JobRow → JobRow} {job : JobRow} (hjob : job ∈ db.jobs)
    (hhit : hit job = true) : change job ∈ (takeJob hit change db).2.jobs :=
  mem_updateRows.mpr (.inr ⟨job, hjob, hhit, rfl⟩)

/-- A job that `update_job` writes to. -/
def JobRow.updatable (jobId : String) (fence : Option String) (now : Instant) (job : JobRow) : Bool :=
  job.id = jobId && job.leasedTo fence now

theorem updateJob_commit (jobId : String) (values : JobRow → JobRow) (fence : Option String) (now : Instant)
    (db : Database) : (Step.mutate (.updateJob jobId values) fence now).commit db =
      (takeJob (JobRow.updatable jobId fence now) (JobRow.update values) db).2 := by
  have hrun : (Step.mutate (.updateJob jobId values) fence now).commit db =
      match (changeJob fence jobId now (JobRow.update values) db).map fun r => (r.1.isSome, r.2) with
      | .ok r => r.2
      | .error _ => db := rfl
  rw [hrun, changeJob]
  split
  next hsplit =>
    split at hsplit
    · cases hsplit
    · cases hsplit
      rfl
  next hsplit =>
    split at hsplit
    next hnone => exact (congrArg Prod.snd (takeJob_of_none hnone.2)).symm
    · cases hsplit

end YiQiao
