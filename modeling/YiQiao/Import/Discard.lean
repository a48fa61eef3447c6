import YiQiao.Import.Turns

/-!
# Retry, graph retry and discard

Three requests take a terminal job: a retry and a graph retry make it active again, a discard holds it in a phase
of its own under a lease. Only one of them has the job at a time, and a discard ends for its holder only.
-/

namespace YiQiao

open Lib

/-- The requests on one terminal job, and the two ends of a discard. -/
inductive Request where
  | retry (owner : String) (seconds : Int) (maxActive : Option Nat) (now : Instant)
  | graphRetry (owner : String) (seconds : Int) (maxActive : Nat) (now : Instant)
  | discard (owner : String) (seconds : Int) (now : Instant)
  | complete (owner : String)
  | abort (owner : String)

def Request.step (jobId projectId : String) : Request → Step
  | .retry owner seconds maxActive now => .retryLease owner jobId projectId seconds maxActive now
  | .graphRetry owner seconds maxActive now => .graphRetry owner jobId projectId seconds maxActive now
  | .discard owner seconds now => .discardLease owner jobId projectId seconds now
  | .complete owner => .completeDiscard owner jobId
  | .abort owner => .abortDiscard owner jobId

/-- The request asks for the job. -/
def Request.Asks : Request → Prop
  | .retry .. | .graphRetry .. | .discard .. => True
  | .complete _ | .abort _ => False

/-- The request asks for the job and gets it. -/
def Request.Takes (jobId projectId : String) (db : Database) (request : Request) : Prop :=
  request.Asks ∧ ∃ db', (request.step jobId projectId).run db = .ok (true, db')

def runRequests (jobId projectId : String) (db : Database) (requests : List Request) : Database :=
  runSteps db (requests.map (Request.step jobId projectId))

/-- No discard is completed or aborted on the way. -/
def Unended (jobId projectId : String) : Database → List Request → Prop
  | _, [] => True
  | db, request :: requests =>
      (¬ request.Asks → (request.step jobId projectId).run db = .error .leaseLost) ∧
        Unended jobId projectId ((request.step jobId projectId).after db) requests

/-- Every row of the job. -/
def Database.JobIs (db : Database) (jobId : String) (p : JobRow → Prop) : Prop :=
  ∀ job ∈ db.jobs, job.id = jobId → p job

variable {jobId projectId owner : String} {db : Database}

theorem takeJob_none {hit : JobRow → Bool} {change : JobRow → JobRow} (h : ∀ job ∈ db.jobs, hit job = false) :
    takeJob hit change db = (false, db) := by
  rw [takeJob, updateRows_of_none h, hitRows_eq_zero.mpr h]
  rfl

theorem takeJob_true {hit : JobRow → Bool} {change : JobRow → JobRow} {db' : Database}
    (h : takeJob hit change db = (true, db')) : ∃ job ∈ db.jobs, hit job = true := by
  by_contra hnone
  have hnone : ∀ job ∈ db.jobs, hit job = false := by
    intro job hjob
    by_contra hhit
    exact hnone ⟨job, hjob, by simpa using hhit⟩
  rw [takeJob_none hnone] at h
  cases h

/-! ## What is refused -/

theorem JobIs.none {hit : JobRow → Bool} (hid : ∀ job, hit job = true → job.id = jobId)
    (h : db.JobIs jobId fun job => hit job = false) : ∀ job ∈ db.jobs, hit job = false := by
  intro job hjob
  by_contra hhit
  have hhit : hit job = true := by simpa using hhit
  rw [h job hjob (hid job hhit)] at hhit
  cases hhit

theorem retry_refused {seconds : Int} {maxActive : Option Nat} {now : Instant}
    (h : db.JobIs jobId fun job => job.retryable jobId projectId = false) :
    acquireJobRetryLease owner jobId projectId seconds maxActive now db = .ok (false, db) := by
  have hnone := JobIs.none (fun _ => retryable_id) h
  have htake := @takeJob_none db _ (JobRow.retried owner (now + seconds)) hnone
  have hhits := hitRows_eq_zero.mpr hnone
  cases maxActive with
  | none => exact congrArg Except.ok htake
  | some limit =>
    rw [acquireJobRetryLease]
    exact if_pos ⟨rfl, hhits⟩

theorem graphRetry_refused {seconds : Int} {maxActive : Nat} {now : Instant}
    (h : db.JobIs jobId fun job => job.graphRetryable jobId projectId = false) :
    activateGraphRetry owner jobId projectId seconds maxActive now db = .ok (false, db) := by
  rw [activateGraphRetry]
  exact if_pos (hitRows_eq_zero.mpr (JobIs.none (fun _ => graphRetryable_id) h))

theorem discard_refused {seconds : Int} {now : Instant}
    (h : db.JobIs jobId fun job => job.discardable jobId projectId now = false) :
    acquireJobWorkspaceDiscardLease owner jobId projectId seconds now db = (false, db) :=
  takeJob_none (JobIs.none (fun _ => discardable_id) h)

/-! ## Who has the job -/

/-- The job is active again. -/
def JobRow.Active (job : JobRow) : Prop := job.status = .queued ∨ job.status = .syncingGraph

/-- The job is held for a discard. -/
def JobRow.Held (job : JobRow) : Prop := job.phase = workspaceDiscardPhase

theorem JobRow.Active.not_retryable {job : JobRow} (h : job.Active) (jobId projectId : String) :
    job.retryable jobId projectId = false := by
  rcases h with h | h
  · simp [retryable, h]
  · simp [retryable, h]

theorem JobRow.Active.not_graphRetryable {job : JobRow} (h : job.Active) (jobId projectId : String) :
    job.graphRetryable jobId projectId = false := by
  rcases h with h | h
  · simp [graphRetryable, h]
  · simp [graphRetryable, h]

theorem JobRow.Active.not_discardable {job : JobRow} (h : job.Active) : job.status ∉ discardableJobStatuses := by
  rcases h with h | h
  · rw [h]
    decide
  · rw [h]
    decide

theorem JobRow.Held.not_retryable {job : JobRow} (h : job.Held) (jobId projectId : String) :
    job.retryable jobId projectId = false := by
  have hphase : job.phase = workspaceDiscardPhase := h
  simp [retryable, hphase]

theorem JobRow.Held.not_graphRetryable {job : JobRow} (h : job.Held) (jobId projectId : String) :
    job.graphRetryable jobId projectId = false := by
  have hphase : job.phase = workspaceDiscardPhase := h
  simp [graphRetryable, hphase]

/-- A property that no step of a request breaks in a row holds after it. -/
theorem JobIs.after {p q : JobRow → Prop} {request : Request} (h : db.JobIs jobId p)
    (hstep : ∀ job job', job'.id = jobId → job.id = jobId → p job → (request.step jobId projectId).Turns job job' →
      q job')
    (hids : ∀ job job', (request.step jobId projectId).Turns job job' → job'.id = job.id)
    (herror : ∀ job, p job → q job) :
    ((request.step jobId projectId).after db).JobIs jobId q := by
  rw [Step.after]
  cases hrun : (request.step jobId projectId).run db with
  | error e => exact fun job hjob hid => herror job (h job hjob hid)
  | ok r =>
    have hrows : (request.step jobId projectId).keepsRows := by cases request <;> trivial
    intro job' hjob' hid'
    obtain ⟨job, hjob, hturn⟩ := Fallible.exists_left_of_mem (Step.turns hrun hrows) hjob'
    have hid := (hids job job' hturn).symm.trans hid'
    exact hstep job job' hid' hid (h job hjob hid) hturn

theorem Request.turns_id {request : Request} {job job' : JobRow}
    (h : (request.step jobId projectId).Turns job job') : job'.id = job.id := by
  cases request with
  | retry owner seconds maxActive now =>
    cases h with
    | same h => exact (JobRow.agrees h).id
    | retry _ => rfl
  | graphRetry owner seconds maxActive now =>
    cases h with
    | same h => exact (JobRow.agrees h).id
    | graphRetry _ => rfl
  | discard owner seconds now =>
    cases h with
    | same h => exact (JobRow.agrees h).id
    | discardLease _ => rfl
  | complete owner =>
    cases h with
    | same h => exact (JobRow.agrees h).id
    | completeDiscard _ => rfl
  | abort owner =>
    cases h with
    | same h => exact (JobRow.agrees h).id
    | abortDiscard _ => rfl

/-- What a request makes of a row that is active again. -/
theorem JobRow.Active.turn {request : Request} {job job' : JobRow} (h : job.Active)
    (hturn : (request.step jobId projectId).Turns job job') : job'.Active := by
  cases request with
  | retry owner seconds maxActive now =>
    cases hturn with
    | same hcore => rwa [Active, (JobRow.agrees hcore).status]
    | retry _ => exact .inl rfl
  | graphRetry owner seconds maxActive now =>
    cases hturn with
    | same hcore => rwa [Active, (JobRow.agrees hcore).status]
    | graphRetry _ => exact .inr rfl
  | discard owner seconds now =>
    cases hturn with
    | same hcore => rwa [Active, (JobRow.agrees hcore).status]
    | discardLease _ => exact h
  | complete owner =>
    cases hturn with
    | same hcore => rwa [Active, (JobRow.agrees hcore).status]
    | completeDiscard _ => exact h
  | abort owner =>
    cases hturn with
    | same hcore => rwa [Active, (JobRow.agrees hcore).status]
    | abortDiscard _ => exact h

/-- A request that ends no discard leaves a row that is held so. -/
theorem JobRow.Held.turn {request : Request} {job job' : JobRow} (hasks : request.Asks) (h : job.Held)
    (hturn : (request.step jobId projectId).Turns job job') : job'.Held := by
  cases request with
  | retry owner seconds maxActive now =>
    cases hturn with
    | same hcore => rwa [Held, (JobRow.agrees hcore).phase]
    | retry hhit =>
      rw [h.not_retryable jobId projectId] at hhit
      cases hhit
  | graphRetry owner seconds maxActive now =>
    cases hturn with
    | same hcore => rwa [Held, (JobRow.agrees hcore).phase]
    | graphRetry hhit =>
      rw [h.not_graphRetryable jobId projectId] at hhit
      cases hhit
  | discard owner seconds now =>
    cases hturn with
    | same hcore => rwa [Held, (JobRow.agrees hcore).phase]
    | discardLease _ => rfl
  | complete owner => exact hasks.elim
  | abort owner => exact hasks.elim

theorem runRequests_active (projectId : String) (requests : List Request) (h : db.JobIs jobId JobRow.Active) :
    (runRequests jobId projectId db requests).JobIs jobId JobRow.Active := by
  induction requests generalizing db with
  | nil => exact h
  | cons request requests ih =>
    exact ih (JobIs.after h (fun _ _ _ _ hactive hturn => hactive.turn hturn) (fun _ _ => Request.turns_id)
      fun _ => id)

theorem runRequests_held (projectId : String) (requests : List Request) (h : db.JobIs jobId JobRow.Held)
    (hun : Unended jobId projectId db requests) :
    (runRequests jobId projectId db requests).JobIs jobId JobRow.Held := by
  induction requests generalizing db with
  | nil => exact h
  | cons request requests ih =>
    refine ih ?_ hun.2
    by_cases hasks : request.Asks
    · exact JobIs.after h (fun _ _ _ _ hheld hturn => hheld.turn hasks hturn) (fun _ _ => Request.turns_id)
        fun _ => id
    · rw [Step.after, hun.1 hasks]
      exact h

/-- What a request leaves that takes the job. -/
def Request.Leaves (request : Request) (job : JobRow) : Prop :=
  match request with
  | .discard .. => job.Held
  | _ => job.Active

/-- What a request finds that takes the job. -/
def Request.Finds (jobId projectId : String) (request : Request) (job : JobRow) : Prop :=
  match request with
  | .retry .. => job.retryable jobId projectId = true
  | .graphRetry .. => job.graphRetryable jobId projectId = true
  | .discard _ _ now => job.discardable jobId projectId now = true
  | _ => False

theorem takeJob_all {hit : JobRow → Bool} {change : JobRow → JobRow} {q : JobRow → Prop} {db' : Database}
    (hu : (db.jobs.map JobRow.id).Nodup) (hhit : ∀ job, hit job = true → job.id = jobId)
    (h : takeJob hit change db = (true, db')) (hq : ∀ job, q (change job)) : (∃ job ∈ db.jobs, hit job = true) ∧ db'.JobIs jobId q := by
  obtain ⟨found, hfound, hfoundHit⟩ := takeJob_true h
  refine ⟨⟨found, hfound, hfoundHit⟩, fun job hjob hid => ?_⟩
  have hjobs : db'.jobs = updateRows hit change db.jobs := congrArg (fun r => r.2.jobs) h.symm
  rw [hjobs] at hjob
  rcases mem_updateRows.mp hjob with ⟨hold, hnot⟩ | ⟨old, -, -, rfl⟩
  · rw [eq_of_key_eq hu hold hfound (hid.trans (hhit found hfoundHit).symm), hfoundHit] at hnot
    cases hnot
  · exact hq old

/-- A request that takes the job found a row that it may take, and leaves it taken. -/
theorem Request.Takes.outcome {request : Request} (hu : (db.jobs.map JobRow.id).Nodup)
    (h : request.Takes jobId projectId db) :
    (∃ job ∈ db.jobs, request.Finds jobId projectId job) ∧
      ((request.step jobId projectId).after db).JobIs jobId request.Leaves := by
  obtain ⟨hasks, db', hrun⟩ := h
  rw [Step.after, hrun]
  cases request with
  | retry owner seconds maxActive now =>
    simp only [step, Step.run, acquireJobRetryLease] at hrun
    split at hrun
    · cases hrun
    · split at hrun
      · cases hrun
      · exact takeJob_all hu (fun _ => retryable_id) (Except.ok.inj hrun) fun _ => .inl rfl
  | graphRetry owner seconds maxActive now =>
    simp only [step, Step.run, activateGraphRetry] at hrun
    split at hrun
    · cases hrun
    · split at hrun
      · cases hrun
      · exact takeJob_all hu (fun _ => graphRetryable_id) (Except.ok.inj hrun) fun _ => .inr rfl
  | discard owner seconds now =>
    exact takeJob_all hu (fun _ => discardable_id) (Except.ok.inj hrun) fun _ => rfl
  | complete owner => exact hasks.elim
  | abort owner => exact hasks.elim

theorem Request.after_ids (hu : (db.jobs.map JobRow.id).Nodup) (request : Request) :
    (((request.step jobId projectId).after db).jobs.map JobRow.id).Nodup := by
  rw [Step.after]
  cases hrun : (request.step jobId projectId).run db with
  | error e => exact hu
  | ok r =>
    have hrows : (request.step jobId projectId).keepsRows := by cases request <;> trivial
    have hids := Fallible.forall₂_map_eq (Step.turns hrun hrows) fun _ _ hturn => (Request.turns_id hturn).symm
    exact hids ▸ hu

theorem runRequests_ids (hu : (db.jobs.map JobRow.id).Nodup) (jobId projectId : String) (requests : List Request) :
    ((runRequests jobId projectId db requests).jobs.map JobRow.id).Nodup := by
  induction requests generalizing db with
  | nil => exact hu
  | cons request requests ih => exact ih (request.after_ids hu)

/-! ## The ends of a discard -/

theorem endDiscard_eq (owner jobId : String) (change : JobRow → JobRow) (db : Database) :
    endDiscard owner jobId change db =
      if db.jobs.any (JobRow.discardedBy owner jobId) then
        .ok (takeJob (JobRow.discardedBy owner jobId)
          (fun job => (change { job with phase := terminalPhase job.status }).unlease) db).2
      else .error .leaseLost := by
  have hhits : hitRows (fun job : JobRow => job.id = jobId && job.status ∈ discardableJobStatuses &&
      job.phase = workspaceDiscardPhase && job.leaseOwner = some owner) db.jobs = 0 ↔
      db.jobs.any (JobRow.discardedBy owner jobId) = false := by
    rw [hitRows_eq_zero, List.any_eq_false]
    simp only [Bool.not_eq_true]
    exact Iff.rfl
  rw [endDiscard]
  cases hany : db.jobs.any (JobRow.discardedBy owner jobId) with
  | true =>
    rw [if_neg (fun h => by simp [hhits.mp h] at hany)]
    rfl
  | false => rw [if_pos (hhits.mpr hany)]; rfl

/-- In every history of requests on a terminal job: a held job is refused to a retry and a graph retry, and while
the lease runs to another discard too; a job that was taken back is refused to all; two requests that take the job
with no end of a discard between them are discards, the second after the lease of the first ran out; and a discard
is ended by its holder only, in one step. -/
theorem requests_exclude_each_other (db : Database) (hu : (db.jobs.map JobRow.id).Nodup)
    (jobId projectId : String) (before : List Request) :
    let held := runRequests jobId projectId db before
    (held.JobIs jobId JobRow.Held → ∀ request : Request, request.Asks →
      (∀ owner seconds now, request = .discard owner seconds now →
        held.JobIs jobId fun job => job.free now = false) →
      (request.step jobId projectId).run held = .ok (false, held)) ∧
    (∀ first : Request, first.Takes jobId projectId held → ∀ (between : List Request) (second : Request),
      second.Takes jobId projectId (runRequests jobId projectId held (first :: between)) →
      Unended jobId projectId ((first.step jobId projectId).after held) between →
      (∃ owner seconds now, first = .discard owner seconds now) ∧ ∃ owner seconds now,
        second = .discard owner seconds now ∧
          ∃ job ∈ (runRequests jobId projectId held (first :: between)).jobs, job.id = jobId ∧ job.free now = true) ∧
    (∀ first : Request, first.Takes jobId projectId held → (∀ owner seconds now, first ≠ .discard owner seconds now) →
      ∀ after, (runRequests jobId projectId held (first :: after)).JobIs jobId fun job =>
        job.status ∉ discardableJobStatuses) ∧
    (∀ owner, (Step.completeDiscard owner jobId).run held =
      if held.jobs.any (JobRow.discardedBy owner jobId) then
        .ok (true, (takeJob (JobRow.discardedBy owner jobId)
          (fun job => { job with
            phase := terminalPhase job.status
            workspace := none
            workspaceBytes := 0
            sourceRetryRequired := false
            leaseOwner := none
            leaseExpiresAt := none }) held).2)
      else .error .leaseLost) ∧
    (∀ owner, (Step.abortDiscard owner jobId).run held =
      if held.jobs.any (JobRow.discardedBy owner jobId) then
        .ok (true, (takeJob (JobRow.discardedBy owner jobId)
          (fun job => { job with
            phase := terminalPhase job.status
            leaseOwner := none
            leaseExpiresAt := none }) held).2)
      else .error .leaseLost) := by
  intro held
  have hids : (held.jobs.map JobRow.id).Nodup := runRequests_ids hu jobId projectId before
  refine ⟨?_, ?_, ?_, ?_, ?_⟩
  · intro hheld request hasks hlease
    cases request with
    | retry owner seconds maxActive now =>
      exact retry_refused fun job hjob hid => (hheld job hjob hid).not_retryable jobId projectId
    | graphRetry owner seconds maxActive now =>
      exact graphRetry_refused fun job hjob hid => (hheld job hjob hid).not_graphRetryable jobId projectId
    | discard owner seconds now =>
      refine congrArg Except.ok (discard_refused fun job hjob hid => ?_)
      have hphase : job.phase = workspaceDiscardPhase := hheld job hjob hid
      simp [JobRow.discardable, hphase, hlease owner seconds now rfl job hjob hid]
    | complete owner => exact hasks.elim
    | abort owner => exact hasks.elim
  · intro first hfirst between second hsecond hun
    obtain ⟨-, hleaves⟩ := hfirst.outcome hids
    have hids' := runRequests_ids hids jobId projectId (first :: between)
    obtain ⟨⟨job, hjob, hfinds⟩, -⟩ := hsecond.outcome hids'
    have hactive : ((first.step jobId projectId).after held).JobIs jobId JobRow.Active → False := by
      intro hactive
      have hall := runRequests_active projectId between hactive
      cases second with
      | retry owner seconds maxActive now =>
        have hrow := (hall job hjob (retryable_id hfinds)).not_retryable jobId projectId
        rw [show job.retryable jobId projectId = true from hfinds] at hrow
        cases hrow
      | graphRetry owner seconds maxActive now =>
        have hrow := (hall job hjob (graphRetryable_id hfinds)).not_graphRetryable jobId projectId
        rw [show job.graphRetryable jobId projectId = true from hfinds] at hrow
        cases hrow
      | discard owner seconds now =>
        have hrow := (hall job hjob (discardable_id hfinds)).not_discardable
        have hfinds : job.discardable jobId projectId now = true := hfinds
        simp only [JobRow.discardable, Bool.and_eq_true, decide_eq_true_eq] at hfinds
        exact hrow hfinds.1.1.2
      | complete owner => exact hfinds
      | abort owner => exact hfinds
    cases first with
    | retry owner seconds maxActive now => exact (hactive hleaves).elim
    | graphRetry owner seconds maxActive now => exact (hactive hleaves).elim
    | complete owner => exact hfirst.1.elim
    | abort owner => exact hfirst.1.elim
    | discard owner seconds now =>
      refine ⟨⟨owner, seconds, now, rfl⟩, ?_⟩
      have hall := runRequests_held projectId between hleaves hun
      cases second with
      | retry owner seconds maxActive now =>
        have hrow := (hall job hjob (retryable_id hfinds)).not_retryable jobId projectId
        rw [show job.retryable jobId projectId = true from hfinds] at hrow
        cases hrow
      | graphRetry owner seconds maxActive now =>
        have hrow := (hall job hjob (graphRetryable_id hfinds)).not_graphRetryable jobId projectId
        rw [show job.graphRetryable jobId projectId = true from hfinds] at hrow
        cases hrow
      | discard owner seconds now =>
        refine ⟨owner, seconds, now, rfl, job, hjob, discardable_id hfinds, ?_⟩
        have hphase : job.phase = workspaceDiscardPhase := hall job hjob (discardable_id hfinds)
        have hfinds : job.discardable jobId projectId now = true := hfinds
        simp only [JobRow.discardable, hphase, Bool.and_eq_true, Bool.or_eq_true] at hfinds
        simpa using hfinds.2
      | complete owner => exact hfinds.elim
      | abort owner => exact hfinds.elim
  · intro first hfirst hnot after
    obtain ⟨-, hleaves⟩ := hfirst.outcome hids
    have hactive : ((first.step jobId projectId).after held).JobIs jobId JobRow.Active := by
      cases first with
      | discard owner seconds now => exact absurd rfl (hnot owner seconds now)
      | retry owner seconds maxActive now => exact hleaves
      | graphRetry owner seconds maxActive now => exact hleaves
      | complete owner => exact hfirst.1.elim
      | abort owner => exact hfirst.1.elim
    exact fun job hjob hid => (runRequests_active projectId after hactive job hjob hid).not_discardable
  · intro owner
    rw [Step.run, completeJobWorkspaceDiscard, endDiscard_eq]
    split
    · rfl
    · rfl
  · intro owner
    rw [Step.run, abortJobWorkspaceDiscard, endDiscard_eq]
    split
    · rfl
    · rfl

/-- A failed job that keeps its upload. -/
def failedJob (phase : String) (owner : Option String) (expires : Option Instant) : JobRow :=
  { runningJob "job" "project" owner expires with status := .failed, phase := phase, workspace := some "upload" }

def failedOnce : Database := { Database.empty with jobs := [failedJob "failed" none none] }

theorem requests_exclude_each_other_failed :
    (Request.step "job" "project" (.retry "second" 60 none 10)).run
      (runRequests "job" "project" failedOnce [.discard "first" 60 0]) =
        .ok (false, runRequests "job" "project" failedOnce [.discard "first" 60 0]) :=
  (requests_exclude_each_other failedOnce (by decide) "job" "project" [.discard "first" 60 0]).1
    (by unfold Database.JobIs JobRow.Held; decide) (.retry "second" 60 none 10) trivial (fun _ _ _ h => nomatch h)

/-- An aborted discard gives its lease up, too. -/
theorem abort_releases_lease : ¬ ∀ (db db' : Database) (owner jobId : String),
    abortJobWorkspaceDiscard owner jobId db = .ok db' →
      db' = (takeJob (JobRow.discardedBy owner jobId)
        (fun job => { job with phase := terminalPhase job.status }) db).2 := by
  intro h
  have habort := h { Database.empty with jobs := [failedJob workspaceDiscardPhase (some "first") (some 60)] }
    { Database.empty with jobs := [failedJob "failed" none none] } "first" "job" rfl
  exact absurd habort (by decide)

end YiQiao
