import YiQiao.Import.Leases

/-!
# Fencing

The repository as a machine: the mutations that a worker makes under its lease, and the statements by which
leases change hands. A mutation whose lease is gone leaves every table as it is, and a worker whose lease was
taken over stays shut out until the job is leased to it again.
-/

namespace YiQiao

open Lib

/-! ## Mutations and steps -/

/-- The transactions that take a lease owner. The calls that go on after a conflict come as two. -/
inductive Mutation where
  | updateJob (jobId : String) (values : JobRow → JobRow)
  | incrementJob (jobId : String) (deltas : JobCounters)
  | renewJobLease (jobId : String) (seconds : Int)
  | reserveWorkspaceBytes (jobId : String) (requested limit : Nat) (seconds : Int)
  | insertChunk (values : ChunkValues)
  | overwriteChunk (values : ChunkValues)
  | updateChunk (jobId importKey : String) (values : ChunkRow → ChunkRow)
  | insertManifest (c : Claim)
  | reclaimManifest (c : Claim)
  | markManifest (projectId importKey jobId : String) (mark : ManifestMark)
  | addError (row : ErrorRow)
  | insertHash (c : HashClaim)
  | reclaimHash (c : HashClaim)
  | releaseMemoryHashes (jobId chunkId : String) (given : Option (List String))
  | markMemoryHashesSucceeded (projectId conversationId jobId chunkId : String) (hashes : List String)
      (idByHash : List (String × String))
  | addGraphItems (jobId chunkId : String) (items : List GraphItem)
  | markGraphItems (jobId : String) (ids : List String) (status : RecordStatus) (error : Option String)
      (incrementAttempts : Bool)

/-- The job whose lease a mutation asks for. -/
def Mutation.jobId : Mutation → String
  | .updateJob jobId _ | .incrementJob jobId _ | .renewJobLease jobId _ | .reserveWorkspaceBytes jobId _ _ _
  | .updateChunk jobId _ _ | .markManifest _ _ jobId _ | .releaseMemoryHashes jobId _ _
  | .markMemoryHashesSucceeded _ _ jobId _ _ _ | .addGraphItems jobId _ _ | .markGraphItems jobId _ _ _ _ => jobId
  | .insertChunk values | .overwriteChunk values => values.jobId
  | .insertManifest c | .reclaimManifest c => c.jobId
  | .addError row => row.jobId
  | .insertHash c | .reclaimHash c => c.jobId

/-- `str(lease_owner)`: the calls that cannot do without a lease owner. -/
def leaseOwnerText (fence : Option String) : String := fence.getD "None"

/-- The answer of a mutation, where it has one to give, and the tables after it. -/
def Mutation.run (fence : Option String) (now : Instant) (db : Database) :
    Mutation → Except RepositoryError (Bool × Database)
  | .updateJob jobId values =>
      (YiQiao.updateJob fence jobId now values db).map fun r => (r.1.isSome, r.2)
  | .incrementJob jobId deltas =>
      (YiQiao.incrementJob fence jobId now deltas db).map fun r => (r.1.isSome, r.2)
  | .renewJobLease jobId seconds => .ok (YiQiao.renewJobLease (leaseOwnerText fence) jobId seconds now db)
  | .reserveWorkspaceBytes jobId requested limit seconds =>
      (YiQiao.reserveWorkspaceBytes (leaseOwnerText fence) jobId requested limit seconds now db).map
        fun r => (true, r.2)
  | .insertChunk values => (YiQiao.insertChunk fence values now db).map fun r => (true, r.2)
  | .overwriteChunk values => (YiQiao.overwriteChunk fence values now db).map fun r => (true, r.2)
  | .updateChunk jobId importKey values =>
      (YiQiao.updateChunk fence jobId importKey now values db).map fun r => (r.1.isSome, r.2)
  | .insertManifest c => (YiQiao.insertManifest fence c now db).map fun r => (true, r.2)
  | .reclaimManifest c => (YiQiao.reclaimManifest fence c now db).map fun r => (r.1.1, r.2)
  | .markManifest projectId importKey jobId mark =>
      (YiQiao.markManifest fence projectId importKey jobId mark now db).map fun r => (r.1.isSome, r.2)
  | .addError row => (YiQiao.addError fence row now db).map fun r => (true, r)
  | .insertHash c => YiQiao.insertHash fence c now db
  | .reclaimHash c => YiQiao.reclaimHash fence c now db
  | .releaseMemoryHashes jobId chunkId given =>
      (YiQiao.releaseMemoryHashes fence jobId chunkId given now db).map fun r => (true, r.2)
  | .markMemoryHashesSucceeded projectId conversationId jobId chunkId hashes idByHash =>
      (YiQiao.markMemoryHashesSucceeded fence projectId conversationId jobId chunkId hashes idByHash now db).map
        fun r => (true, r)
  | .addGraphItems jobId chunkId items =>
      (YiQiao.addGraphItems fence jobId chunkId items now db).map fun r => (true, r)
  | .markGraphItems jobId ids status error incrementAttempts =>
      (YiQiao.markGraphItems fence jobId ids status error incrementAttempts now db).map fun r => (true, r.2)

/-- One transaction on the tables, of any worker, route or scan. -/
inductive Step where
  | mutate (m : Mutation) (fence : Option String) (now : Instant)
  | acquireLease (owner jobId : String) (seconds : Int) (now : Instant)
  | retryLease (owner jobId projectId : String) (seconds : Int) (maxActive : Option Nat) (now : Instant)
  | graphRetry (owner jobId projectId : String) (seconds : Int) (maxActive : Nat) (now : Instant)
  | discardLease (owner jobId projectId : String) (seconds : Int) (now : Instant)
  | completeDiscard (owner jobId : String)
  | abortDiscard (owner jobId : String)
  | cancel (jobId projectId : String)
  | releaseLease (owner jobId : String)
  | createJob (row : JobRow) (maxActive maxRetained : Option Nat)
  | deleteUploading (owner jobId : String) (now : Instant)
  | reconcileBytes (jobId : String) (bytes : Nat) (now : Instant)

def Step.run (db : Database) : Step → Except RepositoryError (Bool × Database)
  | .mutate m fence now => m.run fence now db
  | .acquireLease owner jobId seconds now => .ok (acquireJobLease owner jobId seconds now db)
  | .retryLease owner jobId projectId seconds maxActive now =>
      acquireJobRetryLease owner jobId projectId seconds maxActive now db
  | .graphRetry owner jobId projectId seconds maxActive now =>
      activateGraphRetry owner jobId projectId seconds maxActive now db
  | .discardLease owner jobId projectId seconds now =>
      .ok (acquireJobWorkspaceDiscardLease owner jobId projectId seconds now db)
  | .completeDiscard owner jobId => (completeJobWorkspaceDiscard owner jobId db).map fun r => (true, r)
  | .abortDiscard owner jobId => (abortJobWorkspaceDiscard owner jobId db).map fun r => (true, r)
  | .cancel jobId projectId => .ok (requestJobCancel jobId projectId db)
  | .releaseLease owner jobId => .ok (releaseJobLease owner jobId db)
  | .createJob row maxActive maxRetained => (YiQiao.createJob row maxActive maxRetained db).map fun r => (true, r)
  | .deleteUploading owner jobId now => .ok (deleteUploadingJob owner jobId now db)
  | .reconcileBytes jobId bytes now => .ok (reconcileWorkspaceBytes jobId bytes now db)

/-- A transaction that fails is rolled back. -/
def Step.after (db : Database) (step : Step) : Database :=
  match step.run db with
  | .ok r => r.2
  | .error _ => db

def runSteps (db : Database) (steps : List Step) : Database := steps.foldl Step.after db

@[simp] theorem runSteps_nil (db : Database) : runSteps db [] = db := rfl

@[simp] theorem runSteps_cons (db : Database) (step : Step) (steps : List Step) :
    runSteps db (step :: steps) = runSteps (step.after db) steps := rfl

theorem runSteps_append (db : Database) (xs ys : List Step) :
    runSteps db (xs ++ ys) = runSteps (runSteps db xs) ys := List.foldl_append

/-! ## A mutation without its lease -/

variable {owner jobId : String} {now : Instant} {db : Database}

theorem allows_some : db.allows (some owner) jobId now = true ↔
    ∃ job ∈ db.jobs, job.id = jobId ∧ job.leasedTo (some owner) now = true := by
  simp [Database.allows]

theorem no_leased_row (h : db.allows (some owner) jobId now = false) :
    ∀ job ∈ db.jobs, (job.id = jobId && job.leasedTo (some owner) now) = false := by
  intro job hjob
  cases hhit : (decide (job.id = jobId) && job.leasedTo (some owner) now) with
  | false => rfl
  | true =>
    rw [Bool.and_eq_true, decide_eq_true_eq] at hhit
    rw [allows_some.mpr ⟨job, hjob, hhit⟩] at h
    cases h

theorem assertActiveLease_lost (h : db.allows (some owner) jobId now = false) :
    assertActiveLease (some owner) jobId now db = .error .leaseLost := by
  simp [assertActiveLease, h]

theorem changeJob_lost (h : db.allows (some owner) jobId now = false) (change : JobRow → JobRow) :
    changeJob (some owner) jobId now change db = .error .leaseLost := by
  have hnone := hitRows_eq_zero.mpr (no_leased_row h)
  simp [changeJob, hnone]

theorem insertRow_lost {α : Type} (h : db.allows (some owner) jobId now = false) (rows : List α)
    (conflicts : α → Bool) (row : α) :
    insertRow (some owner) jobId now db rows conflicts row = .error .leaseLost := by
  simp [insertRow, h]

/-- A statement whose condition ends with the lease touches no row without it. -/
theorem and_allows_lost {α : Type} (h : db.allows (some owner) jobId now = false) (hit : α → Bool)
    (rows : List α) : ∀ row ∈ rows, (hit row && db.allows (some owner) jobId now) = false := by
  intro row _
  rw [h, Bool.and_false]

theorem checkTouched_lost {α : Type} (h : db.allows (some owner) jobId now = false) (hit : α → Bool)
    (rows : List α) :
    checkTouched (hitRows (fun row => hit row && db.allows (some owner) jobId now) rows) (some owner) jobId now db
      = .error .leaseLost := by
  rw [checkTouched, hitRows_eq_zero.mpr (and_allows_lost h hit rows), if_pos rfl]
  exact assertActiveLease_lost h

theorem renewJobLease_lost (h : db.allows (some owner) jobId now = false) (seconds : Int) :
    renewJobLease owner jobId seconds now db = (false, db) := by
  have hnone := no_leased_row h
  rw [renewJobLease, takeJob, updateRows_of_none hnone, hitRows_eq_zero.mpr hnone]
  rfl

theorem reserveWorkspaceBytes_lost (h : db.allows (some owner) jobId now = false) (requested limit : Nat)
    (seconds : Int) : reserveWorkspaceBytes owner jobId requested limit seconds now db = .error .leaseLost := by
  rw [reserveWorkspaceBytes, assertActiveLease_lost h]
  rfl

theorem insertChunk_lost {values : ChunkValues} {project : String}
    (h : db.allows (some owner) values.jobId now = false) (hproject : values.project db = .ok project) :
    insertChunk (some owner) values now db = .error .leaseLost := by
  simp only [insertChunk, hproject, insertRow_lost h, bind, Except.bind]

theorem overwriteChunk_lost {values : ChunkValues} {project : String} {existing : ChunkRow}
    (h : db.allows (some owner) values.jobId now = false) (hproject : values.project db = .ok project)
    (hfound : db.chunks.find? (ChunkRow.isAt values.jobId values.importKey) = some existing) :
    overwriteChunk (some owner) values now db = .error .leaseLost := by
  simp only [overwriteChunk, hproject, hfound, checkTouched_lost h, bind, Except.bind]

theorem updateChunk_lost (h : db.allows (some owner) jobId now = false) (importKey : String)
    (values : ChunkRow → ChunkRow) : updateChunk (some owner) jobId importKey now values db = .error .leaseLost := by
  simp only [updateChunk, checkTouched_lost h, bind, Except.bind]

theorem insertManifest_lost {c : Claim} (h : db.allows (some owner) c.jobId now = false) :
    insertManifest (some owner) c now db = .error .leaseLost := by
  simp only [insertManifest, insertRow_lost h, bind, Except.bind]

theorem reclaimManifest_lost {c : Claim} {existing : ManifestRow}
    (h : db.allows (some owner) c.jobId now = false)
    (hfound : db.manifests.find? (ManifestRow.isAt c.projectId c.importKey) = some existing) :
    reclaimManifest (some owner) c now db = .error .leaseLost := by
  have hnone : hitRows (db.reclaims (db.allows (some owner) c.jobId now) existing) db.manifests = 0 :=
    hitRows_eq_zero.mpr fun row _ => by rw [Database.reclaims, h, Bool.and_false]
  simp only [reclaimManifest, hfound, checkTouched, hnone, if_true, assertActiveLease_lost h, bind, Except.bind]

theorem markManifest_lost (h : db.allows (some owner) jobId now = false) (projectId importKey : String)
    (mark : ManifestMark) : markManifest (some owner) projectId importKey jobId mark now db = .error .leaseLost := by
  simp only [markManifest, checkTouched_lost h, bind, Except.bind]

theorem addError_lost {row : ErrorRow} (h : db.allows (some owner) row.jobId now = false) :
    addError (some owner) row now db = .error .leaseLost := by
  simp only [addError, insertRow_lost h, bind, Except.bind]

theorem insertHash_lost {c : HashClaim} (h : db.allows (some owner) c.jobId now = false) :
    insertHash (some owner) c now db = .error .leaseLost := by
  simp only [insertHash, insertRow_lost h, bind, Except.bind]

theorem reclaimHash_lost {c : HashClaim} {existing : HashRow} (h : db.allows (some owner) c.jobId now = false)
    (hfound : db.hashes.find? (HashRow.isAt c.projectId c.conversationId c.memoryHash) = some existing) :
    reclaimHash (some owner) c now db = .error .leaseLost := by
  simp only [reclaimHash, hfound, checkTouched_lost h, bind, Except.bind]

theorem releaseMemoryHashes_lost (h : db.allows (some owner) jobId now = false) (chunkId : String)
    (given : Option (List String)) :
    releaseMemoryHashes (some owner) jobId chunkId given now db = .error .leaseLost := by
  rw [releaseMemoryHashes]
  split
  · rw [assertActiveLease_lost h]
    rfl
  · simp only [checkTouched_lost h, bind, Except.bind]

theorem markMemoryHashesSucceeded_lost (h : db.allows (some owner) jobId now = false)
    (projectId conversationId chunkId : String) (hashes : List String) (idByHash : List (String × String)) :
    markMemoryHashesSucceeded (some owner) projectId conversationId jobId chunkId hashes idByHash now db
      = .error .leaseLost := by
  simp only [markMemoryHashesSucceeded, assertActiveLease_lost h, bind, Except.bind]

theorem addGraphItems_lost (h : db.allows (some owner) jobId now = false) (chunkId : String)
    {items : List GraphItem} (hitems : items ≠ []) :
    addGraphItems (some owner) jobId chunkId items now db = .error .leaseLost := by
  cases items with
  | nil => exact absurd rfl hitems
  | cons item items =>
    rw [addGraphItems, if_neg hitems, insertGraphItems, insertRow_lost h]
    rfl

theorem markGraphItems_lost (h : db.allows (some owner) jobId now = false) {ids : List String} (hids : ids ≠ [])
    (status : RecordStatus) (error : Option String) (incrementAttempts : Bool) :
    markGraphItems (some owner) jobId ids status error incrementAttempts now db = .error .leaseLost := by
  rw [markGraphItems, if_neg hids]
  simp only [checkTouched_lost h, bind, Except.bind]

/-- The calls that come to ask for the lease: a chunk is of a known project, the row that stood in the way of a
second transaction is still there, and there are graph items to write. -/
def Mutation.AsksForLease (db : Database) : Mutation → Prop
  | .insertChunk values => ∃ project, values.project db = .ok project
  | .overwriteChunk values => (∃ project, values.project db = .ok project) ∧
      (db.chunks.find? (ChunkRow.isAt values.jobId values.importKey)).isSome
  | .reclaimManifest c => (db.manifests.find? (ManifestRow.isAt c.projectId c.importKey)).isSome
  | .reclaimHash c => (db.hashes.find? (HashRow.isAt c.projectId c.conversationId c.memoryHash)).isSome
  | .addGraphItems _ _ items => items ≠ []
  | .markGraphItems _ ids _ _ _ => ids ≠ []
  | _ => True

/-- What a mutation answers when its lease is gone. -/
def Mutation.refusal (db : Database) : Mutation → Except RepositoryError (Bool × Database)
  | .renewJobLease .. => .ok (false, db)
  | _ => .error .leaseLost

theorem Mutation.run_lost {m : Mutation} (h : db.allows (some owner) m.jobId now = false)
    (hasks : m.AsksForLease db) : m.run (some owner) now db = m.refusal db := by
  cases m with
  | updateJob jobId values => exact congrArg (Except.map _) (changeJob_lost h _)
  | incrementJob jobId deltas => exact congrArg (Except.map _) (changeJob_lost h _)
  | renewJobLease jobId seconds => exact congrArg Except.ok (renewJobLease_lost h seconds)
  | reserveWorkspaceBytes jobId requested limit seconds =>
    exact congrArg (Except.map _) (reserveWorkspaceBytes_lost h requested limit seconds)
  | insertChunk values =>
    obtain ⟨project, hproject⟩ := hasks
    exact congrArg (Except.map _) (insertChunk_lost h hproject)
  | overwriteChunk values =>
    obtain ⟨⟨project, hproject⟩, hfound⟩ := hasks
    obtain ⟨existing, hfound⟩ := Option.isSome_iff_exists.mp hfound
    exact congrArg (Except.map _) (overwriteChunk_lost h hproject hfound)
  | updateChunk jobId importKey values => exact congrArg (Except.map _) (updateChunk_lost h importKey values)
  | insertManifest c => exact congrArg (Except.map _) (insertManifest_lost h)
  | reclaimManifest c =>
    obtain ⟨existing, hfound⟩ := Option.isSome_iff_exists.mp hasks
    exact congrArg (Except.map _) (reclaimManifest_lost h hfound)
  | markManifest projectId importKey jobId mark =>
    exact congrArg (Except.map _) (markManifest_lost h projectId importKey mark)
  | addError row => exact congrArg (Except.map _) (addError_lost h)
  | insertHash c => exact insertHash_lost h
  | reclaimHash c =>
    obtain ⟨existing, hfound⟩ := Option.isSome_iff_exists.mp hasks
    exact reclaimHash_lost h hfound
  | releaseMemoryHashes jobId chunkId given =>
    exact congrArg (Except.map _) (releaseMemoryHashes_lost h chunkId given)
  | markMemoryHashesSucceeded projectId conversationId jobId chunkId hashes idByHash =>
    exact congrArg (Except.map _) (markMemoryHashesSucceeded_lost h projectId conversationId chunkId hashes idByHash)
  | addGraphItems jobId chunkId items => exact congrArg (Except.map _) (addGraphItems_lost h chunkId hasks)
  | markGraphItems jobId ids status error incrementAttempts =>
    exact congrArg (Except.map _) (markGraphItems_lost h hasks status error incrementAttempts)

/-! ## What a mutation writes -/

section Writes

variable {fence : Option String} {change : JobRow → JobRow}

theorem changeJob_ok {r : Option JobRow × Database} (h : changeJob fence jobId now change db = .ok r) :
    r.2 = { db with jobs := updateRows (fun job => job.id = jobId && job.leasedTo fence now) change db.jobs } := by
  rw [changeJob] at h
  split at h
  · cases h
  · cases h
    rfl

/-- The ids and the lease owners of the jobs. -/
def Database.leases (db : Database) : List (String × Option String) :=
  db.jobs.map fun job => (job.id, job.leaseOwner)

theorem changeJob_leases {r : Option JobRow × Database} (h : changeJob fence jobId now change db = .ok r)
    (hchange : ∀ job, ((change job).id, (change job).leaseOwner) = (job.id, job.leaseOwner)) :
    r.2.leases = db.leases := by
  rw [changeJob_ok h]
  exact updateRows_map hchange

theorem takeJob_leases {hit : JobRow → Bool}
    (hchange : ∀ job, ((change job).id, (change job).leaseOwner) = (job.id, job.leaseOwner)) :
    (takeJob hit change db).2.leases = db.leases := updateRows_map hchange

/-- What a call that wrote job rows after other tables did: it kept the leases, and the other tables. -/
structure LeavesShared (db db' : Database) : Prop where
  leases : db'.leases = db.leases
  chunks : db'.chunks = db.chunks
  manifests : db'.manifests = db.manifests
  hashes : db'.hashes = db.hashes

theorem changeJob_leavesShared {r : Option JobRow × Database} (h : changeJob fence jobId now change db = .ok r)
    (hchange : ∀ job, ((change job).id, (change job).leaseOwner) = (job.id, job.leaseOwner)) :
    LeavesShared db r.2 where
  leases := changeJob_leases h hchange
  chunks := by rw [changeJob_ok h]
  manifests := by rw [changeJob_ok h]
  hashes := by rw [changeJob_ok h]

theorem LeavesShared.of_graphItems {db' : Database} {graphItems : List GraphItemRow}
    (h : LeavesShared { db with graphItems } db') : LeavesShared db db' :=
  ⟨h.leases, h.chunks, h.manifests, h.hashes⟩

theorem LeavesShared.of_errors {db' : Database} {errors : List ErrorRow} (h : LeavesShared { db with errors } db') :
    LeavesShared db db' := ⟨h.leases, h.chunks, h.manifests, h.hashes⟩

theorem LeavesShared.refl (db : Database) : LeavesShared db db := ⟨rfl, rfl, rfl, rfl⟩

theorem LeavesShared.trans {db₁ db₂ db₃ : Database} (h : LeavesShared db₁ db₂) (h' : LeavesShared db₂ db₃) :
    LeavesShared db₁ db₃ where
  leases := h'.leases.trans h.leases
  chunks := h'.chunks.trans h.chunks
  manifests := h'.manifests.trans h.manifests
  hashes := h'.hashes.trans h.hashes

theorem reserveWorkspaceBytes_leavesShared {r : Nat × Database} {requested limit : Nat} {seconds : Int}
    (h : reserveWorkspaceBytes owner jobId requested limit seconds now db = .ok r) : LeavesShared db r.2 := by
  simp only [reserveWorkspaceBytes, Fallible.bind_ok] at h
  obtain ⟨-, -, h⟩ := h
  split at h
  · cases h
  · simp only [Fallible.bind_ok, Fallible.pure_ok] at h
    obtain ⟨changed, hchanged, rfl⟩ := h
    exact changeJob_leavesShared hchanged fun _ => rfl

theorem addError_leavesShared {db' : Database} {row : ErrorRow} (h : addError fence row now db = .ok db') :
    LeavesShared db db' := by
  simp only [addError, Fallible.bind_ok, Fallible.pure_ok] at h
  obtain ⟨errors, -, changed, hchanged, rfl⟩ := h
  exact .of_errors (changeJob_leavesShared hchanged fun _ => rfl)

theorem refreshGraphJobCounts_leavesShared {db' : Database} {error : Option String}
    (h : refreshGraphJobCounts fence jobId error now db = .ok db') : LeavesShared db db' := by
  simp only [refreshGraphJobCounts, Fallible.bind_ok, Fallible.pure_ok] at h
  obtain ⟨changed, hchanged, rfl⟩ := h
  exact changeJob_leavesShared hchanged fun _ => rfl

theorem addGraphItems_leavesShared {db' : Database} {chunkId : String} {items : List GraphItem}
    (h : addGraphItems fence jobId chunkId items now db = .ok db') : LeavesShared db db' := by
  rw [addGraphItems] at h
  split at h
  · cases h
    exact .refl db
  · simp only [Fallible.bind_ok] at h
    obtain ⟨inserted, -, h⟩ := h
    split at h
    · simp only [Fallible.bind_ok, Fallible.pure_ok] at h
      obtain ⟨changed, hchanged, rfl⟩ := h
      exact .of_graphItems (changeJob_leavesShared hchanged fun _ => rfl)
    · simp only [Fallible.bind_ok, Fallible.pure_ok] at h
      obtain ⟨-, -, rfl⟩ := h
      exact .of_graphItems (.refl _)

theorem markGraphItems_leavesShared {r : Nat × Database} {ids : List String} {status : RecordStatus}
    {error : Option String} {incrementAttempts : Bool}
    (h : markGraphItems fence jobId ids status error incrementAttempts now db = .ok r) : LeavesShared db r.2 := by
  rw [markGraphItems] at h
  split at h
  · cases h
    exact .refl db
  · simp only [Fallible.bind_ok] at h
    obtain ⟨-, -, h⟩ := h
    split at h
    · split at h
      · simp only [Fallible.bind_ok, Fallible.map_ok, Fallible.pure_ok] at h
        obtain ⟨-, ⟨changed, hchanged, rfl⟩, refreshed, hrefreshed, rfl⟩ := h
        have hchanged := changeJob_leavesShared hchanged fun _ => rfl
        exact .of_graphItems (hchanged.trans (refreshGraphJobCounts_leavesShared hrefreshed))
      · simp only [Fallible.bind_ok, Fallible.pure_ok] at h
        obtain ⟨-, rfl, refreshed, hrefreshed, rfl⟩ := h
        exact .of_graphItems (refreshGraphJobCounts_leavesShared hrefreshed)
    · cases h
      exact .of_graphItems (.refl _)

/-- The tables that workers share. -/
inductive SharedTable where
  | chunks | manifests | hashes
  deriving DecidableEq, Repr

/-- The shared table that a mutation writes. -/
def Mutation.table : Mutation → Option SharedTable
  | .insertChunk _ | .overwriteChunk _ | .updateChunk .. => some .chunks
  | .insertManifest _ | .reclaimManifest _ | .markManifest .. => some .manifests
  | .insertHash _ | .reclaimHash _ | .releaseMemoryHashes .. | .markMemoryHashesSucceeded .. => some .hashes
  | _ => none

/-- What one mutation leaves as it is: no lease moves, no job comes or goes, and of the shared tables only its
own is written. -/
structure Mutation.Frame (m : Mutation) (db db' : Database) : Prop where
  leases : db'.leases = db.leases
  chunks : m.table ≠ some .chunks → db'.chunks = db.chunks
  manifests : m.table ≠ some .manifests → db'.manifests = db.manifests
  hashes : m.table ≠ some .hashes → db'.hashes = db.hashes

theorem LeavesShared.frame {m : Mutation} {db' : Database} (h : LeavesShared db db') : m.Frame db db' :=
  ⟨h.leases, fun _ => h.chunks, fun _ => h.manifests, fun _ => h.hashes⟩

theorem Mutation.frame_chunks {m : Mutation} {db' : Database} (hm : m.table = some .chunks)
    (h : ∃ chunks, db' = { db with chunks }) : m.Frame db db' := by
  obtain ⟨chunks, rfl⟩ := h
  exact ⟨rfl, fun hne => absurd hm hne, fun _ => rfl, fun _ => rfl⟩

theorem Mutation.frame_manifests {m : Mutation} {db' : Database} (hm : m.table = some .manifests)
    (h : ∃ manifests, db' = { db with manifests }) : m.Frame db db' := by
  obtain ⟨manifests, rfl⟩ := h
  exact ⟨rfl, fun _ => rfl, fun hne => absurd hm hne, fun _ => rfl⟩

theorem Mutation.frame_hashes {m : Mutation} {db' : Database} (hm : m.table = some .hashes)
    (h : ∃ hashes, db' = { db with hashes }) : m.Frame db db' := by
  obtain ⟨hashes, rfl⟩ := h
  exact ⟨rfl, fun _ => rfl, fun _ => rfl, fun hne => absurd hm hne⟩

theorem overwriteChunk_ok {values : ChunkValues} {r : ChunkRow × Database}
    (h : overwriteChunk fence values now db = .ok r) : ∃ chunks, r.2 = { db with chunks } := by
  simp only [overwriteChunk, Fallible.bind_ok] at h
  obtain ⟨project, -, h⟩ := h
  split at h
  · cases h
  · simp only [Fallible.bind_ok, Fallible.pure_ok] at h
    obtain ⟨-, -, rfl⟩ := h
    exact ⟨_, rfl⟩

theorem Mutation.run_frame {m : Mutation} {r : Bool × Database} (h : m.run fence now db = .ok r) :
    m.Frame db r.2 := by
  cases m with
  | updateJob jobId values =>
    obtain ⟨changed, hchanged, rfl⟩ := Fallible.map_ok.mp h
    exact (changeJob_leavesShared hchanged fun _ => rfl).frame
  | incrementJob jobId deltas =>
    obtain ⟨changed, hchanged, rfl⟩ := Fallible.map_ok.mp h
    exact (changeJob_leavesShared hchanged fun _ => rfl).frame
  | renewJobLease jobId seconds =>
    cases h
    exact ⟨takeJob_leases fun _ => rfl, fun _ => rfl, fun _ => rfl, fun _ => rfl⟩
  | reserveWorkspaceBytes jobId requested limit seconds =>
    obtain ⟨reserved, hreserved, rfl⟩ := Fallible.map_ok.mp h
    exact (reserveWorkspaceBytes_leavesShared hreserved).frame
  | insertChunk values =>
    simp only [run, YiQiao.insertChunk, Fallible.map_ok, Fallible.bind_ok, Fallible.pure_ok] at h
    obtain ⟨-, ⟨-, -, chunks, -, rfl⟩, rfl⟩ := h
    exact frame_chunks rfl ⟨chunks, rfl⟩
  | overwriteChunk values =>
    obtain ⟨written, hwritten, rfl⟩ := Fallible.map_ok.mp h
    exact frame_chunks rfl (overwriteChunk_ok hwritten)
  | updateChunk jobId importKey values =>
    simp only [run, YiQiao.updateChunk, Fallible.map_ok, Fallible.bind_ok, Fallible.pure_ok] at h
    obtain ⟨-, ⟨-, -, rfl⟩, rfl⟩ := h
    exact frame_chunks rfl ⟨_, rfl⟩
  | insertManifest c =>
    simp only [run, YiQiao.insertManifest, Fallible.map_ok, Fallible.bind_ok, Fallible.pure_ok] at h
    obtain ⟨-, ⟨manifests, -, rfl⟩, rfl⟩ := h
    exact frame_manifests rfl ⟨manifests, rfl⟩
  | reclaimManifest c =>
    simp only [run, YiQiao.reclaimManifest, Fallible.map_ok] at h
    obtain ⟨claimed, h, rfl⟩ := h
    split at h
    · cases h
    · simp only [Fallible.bind_ok, Fallible.pure_ok] at h
      obtain ⟨-, -, rfl⟩ := h
      exact frame_manifests rfl ⟨_, rfl⟩
  | markManifest projectId importKey jobId mark =>
    simp only [run, YiQiao.markManifest, Fallible.map_ok, Fallible.bind_ok, Fallible.pure_ok] at h
    obtain ⟨-, ⟨-, -, rfl⟩, rfl⟩ := h
    exact frame_manifests rfl ⟨_, rfl⟩
  | addError row =>
    obtain ⟨added, hadded, rfl⟩ := Fallible.map_ok.mp h
    exact (addError_leavesShared hadded).frame
  | insertHash c =>
    simp only [run, YiQiao.insertHash, Fallible.bind_ok, Fallible.pure_ok] at h
    obtain ⟨hashes, -, rfl⟩ := h
    exact frame_hashes rfl ⟨hashes, rfl⟩
  | reclaimHash c =>
    simp only [run, YiQiao.reclaimHash] at h
    split at h
    · cases h
    · simp only [Fallible.bind_ok, Fallible.pure_ok] at h
      obtain ⟨-, -, rfl⟩ := h
      exact frame_hashes rfl ⟨_, rfl⟩
  | releaseMemoryHashes jobId chunkId given =>
    simp only [run, YiQiao.releaseMemoryHashes, Fallible.map_ok] at h
    obtain ⟨released, h, rfl⟩ := h
    split at h
    · simp only [Fallible.bind_ok, Fallible.pure_ok] at h
      obtain ⟨-, -, rfl⟩ := h
      exact frame_hashes rfl ⟨db.hashes, rfl⟩
    · simp only [Fallible.bind_ok, Fallible.pure_ok] at h
      obtain ⟨-, -, rfl⟩ := h
      exact frame_hashes rfl ⟨_, rfl⟩
  | markMemoryHashesSucceeded projectId conversationId jobId chunkId hashes idByHash =>
    simp only [run, YiQiao.markMemoryHashesSucceeded, Fallible.map_ok, Fallible.bind_ok, Fallible.pure_ok] at h
    obtain ⟨-, ⟨-, -, rfl⟩, rfl⟩ := h
    exact frame_hashes rfl ⟨_, rfl⟩
  | addGraphItems jobId chunkId items =>
    obtain ⟨added, hadded, rfl⟩ := Fallible.map_ok.mp h
    exact (addGraphItems_leavesShared hadded).frame
  | markGraphItems jobId ids status error incrementAttempts =>
    obtain ⟨marked, hmarked, rfl⟩ := Fallible.map_ok.mp h
    exact (markGraphItems_leavesShared hmarked).frame

end Writes

/-! ## A worker that lost its lease -/

/-- Whether or not a mutation comes to ask for the lease, it writes nothing without it. -/
theorem Mutation.after_lost {m : Mutation} (h : db.allows (some owner) m.jobId now = false) :
    (Step.mutate m (some owner) now).after db = db := by
  have hasks : m.AsksForLease db → (Step.mutate m (some owner) now).after db = db := by
    intro hasks
    rw [Step.after, Step.run, m.run_lost h hasks]
    cases m <;> rfl
  cases m with
  | insertChunk values =>
    cases hproject : values.project db with
    | ok project => exact hasks ⟨project, hproject⟩
    | error e => simp only [Step.after, Step.run, run, YiQiao.insertChunk, hproject, bind, Except.bind, Except.map]
  | overwriteChunk values =>
    cases hproject : values.project db with
    | error e =>
      simp only [Step.after, Step.run, run, YiQiao.overwriteChunk, hproject, bind, Except.bind, Except.map]
    | ok project =>
      cases hfound : db.chunks.find? (ChunkRow.isAt values.jobId values.importKey) with
      | some existing => exact hasks ⟨⟨project, hproject⟩, by rw [hfound]; rfl⟩
      | none =>
        simp only [Step.after, Step.run, run, YiQiao.overwriteChunk, hproject, hfound, bind, Except.bind, Except.map]
  | reclaimManifest c =>
    cases hfound : db.manifests.find? (ManifestRow.isAt c.projectId c.importKey) with
    | some existing => exact hasks (by rw [AsksForLease, hfound]; rfl)
    | none => simp only [Step.after, Step.run, run, YiQiao.reclaimManifest, hfound, Except.map]
  | reclaimHash c =>
    cases hfound : db.hashes.find? (HashRow.isAt c.projectId c.conversationId c.memoryHash) with
    | some existing => exact hasks (by rw [AsksForLease, hfound]; rfl)
    | none => simp only [Step.after, Step.run, run, YiQiao.reclaimHash, hfound]
  | addGraphItems jobId chunkId items =>
    cases items with
    | nil => rfl
    | cons item items => exact hasks (List.cons_ne_nil item items)
  | markGraphItems jobId ids status error incrementAttempts =>
    cases ids with
    | nil => rfl
    | cons id ids => exact hasks (List.cons_ne_nil id ids)
  | _ => exact hasks trivial

/-- The steps after which a job may be leased to a worker. -/
def Step.Grants (owner jobId : String) : Step → Prop
  | .acquireLease owner' jobId' _ _ | .retryLease owner' jobId' _ _ _ _ | .graphRetry owner' jobId' _ _ _ _
  | .discardLease owner' jobId' _ _ _ => owner' = owner ∧ jobId' = jobId
  | .createJob row _ _ => row.id = jobId ∧ row.leaseOwner = some owner
  | _ => False

theorem mem_takeJob_leases {hit : JobRow → Bool} {change : JobRow → JobRow} {lease : String × Option String}
    (h : lease ∈ (takeJob hit change db).2.leases) :
    lease ∈ db.leases ∨ ∃ job ∈ db.jobs, hit job = true ∧ ((change job).id, (change job).leaseOwner) = lease := by
  obtain ⟨job, hjob, rfl⟩ := List.mem_map.mp h
  rcases mem_updateRows.mp hjob with ⟨hold, -⟩ | ⟨old, hold, hhit, rfl⟩
  · exact .inl (List.mem_map.mpr ⟨job, hold, rfl⟩)
  · exact .inr ⟨old, hold, hhit, rfl⟩

/-- A lease that is handed out goes to the worker that asked. -/
theorem leaseTo_grants {hit : JobRow → Bool} {change : JobRow → JobRow} {owner' jobId' : String}
    (hhit : ∀ job, hit job = true → job.id = jobId')
    (hchange : ∀ job, ((change job).id, (change job).leaseOwner) = (job.id, some owner'))
    (h : (jobId, some owner) ∈ (takeJob hit change db).2.leases) :
    (jobId, some owner) ∈ db.leases ∨ owner' = owner ∧ jobId' = jobId := by
  rcases mem_takeJob_leases h with h | ⟨job, -, hjob, hlease⟩
  · exact .inl h
  · rw [hchange job, Prod.mk.injEq, Option.some.injEq, hhit job hjob] at hlease
    exact .inr hlease.symm

/-- A lease that is given up goes to nobody. -/
theorem unlease_leases {hit : JobRow → Bool} {change : JobRow → JobRow}
    (hchange : ∀ job, (change job).leaseOwner = none)
    (h : (jobId, some owner) ∈ (takeJob hit change db).2.leases) : (jobId, some owner) ∈ db.leases := by
  rcases mem_takeJob_leases h with h | ⟨job, -, -, hlease⟩
  · exact h
  · rw [hchange job] at hlease
    cases hlease

theorem takeJob_leases_mem {hit : JobRow → Bool} {change : JobRow → JobRow} {lease : String × Option String}
    (h : lease ∈ (takeJob hit change db).2.leases)
    (hchange : ∀ job, ((change job).id, (change job).leaseOwner) = (job.id, job.leaseOwner)) :
    lease ∈ db.leases := by
  rwa [takeJob_leases hchange] at h

theorem isOf_id {projectId : String} {job : JobRow} (h : job.isOf jobId projectId = true) : job.id = jobId := by
  simp only [JobRow.isOf, Bool.and_eq_true, decide_eq_true_eq] at h
  exact h.1

theorem Step.leases_of_after {step : Step} (h : (jobId, some owner) ∈ (step.after db).leases) :
    (jobId, some owner) ∈ db.leases ∨ step.Grants owner jobId := by
  cases hrun : step.run db with
  | error e => exact .inl (by rwa [after, hrun] at h)
  | ok r =>
    rw [after, hrun] at h
    cases step with
    | mutate m fence now => exact .inl ((m.run_frame hrun).leases ▸ h)
    | acquireLease owner' jobId' seconds now =>
      cases hrun
      exact leaseTo_grants (fun job hjob => by simp only [Bool.and_eq_true, decide_eq_true_eq] at hjob; tauto)
        (fun _ => rfl) h
    | retryLease owner' jobId' projectId seconds maxActive now =>
      simp only [run, acquireJobRetryLease] at hrun
      split at hrun
      · cases hrun
        exact .inl h
      · split at hrun
        · cases hrun
        · cases hrun
          exact leaseTo_grants
            (fun job hjob => by simp only [Bool.and_eq_true] at hjob; exact isOf_id hjob.1.1) (fun _ => rfl) h
    | graphRetry owner' jobId' projectId seconds maxActive now =>
      simp only [run, activateGraphRetry] at hrun
      split at hrun
      · cases hrun
        exact .inl h
      · split at hrun
        · cases hrun
        · cases hrun
          exact leaseTo_grants
            (fun job hjob => by simp only [Bool.and_eq_true] at hjob; exact isOf_id hjob.1.1.1) (fun _ => rfl) h
    | discardLease owner' jobId' projectId seconds now =>
      cases hrun
      exact leaseTo_grants (fun job hjob => by simp only [Bool.and_eq_true] at hjob; exact isOf_id hjob.1.1.1)
        (fun _ => rfl) h
    | completeDiscard owner' jobId' =>
      obtain ⟨db', hend, rfl⟩ := Fallible.map_ok.mp hrun
      simp only [completeJobWorkspaceDiscard, endDiscard] at hend
      split at hend
      · cases hend
      · cases hend
        exact .inl (unlease_leases (fun _ => rfl) h)
    | abortDiscard owner' jobId' =>
      obtain ⟨db', hend, rfl⟩ := Fallible.map_ok.mp hrun
      simp only [abortJobWorkspaceDiscard, endDiscard] at hend
      split at hend
      · cases hend
      · cases hend
        exact .inl (unlease_leases (fun _ => rfl) h)
    | cancel jobId' projectId =>
      cases hrun
      exact .inl (takeJob_leases_mem h fun _ => rfl)
    | releaseLease owner' jobId' =>
      cases hrun
      exact .inl (unlease_leases (fun _ => rfl) h)
    | createJob row maxActive maxRetained =>
      obtain ⟨db', hcreate, rfl⟩ := Fallible.map_ok.mp hrun
      simp only [YiQiao.createJob] at hcreate
      split at hcreate
      · cases hcreate
      · split at hcreate
        · cases hcreate
        · split at hcreate
          · cases hcreate
          · cases hcreate
            simp only [Database.leases, List.map_append, List.map_cons, List.map_nil, List.mem_append,
              List.mem_singleton] at h
            rcases h with h | h
            · exact .inl h
            · rw [Prod.mk.injEq] at h
              exact .inr ⟨h.1.symm, h.2.symm⟩
    | deleteUploading owner' jobId' now =>
      cases hrun
      obtain ⟨job, hjob, hlease⟩ := List.mem_map.mp h
      exact .inl (List.mem_map.mpr ⟨job, (List.mem_filter.mp hjob).1, hlease⟩)
    | reconcileBytes jobId' bytes now =>
      cases hrun
      exact .inl (takeJob_leases_mem h fun _ => rfl)

/-- A worker that has lost the lease of a job has not got it back in a run that does not hand it out again. -/
theorem runSteps_not_leases {steps : List Step} (h : (jobId, some owner) ∉ db.leases)
    (hgrants : ∀ step ∈ steps, ¬ step.Grants owner jobId) : (jobId, some owner) ∉ (runSteps db steps).leases := by
  induction steps generalizing db with
  | nil => exact h
  | cons step steps ih =>
    rw [runSteps_cons]
    refine ih (fun hafter => ?_) fun later hlater => hgrants later (List.mem_cons_of_mem _ hlater)
    rcases Step.leases_of_after hafter with hbefore | hgrant
    · exact h hbefore
    · exact hgrants step List.mem_cons_self hgrant

theorem not_allows_of_not_leases (h : (jobId, some owner) ∉ db.leases) (now : Instant) :
    db.allows (some owner) jobId now = false := by
  rw [← Bool.not_eq_true, allows_some]
  rintro ⟨job, hjob, hid, hleased⟩
  simp only [JobRow.leasedTo, Option.all_some, Bool.and_eq_true, decide_eq_true_eq] at hleased
  exact h (List.mem_map.mpr ⟨job, hjob, by rw [hid, hleased.1]⟩)

/-- The mutations of a job that a worker makes under its lease. -/
def Step.isBy (owner jobId : String) : Step → Bool
  | .mutate m fence _ => fence = some owner && m.jobId = jobId
  | _ => false

theorem Step.isBy_elim {step : Step} (h : step.isBy owner jobId = true) :
    ∃ m now, step = .mutate m (some owner) now ∧ m.jobId = jobId := by
  cases step with
  | mutate m fence now =>
    simp only [isBy, Bool.and_eq_true, decide_eq_true_eq] at h
    exact ⟨m, now, by rw [h.1], h.2⟩
  | _ => cases h

/-- A run goes as if a worker that has lost its lease had stopped. -/
theorem runSteps_without {steps : List Step} (h : (jobId, some owner) ∉ db.leases)
    (hgrants : ∀ step ∈ steps, ¬ step.Grants owner jobId) :
    runSteps db steps = runSteps db (steps.filter fun step => !step.isBy owner jobId) := by
  induction steps generalizing db with
  | nil => rfl
  | cons step steps ih =>
    have hafter : (jobId, some owner) ∉ (step.after db).leases := by
      have hstep : ∀ later ∈ [step], ¬ later.Grants owner jobId := by
        intro later hlater
        rw [List.mem_singleton.mp hlater]
        exact hgrants step List.mem_cons_self
      exact runSteps_not_leases h hstep
    have hrest := ih hafter fun later hlater => hgrants later (List.mem_cons_of_mem _ hlater)
    rw [runSteps_cons, hrest]
    cases hby : step.isBy owner jobId with
    | false => rw [List.filter_cons, hby]; rfl
    | true =>
      obtain ⟨m, now, rfl, rfl⟩ := Step.isBy_elim hby
      rw [List.filter_cons, hby, m.after_lost (not_allows_of_not_leases h now)]
      rfl

/-- **Fencing.** In every run a mutation made without its lease leaves every table as it is, and is refused once
it asks for the lease; and a worker that has lost the lease of a job makes no difference to the run, and is
refused, until the job is leased to it again. -/
theorem lease_fences (db₀ : Database) (steps : List Step) (owner : String) (m : Mutation) (now : Instant) :
    ((runSteps db₀ steps).allows (some owner) m.jobId now = false →
      (Step.mutate m (some owner) now).after (runSteps db₀ steps) = runSteps db₀ steps ∧
      (m.AsksForLease (runSteps db₀ steps) →
        m.run (some owner) now (runSteps db₀ steps) = m.refusal (runSteps db₀ steps))) ∧
    ((m.jobId, some owner) ∉ db₀.leases → (∀ step ∈ steps, ¬ step.Grants owner m.jobId) →
      runSteps db₀ steps = runSteps db₀ (steps.filter fun step => !step.isBy owner m.jobId) ∧
      (runSteps db₀ steps).allows (some owner) m.jobId now = false) := by
  constructor
  · intro hlost
    exact ⟨m.after_lost hlost, m.run_lost hlost⟩
  · intro hlost hgrants
    exact ⟨runSteps_without hlost hgrants, not_allows_of_not_leases (runSteps_not_leases hlost hgrants) now⟩

/-- A job that a worker runs. -/
def runningJob (id projectId : String) (owner : Option String) (expires : Option Instant) : JobRow where
  id := id
  projectId := projectId
  status := .importing
  phase := "importing"
  cancelRequested := false
  leaseOwner := owner
  leaseExpiresAt := expires
  workspace := none
  workspaceBytes := 0
  sourceRetryRequired := true
  counters := ⟨0, 0, 0, 0, 0, 0, 0, 0, 0, 0⟩
  errorCount := 0
  graphStatus := "pending"
  graphError := none
  graphPendingItems := 0
  graphSyncedItems := 0
  graphFailedItems := 0

def Database.empty : Database := ⟨[], [], [], [], [], []⟩

/-- The first worker stalls past the end of its lease, and a second one takes the job over. -/
def takeover : List Step := [.acquireLease "second" "job" 60 100]

def stalled : Database := { Database.empty with jobs := [runningJob "job" "project" (some "first") (some 90)] }

theorem lease_fences_takeover :
    (Mutation.updateJob "job" fun job => { job with status := .failed }).run (some "first") 89
      (runSteps stalled takeover) = .error .leaseLost :=
  ((lease_fences stalled takeover "first" (.updateJob "job" fun job => { job with status := .failed }) 89).1
    (by decide)).2 trivial

/-- A chunk of an unknown job is refused for that, and not for the lease. -/
theorem unknown_job_not_lease_lost : ¬ ∀ (db : Database) (owner : String) (m : Mutation) (now : Instant),
    db.allows (some owner) m.jobId now = false → m.run (some owner) now db = m.refusal db := by
  intro h
  have := h .empty "worker" (.insertChunk ⟨"chunk", "job", "key", none, "talk", .processing, 1, none, 0⟩) 0 (by decide)
  cases this

end YiQiao
