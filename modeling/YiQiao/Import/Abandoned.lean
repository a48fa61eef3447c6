import YiQiao.Lib.Runs
import YiQiao.Import.Claims
import YiQiao.Import.Watch

/-!
# Claims of jobs that have ended

A chunk of a run claims the manifest of its key and marks it before it returns, and a run ends its job when its chunks
have returned. A crash, a lost lease or an exception stops a chunk before that: its claim stays open until a chunk of a
later run of the job takes it up. A job may be ended first, by that run or by the recovery scan.
-/

namespace YiQiao

open Lib

/-! ## Open claims -/

/-- A manifest that a chunk of a run has claimed and nobody has marked since; a stopped chunk will not. -/
structure OpenClaim where
  owner : String
  claim : Claim
  atWork : Bool

/-- The program at work, with the claims of its chunks. -/
structure ClaimWorld where
  world : World
  claims : List OpenClaim

def OpenClaim.at (projectId importKey : String) (o : OpenClaim) : Bool :=
  o.claim.projectId = projectId && o.claim.importKey = importKey

def ClaimWorld.db (w : ClaimWorld) : Database := w.world.db

/-- The claims but for those of a key. -/
def ClaimWorld.claimsOff (w : ClaimWorld) (projectId importKey : String) : List OpenClaim :=
  w.claims.filter fun o => !o.at projectId importKey

inductive ClaimAction where
  /-- What runs, routes and scans do but for the manifests. -/
  | base (action : Action)
  /-- A transaction of `claim_manifest`: the insert, or the update after a conflict. -/
  | claim (owner : String) (c : Claim) (conflict : Bool)
  /-- `_claim_import_chunk` on a manifest that its chunk has claimed before, and with rows in the vector store. -/
  | adopt (owner : String) (c : Claim)
  /-- `mark_manifest`, with the status of a chunk that was stored, split, cancelled or that failed. -/
  | mark (owner jobId projectId importKey : String) (mark : ManifestMark)
  /-- A lost lease or an exception leaves `process_chunk`. -/
  | stop (owner projectId importKey : String)

/-- The statuses that `mark_manifest` is called with. -/
def markedStatuses : List RecordStatus := [.succeeded, .split, .released, .failed]

def claimStep (w : World) (owner : String) (c : Claim) (conflict : Bool) : Step :=
  .mutate (if conflict then .reclaimManifest c else .insertManifest c) (some owner) w.now

/-- A claim that succeeds is open; nothing else is of the key. -/
def ClaimWorld.afterClaim (w : ClaimWorld) (owner : String) (c : Claim) : Except RepositoryError (Bool × Database) → ClaimWorld
  | .ok (true, db) => ⟨{ w.world with db := db }, ⟨owner, c, true⟩ :: w.claimsOff c.projectId c.importKey⟩
  | .ok (false, db) => { w with world := { w.world with db := db } }
  | .error _ => w

/-- A mark that succeeds closes the claim of the job. -/
def ClaimWorld.afterMark (w : ClaimWorld) (jobId projectId importKey : String) :
    Except RepositoryError (Bool × Database) → ClaimWorld
  | .ok (_, db) => ⟨{ w.world with db := db },
      w.claims.filter fun o => !(o.at projectId importKey && o.claim.jobId = jobId)⟩
  | .error _ => w

/-- The chunks of an owner stop. -/
def OpenClaim.stopped (hit : OpenClaim → Bool) (o : OpenClaim) : OpenClaim :=
  if hit o then { o with atWork := false } else o

/-- Transactions on manifests have actions of their own, and a new job has not ended. -/
def Step.isBase : Step → Bool
  | .mutate m _ _ => m.table ≠ some .manifests
  | .createJob row _ _ => row.status ∈ recoverableJobStatuses
  | _ => true

/-- A run ends its job when none of its chunks is at work. -/
def ClaimWorld.ready (w : ClaimWorld) : Action → Bool
  | .transact step => step.isBase
  | .write columns owner jobId =>
      !(columns.ends && w.claims.any fun o => o.atWork && o.owner = owner && o.claim.jobId = jobId)
  | _ => true

def ClaimWorld.base (w : ClaimWorld) (action : Action) : ClaimWorld where
  world := action.run w.world
  claims := match action with
    | .crash owner => w.claims.map (OpenClaim.stopped fun o => o.owner = owner)
    | _ => w.claims

def ClaimWorld.step (w : ClaimWorld) : ClaimAction → Option ClaimWorld
  | .base action => if w.ready action then some (w.base action) else none
  | .claim owner c conflict =>
      if w.world.workers.contains (owner, c.jobId) then
        some (w.afterClaim owner c ((claimStep w.world owner c conflict).run w.db))
      else none
  | .adopt owner c =>
      if w.world.workers.contains (owner, c.jobId) ∧ (w.db.manifestAt c.projectId c.importKey).any (fun row =>
          row.status = .claimed && row.jobId = some c.jobId && row.chunkId = some c.chunkId) then
        some { w with claims := ⟨owner, c, true⟩ :: w.claimsOff c.projectId c.importKey }
      else none
  | .mark owner jobId projectId importKey mark =>
      if w.world.workers.contains (owner, jobId) ∧ mark.status ∈ markedStatuses then
        some (w.afterMark jobId projectId importKey
          ((Step.mutate (.markManifest projectId importKey jobId mark) (some owner) w.world.now).run w.db))
      else none
  | .stop owner projectId importKey =>
      some { w with claims := w.claims.map (OpenClaim.stopped fun o => o.owner = owner && o.at projectId importKey) }

/-! ## Jobs that end -/

/-- No manifest is claimed by a job that has ended. -/
def ClaimWorld.Clean (w : ClaimWorld) : Prop :=
  ∀ job ∈ w.db.jobs, job.status ∈ discardableJobStatuses → ∀ row ∈ w.db.manifests, row.status = .claimed →
    row.jobId ≠ some job.id

/-- The action ends the job: a write of its lease owner, or what a recovery scan makes of the job it read. -/
def World.Ends (w : World) (jobId : String) (action : Action) : Prop :=
  action.enabled w = true ∧ match action with
    | .write columns owner id => id = jobId ∧ columns.ends = true ∧
        ∃ job ∈ w.db.jobs, job.updatable jobId (some owner) w.now = true
    | .recover scanner id pathsFound => id = jobId ∧ (∃ job ∈ w.db.jobs, job.id = jobId) ∧
        ∃ read, w.sawJob scanner id = some read ∧ (read.recovery pathsFound).isSome = true
    | _ => False

/-- The run whose end an action writes. -/
def Action.runOwner : Action → Option String
  | .write _ owner _ => some owner
  | _ => none

/-- The open claims of a job that is ended are in the hands of chunks at work of the run that ends it: no chunk that was
stopped has left one, and no other run. And a claim succeeds only for a job that has not ended. -/
def ClaimWorld.Closes (w : ClaimWorld) : ClaimAction → Prop
  | .base action => w.ready action = true → ∀ jobId, w.world.Ends jobId action →
      ∀ o ∈ w.claims, o.claim.jobId = jobId → o.atWork = true ∧ action.runOwner = some o.owner
  | .claim owner c conflict => (owner, c.jobId) ∈ w.world.workers → (claimStep w.world owner c conflict).Claims w.db c →
      ∀ job ∈ w.db.jobs, job.id = c.jobId → job.status ∉ discardableJobStatuses
  | _ => True

/-! ## One key -/

section

variable {db db' : Database} {p k : String} {step : Step} {c : Claim}

theorem OpenClaim.at_iff {o : OpenClaim} : o.at p k = true ↔ o.claim.isAt p k := by
  simp [OpenClaim.at, Claim.isAt]

theorem manifestAt_of_mem (hu : db.ManifestsUnique) {row : ManifestRow} (h : row ∈ db.manifests) :
    db.manifestAt row.projectId row.importKey = some row := by
  obtain ⟨found, hfound⟩ : ∃ found, db.manifestAt row.projectId row.importKey = some found := by
    apply Option.ne_none_iff_exists'.mp
    intro hnone
    exact List.find?_eq_none.mp hnone row h (isAt_iff.mpr ⟨rfl, rfl⟩)
  obtain ⟨hp, hk⟩ := manifestAt_isAt hfound
  rw [hfound, eq_of_key_eq hu.keys (manifestAt_mem hfound) h (Prod.ext hp hk)]

theorem Database.HeldBy.claimed (h : db.HeldBy p k c) : db.ClaimedAt p k := by
  obtain ⟨row, hrow, hstatus, _⟩ := h
  exact ⟨row, hrow, hstatus⟩

/-- A claim that succeeds touches no other key. -/
theorem claims_other (hu : db.ManifestsUnique) (h : step.Claims db c) (hother : ¬c.isAt p k) :
    (step.after db).manifestAt p k = db.manifestAt p k := by
  have hchange := step.manifest_change (p := p) (k := k) hu
  have hsame : ∀ c', step.Claims db c' → c' = c := by
    intro c' h'
    obtain ⟨_, _, _, -, h⟩ := h
    obtain ⟨_, _, _, -, h'⟩ := h'
    rcases h with h | h <;> rcases h' with h' | h' <;> rw [h] at h' <;> cases h'
    · rfl
    · rfl
  generalize hafter : (step.after db).manifestAt p k = after at hchange
  cases hchange with
  | same => rfl
  | claim c' row hclaims hp hk =>
    rw [hsame c' hclaims] at hp hk
    exact absurd ⟨hp, hk⟩ hother
  | upgrade row hnever => exact absurd h (hnever c)
  | mark jobId mark fence now row hstep =>
    obtain ⟨_, _, _, -, h | h⟩ := h
    · rw [hstep] at h
      cases h
    · rw [hstep] at h
      cases h

/-- A claim that does not succeed leaves a claimed manifest, and claims none. -/
theorem claims_nothing (hu : db.ManifestsUnique) (hnever : ∀ c, ¬step.Claims db c)
    (hmark : ∀ jobId mark fence now, step ≠ .mutate (.markManifest p k jobId mark) fence now) {row : ManifestRow}
    (hrow : row.status = .claimed) :
    (step.after db).manifestAt p k = some row ↔ db.manifestAt p k = some row := by
  have hchange := step.manifest_change (p := p) (k := k) hu
  generalize hafter : (step.after db).manifestAt p k = after at hchange
  cases hchange with
  | same => rfl
  | claim c' row' hclaims => exact absurd hclaims (hnever c')
  | upgrade row' _ hrow' hreleased =>
    constructor
    · rintro ⟨⟩
      cases hrow
    · intro h
      rw [h, Option.some.injEq] at hrow'
      rw [← hrow', hrow] at hreleased
      cases hreleased
  | mark jobId mark fence now row' hstep => exact absurd hstep (hmark jobId mark fence now)

/-- A mark with a lease owner is on the manifest of its job. -/
theorem markManifest_leased {owner jobId : String} {mark : ManifestMark} {now : Instant}
    {r : Option ManifestRow × Database} (h : markManifest (some owner) p k jobId mark now db = .ok r) :
    r.2 = { db with
      manifests := updateRows (fun row => row.isAt p k && row.jobId = some jobId) mark.on db.manifests } := by
  simp only [markManifest, Fallible.bind_ok, Fallible.pure_ok, Option.isNone_some, Bool.false_or] at h
  obtain ⟨_, hcheck, rfl⟩ := h
  have hallows : db.allows (some owner) jobId now = true := by
    by_contra hlost
    rw [Bool.not_eq_true] at hlost
    have hnone : ∀ row ∈ db.manifests, (row.isAt p k && decide (row.jobId = some jobId) &&
        db.allows (some owner) jobId now) = false := by simp [hlost]
    unfold checkTouched at hcheck
    rw [if_pos (hitRows_eq_zero.mpr hnone), assertActiveLease_lost hlost] at hcheck
    cases hcheck
  simp only [hallows, Bool.and_true]

theorem manifestAt_mark {jobId : String} {mark : ManifestMark} {p' k' : String} :
    ({ db with
        manifests := updateRows (fun row => row.isAt p k && row.jobId = some jobId) mark.on db.manifests } :
      Database).manifestAt p' k' = (db.manifestAt p' k').map fun row =>
        if row.isAt p k = true ∧ row.jobId = some jobId then mark.on row else row := by
  rw [manifestAt_updateRows mark.on fun _ => rfl]
  simp only [Bool.and_eq_true, decide_eq_true_eq]

end

/-! ## Open claims and manifests -/

/-- A key is claimed exactly by the chunk of its open claim. -/
structure ClaimWorld.Tracked (w : ClaimWorld) : Prop where
  ids : (w.db.jobs.map JobRow.id).Nodup
  manifests : w.db.ManifestsUnique
  found : ∀ p k, w.db.ClaimedAt p k → ∃ o ∈ w.claims, o.claim.isAt p k
  held : ∀ o ∈ w.claims, w.db.HeldBy o.claim.projectId o.claim.importKey o.claim

section

variable {w w' : ClaimWorld} {c : Claim} {owner : String}

/-- No open claim is of a job that has ended. -/
theorem ClaimWorld.Tracked.clean_iff (h : w.Tracked) : w.Clean ↔
    ∀ o ∈ w.claims, ∀ job ∈ w.db.jobs, job.id = o.claim.jobId → job.status ∉ discardableJobStatuses := by
  constructor
  · intro hclean o ho job hjob hid hended
    obtain ⟨row, hrow, hstatus, hrowJob, _⟩ := h.held o ho
    exact hclean job hjob hended row (manifestAt_mem hrow) hstatus (hid ▸ hrowJob)
  · intro hclaims job hjob hended row hrow hstatus hrowJob
    have hat := manifestAt_of_mem h.manifests hrow
    obtain ⟨o, ho, hkey⟩ := h.found _ _ ⟨row, hat, hstatus⟩
    obtain ⟨row', hrow', _, hjob', _⟩ := h.held o ho
    rw [hkey.1, hkey.2, hat, Option.some.injEq] at hrow'
    rw [← hrow', hrowJob, Option.some.injEq] at hjob'
    exact hclaims o ho job hjob hjob' hended

theorem mem_claimsOff {p k : String} {o : OpenClaim} : o ∈ w.claimsOff p k ↔ o ∈ w.claims ∧ ¬o.claim.isAt p k := by
  rw [ClaimWorld.claimsOff, List.mem_filter, Bool.not_eq_true', ← Bool.not_eq_true, OpenClaim.at_iff]

/-- A claim that is held takes the place of those of its key. -/
theorem ClaimWorld.Tracked.take {db : Database} (h : w.Tracked) (hids : (db.jobs.map JobRow.id).Nodup)
    (hu : db.ManifestsUnique) (hheld : db.HeldBy c.projectId c.importKey c)
    (hother : ∀ p k, ¬c.isAt p k → db.manifestAt p k = w.db.manifestAt p k) :
    ClaimWorld.Tracked ⟨{ w.world with db := db }, ⟨owner, c, true⟩ :: w.claimsOff c.projectId c.importKey⟩ := by
  refine ⟨hids, hu, ?_, ?_⟩
  · rintro p k ⟨row, hrow, hstatus⟩
    by_cases hkey : c.isAt p k
    · exact ⟨_, List.mem_cons_self, hkey⟩
    · change db.manifestAt p k = some row at hrow
      rw [hother p k hkey] at hrow
      obtain ⟨o, ho, hat⟩ := h.found p k ⟨row, hrow, hstatus⟩
      refine ⟨o, List.mem_cons_of_mem _ (mem_claimsOff.mpr ⟨ho, ?_⟩), hat⟩
      intro hsame
      exact hkey ⟨hsame.1.symm.trans hat.1, hsame.2.symm.trans hat.2⟩
  · intro o ho
    rcases List.mem_cons.mp ho with rfl | ho
    · exact hheld
    · obtain ⟨ho, hoff⟩ := mem_claimsOff.mp ho
      obtain ⟨row, hrow, hrest⟩ := h.held o ho
      refine ⟨row, ?_, hrest⟩
      exact (hother _ _ fun hsame => hoff ⟨hsame.1.symm, hsame.2.symm⟩).trans hrow

/-- Claiming writes to no job. -/
theorem claim_jobs (w : ClaimWorld) (owner : String) (c : Claim) (conflict : Bool) :
    (w.afterClaim owner c ((claimStep w.world owner c conflict).run w.db)).db.jobs = w.db.jobs := by
  cases hrun : (claimStep w.world owner c conflict).run w.db with
  | error e => rfl
  | ok r =>
    have hjobs : r.2.jobs = w.db.jobs := by
      cases conflict with
      | false =>
        obtain ⟨r, hr, rfl⟩ := Fallible.map_ok.mp hrun
        rw [(insertManifest_ok hr).2]
      | true =>
        obtain ⟨r, hr, rfl⟩ := Fallible.map_ok.mp hrun
        obtain ⟨_, _, _, ⟨_, _, hr⟩ | ⟨_, hr⟩⟩ := reclaimManifest_ok hr
        · rw [hr]
        · rw [hr]
    obtain ⟨taken, db⟩ := r
    cases taken with
    | false => exact hjobs
    | true => exact hjobs

theorem ClaimWorld.Tracked.claim (h : w.Tracked) (owner : String) (c : Claim) (conflict : Bool) :
    (w.afterClaim owner c ((claimStep w.world owner c conflict).run w.db)).Tracked := by
  have hafter := (claimStep w.world owner c conflict).manifests_unique h.manifests
  cases hrun : (claimStep w.world owner c conflict).run w.db with
  | error e => exact h
  | ok r =>
    obtain ⟨taken, db⟩ := r
    have hdb : (claimStep w.world owner c conflict).after w.db = db := Step.after_of_ok hrun
    rw [hdb] at hafter
    have hjobs := claim_jobs w owner c conflict
    rw [hrun] at hjobs
    have hids : (db.jobs.map JobRow.id).Nodup := by
      cases taken with
      | false => exact hjobs ▸ h.ids
      | true => exact hjobs ▸ h.ids
    cases taken with
    | true =>
      have hclaims : (claimStep w.world owner c conflict).Claims w.db c := by
        refine ⟨some owner, w.world.now, db, hrun, ?_⟩
        cases conflict with
        | false => exact .inl rfl
        | true => exact .inr rfl
      rw [ClaimWorld.afterClaim]
      apply h.take hids hafter
      · rw [← hdb]
        exact (Step.claims_iff h.manifests hclaims ⟨rfl, rfl⟩).2
      · intro p k hother
        rw [← hdb]
        exact claims_other h.manifests hclaims hother
    | false =>
      have hsame : ∀ p k row, row.status = .claimed → (db.manifestAt p k = some row ↔ w.db.manifestAt p k = some row) := by
        intro p k row hrow
        rw [← hdb]
        apply claims_nothing h.manifests _ _ hrow
        · intro c' hc'
          obtain ⟨_, hok⟩ := hc'.ok
          rw [hrun] at hok
          cases hok
        · intro jobId mark fence now
          cases conflict <;> simp [claimStep]
      refine ⟨hids, hafter, ?_, ?_⟩
      · rintro p k ⟨row, hrow, hstatus⟩
        exact h.found p k ⟨row, (hsame p k row hstatus).mp hrow, hstatus⟩
      · intro o ho
        obtain ⟨row, hrow, hstatus, hrest⟩ := h.held o ho
        exact ⟨row, (hsame _ _ row hstatus).mpr hrow, hstatus, hrest⟩

theorem ClaimWorld.Tracked.mark (h : w.Tracked) (owner jobId p k : String) {mark : ManifestMark}
    (hmark : mark.status ∈ markedStatuses) :
    (w.afterMark jobId p k
      ((Step.mutate (.markManifest p k jobId mark) (some owner) w.world.now).run w.db)).Tracked := by
  have hafter := (Step.mutate (.markManifest p k jobId mark) (some owner) w.world.now).manifests_unique h.manifests
  cases hrun : (Step.mutate (.markManifest p k jobId mark) (some owner) w.world.now).run w.db with
  | error e => exact h
  | ok r =>
    rw [Step.after_of_ok hrun] at hafter
    obtain ⟨marked, hmarked, hr⟩ := Fallible.map_ok.mp hrun
    have hdb := markManifest_leased hmarked
    rw [← show r.2 = marked.2 by rw [← hr]] at hdb
    have hat : ∀ p' k', r.2.manifestAt p' k' = (w.db.manifestAt p' k').map fun row =>
        if row.isAt p k = true ∧ row.jobId = some jobId then mark.on row else row := by
      intro p' k'
      rw [hdb]
      exact manifestAt_mark
    have hjobs : r.2.jobs = w.db.jobs := by rw [hdb]
    refine ⟨show (r.2.jobs.map JobRow.id).Nodup from hjobs ▸ h.ids, hafter, ?_, ?_⟩
    · rintro p' k' ⟨row', hrow', hstatus⟩
      change r.2.manifestAt p' k' = some row' at hrow'
      rw [hat, Option.map_eq_some_iff] at hrow'
      obtain ⟨row, hrow, rfl⟩ := hrow'
      by_cases hhit : row.isAt p k = true ∧ row.jobId = some jobId
      · rw [if_pos hhit] at hstatus
        rw [show mark.status = .claimed from hstatus] at hmark
        exact absurd hmark (by decide)
      · rw [if_neg hhit] at hstatus
        obtain ⟨o, ho, hkey⟩ := h.found p' k' ⟨row, hrow, hstatus⟩
        refine ⟨o, List.mem_filter.mpr ⟨ho, ?_⟩, hkey⟩
        rw [Bool.not_eq_true', Bool.and_eq_false_iff, decide_eq_false_iff_not]
        by_contra hno
        simp only [not_or, Bool.not_eq_false, not_not, OpenClaim.at_iff] at hno
        obtain ⟨found, hfound, _, hjob, _⟩ := h.held o ho
        rw [hkey.1, hkey.2, hrow, Option.some.injEq] at hfound
        obtain ⟨hp, hk⟩ := manifestAt_isAt hrow
        refine hhit ⟨isAt_iff.mpr ⟨hp.trans (hkey.1.symm.trans hno.1.1), hk.trans (hkey.2.symm.trans hno.1.2)⟩, ?_⟩
        rw [hfound, hjob, hno.2]
    · intro o ho
      obtain ⟨ho, hleft⟩ := List.mem_filter.mp ho
      obtain ⟨row, hrow, hstatus, hjob, hchunk⟩ := h.held o ho
      refine ⟨row, ?_, hstatus, hjob, hchunk⟩
      change r.2.manifestAt _ _ = some row
      rw [hat, hrow, Option.map_some, if_neg]
      rintro ⟨hrowAt, hrowJob⟩
      obtain ⟨hp, hk⟩ := isAt_iff.mp hrowAt
      obtain ⟨hp', hk'⟩ := manifestAt_isAt hrow
      rw [hjob, Option.some.injEq] at hrowJob
      rw [OpenClaim.at_iff.mpr ⟨hp'.symm.trans hp, hk'.symm.trans hk⟩, hrowJob] at hleft
      simp at hleft

/-! ## Jobs and their runs -/

theorem commit_manifests {db : Database} {step : Step} (h : step.isBase = true) :
    (step.commit db).manifests = db.manifests := by
  have hafter : (∀ m fence now, step = .mutate m fence now → m.table ≠ some .manifests) →
      (step.after db).manifests = db.manifests := by
    intro htable
    rw [Step.after]
    cases hrun : step.run db with
    | error e => rfl
    | ok r =>
      rcases Step.manifests_of_ok hrun with hsame | ⟨m, fence, now, hstep, hm⟩
      · exact hsame
      · exact absurd hm (htable m fence now hstep)
  cases step with
  | mutate m fence now =>
    have htable : m.table ≠ some .manifests := by simpa [Step.isBase] using h
    have hmutate := hafter fun m' _ _ hstep => by
      cases hstep
      exact htable
    cases m with
    | reserveWorkspaceBytes jobId requested limit seconds => rfl
    | _ => exact hmutate
  | retryLease owner jobId projectId seconds maxActive now => rfl
  | graphRetry owner jobId projectId seconds maxActive now => rfl
  | createJob row maxActive maxRetained =>
    rw [Step.commit]
    split
    · rfl
    · rfl
  | _ => exact hafter fun _ _ _ hstep => by cases hstep

theorem base_manifests {action : Action} (h : w.ready action = true) :
    (w.base action).db.manifests = w.db.manifests := by
  rcases action.run_db w.world with hdb | ⟨henabled, step, hstep, hdb⟩
  · exact congrArg Database.manifests hdb
  · change (action.run w.world).db.manifests = _
    rw [hdb]
    apply commit_manifests
    rcases Action.step_cases hstep with rfl | ⟨_, _, _, _, rfl⟩ | ⟨_, _, _, _, _, _, _, _, rfl⟩ | ⟨_, _, _, _, _, _, rfl⟩
    · exact h
    · rfl
    · rfl
    · rfl

/-- Stopping a chunk leaves its claim. -/
theorem base_claims (w : ClaimWorld) (action : Action) : ∃ f : OpenClaim → OpenClaim,
    (w.base action).claims = w.claims.map f ∧ ∀ o, (f o).claim = o.claim := by
  cases action with
  | crash owner =>
    refine ⟨_, rfl, ?_⟩
    intro o
    rw [OpenClaim.stopped]
    split
    · rfl
    · rfl
  | _ => exact ⟨id, (List.map_id _).symm, fun _ => rfl⟩

theorem ClaimWorld.Tracked.of_claims (h : w.Tracked) (hids : (w'.db.jobs.map JobRow.id).Nodup)
    (hmanifests : w'.db.manifests = w.db.manifests) {f : OpenClaim → OpenClaim} (hclaims : w'.claims = w.claims.map f)
    (hf : ∀ o, (f o).claim = o.claim) : w'.Tracked := by
  have hat : ∀ p k, w'.db.manifestAt p k = w.db.manifestAt p k := by
    intro p k
    rw [Database.manifestAt, hmanifests]
    rfl
  refine ⟨hids, ⟨hmanifests ▸ h.manifests.ids, hmanifests ▸ h.manifests.keys⟩, ?_, ?_⟩
  · rintro p k ⟨row, hrow, hstatus⟩
    rw [hat] at hrow
    obtain ⟨o, ho, hkey⟩ := h.found p k ⟨row, hrow, hstatus⟩
    refine ⟨f o, hclaims ▸ List.mem_map_of_mem ho, ?_⟩
    rw [hf]
    exact hkey
  · intro o' ho'
    rw [hclaims] at ho'
    obtain ⟨o, ho, rfl⟩ := List.mem_map.mp ho'
    obtain ⟨row, hrow, hrest⟩ := h.held o ho
    rw [hf]
    exact ⟨row, (hat _ _).trans hrow, hrest⟩

theorem ClaimWorld.Tracked.base (h : w.Tracked) {action : Action} (hready : w.ready action = true) :
    (w.base action).Tracked := by
  obtain ⟨f, hclaims, hf⟩ := base_claims w action
  exact h.of_claims (action.run_ids h.ids) (base_manifests hready) hclaims hf

theorem ClaimWorld.Tracked.step (h : w.Tracked) {action : ClaimAction} (hstep : w.step action = some w') :
    w'.Tracked := by
  cases action with
  | base action =>
    rw [ClaimWorld.step] at hstep
    split at hstep
    · rename_i hready
      cases hstep
      exact h.base hready
    · cases hstep
  | claim owner c conflict =>
    rw [ClaimWorld.step] at hstep
    split at hstep
    · cases hstep
      exact h.claim owner c conflict
    · cases hstep
  | adopt owner c =>
    rw [ClaimWorld.step] at hstep
    split at hstep
    · rename_i hadopts
      cases hstep
      obtain ⟨row, hrow, hheld⟩ := (Option.any_eq_true _ _).mp hadopts.2
      simp only [Bool.and_eq_true, decide_eq_true_eq] at hheld
      exact h.take h.ids h.manifests ⟨row, hrow, hheld.1.1, hheld.1.2, hheld.2⟩ fun _ _ _ => rfl
    · cases hstep
  | mark owner jobId p k mark =>
    rw [ClaimWorld.step] at hstep
    split at hstep
    · rename_i hmarks
      cases hstep
      exact h.mark owner jobId p k hmarks.2
    · cases hstep
  | stop owner p k =>
    cases hstep
    refine h.of_claims h.ids rfl rfl ?_
    intro o
    rw [OpenClaim.stopped]
    split
    · rfl
    · rfl

/-! ## Which jobs end -/

/-- A job that has ended after an action had ended before, or the action ends it. -/
theorem ended_of_turn {world : World} {action : Action} {step : Step} {job job' : JobRow}
    (henabled : action.enabled world = true) (hstep : action.step world = some step) (hjob : job ∈ world.db.jobs)
    (hturn : step.Turns job job') (hended : job'.status ∈ discardableJobStatuses) :
    job.status ∈ discardableJobStatuses ∨ world.Ends job.id action := by
  rcases Action.step_cases hstep with rfl | ⟨columns, owner, jobId, rfl, rfl⟩ |
    ⟨scanner, jobId, pathsFound, read, columns, rfl, hread, hcolumns, rfl⟩ | ⟨scanner, jobId, read, rfl, -, -, rfl⟩
  · refine .inl ?_
    cases hturn with
    | same hcore => exact (JobRow.agrees hcore).status ▸ hended
    | update => exact (transact_not_update henabled).elim
    | retry => exact absurd hended (by simp [JobRow.retried, JobRow.leaseTo, discardableJobStatuses])
    | graphRetry => exact absurd hended (by simp [JobRow.graphRetried, JobRow.leaseTo, discardableJobStatuses])
    | cancel => exact absurd hended (by simp [JobRow.cancelled, discardableJobStatuses])
    | _ => exact hended
  · cases hturn with
    | same hcore => exact .inl ((JobRow.agrees hcore).status ▸ hended)
    | update hid hleased =>
      change (columns.values job).status ∈ discardableJobStatuses at hended
      rw [JobWrite.values_status] at hended
      cases hstatus : columns.status with
      | none => exact .inl (by simpa [hstatus] using hended)
      | some status =>
        have hends : columns.ends = true := by simpa [JobWrite.ends, hstatus] using hended
        refine .inr ⟨henabled, hid.symm, hends, job, hjob, ?_⟩
        rw [JobRow.updatable, hleased, decide_eq_true rfl]
        rfl
  · cases hturn with
    | same hcore => exact .inl ((JobRow.agrees hcore).status ▸ hended)
    | update hid _ =>
      refine .inr ⟨henabled, hid.symm, ⟨job, hjob, rfl⟩, read, hread, ?_⟩
      rw [hcolumns]
      rfl
  · cases hturn with
    | same hcore => exact .inl ((JobRow.agrees hcore).status ▸ hended)
    | update => exact .inl hended

/-- A job that an action ends has ended. -/
theorem ends_ended {world : World} {action : Action} {jobId : String} (h : world.Ends jobId action) :
    ∃ job' ∈ (action.run world).db.jobs, job'.id = jobId ∧ job'.status ∈ discardableJobStatuses := by
  obtain ⟨henabled, h⟩ := h
  cases action with
  | write columns owner id =>
    obtain ⟨rfl, hends, job, hjob, hupdatable⟩ := h
    have hdb := Action.run_commit henabled rfl
    rw [updateJob_commit] at hdb
    have hid : job.id = id := by
      rw [JobRow.updatable, Bool.and_eq_true, decide_eq_true_eq] at hupdatable
      exact hupdatable.1
    refine ⟨job.update columns.values, hdb ▸ mem_takeJob hjob hupdatable, hid, ?_⟩
    change (columns.values job).status ∈ discardableJobStatuses
    rw [JobWrite.values_status]
    cases hstatus : columns.status with
    | none => simp [JobWrite.ends, hstatus] at hends
    | some status => simpa [JobWrite.ends, hstatus] using hends
  | recover scanner id pathsFound =>
    obtain ⟨rfl, ⟨job, hjob, hid⟩, read, hread, hrecovers⟩ := h
    obtain ⟨columns, hcolumns⟩ := Option.isSome_iff_exists.mp hrecovers
    have hstep : (Action.recover scanner id pathsFound).step world = some (world.unleased id columns) := by
      simp only [Action.step, hread, Option.bind_some, hcolumns, Option.map_some]
    have hdb := Action.run_commit henabled hstep
    rw [World.unleased, updateJob_commit] at hdb
    have hupdatable : job.updatable id none world.now = true := by simp [JobRow.updatable, JobRow.leasedTo, hid]
    refine ⟨job.update columns.values, hdb ▸ mem_takeJob hjob hupdatable, hid, ?_⟩
    obtain ⟨status, hended, hstatus⟩ := recovery_status hcolumns
    change (columns.values job).status ∈ discardableJobStatuses
    rw [JobWrite.values_status, hstatus]
    exact hended
  | _ => exact h.elim

/-- A run waits for its chunks. -/
theorem ready_none {action : Action} {jobId : String} (hready : w.ready action = true) (hends : w.world.Ends jobId action)
    (h : ∀ o ∈ w.claims, o.claim.jobId = jobId → o.atWork = true ∧ action.runOwner = some o.owner) :
    ∀ o ∈ w.claims, o.claim.jobId ≠ jobId := by
  intro o ho hjobId
  obtain ⟨hatWork, howner⟩ := h o ho hjobId
  cases action with
  | write columns owner id =>
    obtain ⟨_, rfl, hcolumns, _⟩ := hends
    cases howner
    rw [ClaimWorld.ready, hcolumns, Bool.true_and, Bool.not_eq_true', List.any_eq_false] at hready
    exact hready o ho (by simp [hatWork, hjobId])
  | _ => cases howner

theorem base_clean_iff (h : w.Tracked) (hclean : w.Clean) {action : Action} (hready : w.ready action = true) :
    (w.base action).Clean ↔ w.Closes (.base action) := by
  obtain ⟨f, hclaims, hf⟩ := base_claims w action
  rw [(h.base hready).clean_iff, hclaims]
  rw [h.clean_iff] at hclean
  constructor
  · intro hafter _ jobId hends o ho hjobId
    obtain ⟨job', hjob', hid, hended⟩ := ends_ended hends
    refine absurd hended (hafter (f o) (List.mem_map_of_mem ho) job' hjob' ?_)
    rw [hf, hid, hjobId]
  · intro hcloses o' ho' job' hjob' hid hended
    obtain ⟨o, ho, rfl⟩ := List.mem_map.mp ho'
    rw [hf] at hid
    rcases action.run_db w.world with hdb | ⟨henabled, step, hstep, hdb⟩
    · change job' ∈ (action.run w.world).db.jobs at hjob'
      rw [hdb] at hjob'
      exact hclean o ho job' hjob' hid hended
    · change job' ∈ (action.run w.world).db.jobs at hjob'
      rw [hdb] at hjob'
      rcases Step.commit_row hjob' with ⟨job, hjob, hturn⟩ | ⟨⟨maxActive, maxRetained, rfl⟩, _⟩
      · rcases ended_of_turn henabled hstep hjob hturn hended with hbefore | hends
        · exact hclean o ho job hjob (hturn.id.symm.trans hid) hbefore
        · exact ready_none hready hends (hcloses hready job.id hends) o ho (hid.symm.trans hturn.id)
      · rcases Action.step_cases hstep with rfl | ⟨_, _, _, _, hupdate⟩ | ⟨_, _, _, _, _, _, _, _, hupdate⟩ |
          ⟨_, _, _, _, _, _, hupdate⟩
        · have hactive : job'.status ∈ recoverableJobStatuses := by simpa [ClaimWorld.ready, Step.isBase] using hready
          exact (active_or_terminal _).mp hactive hended
        · cases hupdate
        · cases hupdate
        · cases hupdate

theorem claim_clean_iff (h : w.Tracked) (hclean : w.Clean) {conflict : Bool} (hworks : (owner, c.jobId) ∈ w.world.workers) :
    (w.afterClaim owner c ((claimStep w.world owner c conflict).run w.db)).Clean ↔
      w.Closes (.claim owner c conflict) := by
  have htracked := h.claim owner c conflict
  have hclaims : (claimStep w.world owner c conflict).Claims w.db c ↔
      ∃ db, (claimStep w.world owner c conflict).run w.db = .ok (true, db) := by
    constructor
    · exact Step.Claims.ok
    · rintro ⟨db, hrun⟩
      refine ⟨some owner, w.world.now, db, hrun, ?_⟩
      cases conflict with
      | false => exact .inl rfl
      | true => exact .inr rfl
  rw [htracked.clean_iff, ClaimWorld.Closes, hclaims, forall_prop_of_true hworks]
  rw [h.clean_iff] at hclean
  have hjobs := claim_jobs w owner c conflict
  rw [hjobs]
  cases hrun : (claimStep w.world owner c conflict).run w.db with
  | error e => simpa [ClaimWorld.afterClaim] using hclean
  | ok r =>
    obtain ⟨taken, db⟩ := r
    cases taken with
    | false => simpa [ClaimWorld.afterClaim] using hclean
    | true =>
      constructor
      · intro hafter _ job hjob hid
        exact hafter _ List.mem_cons_self job hjob hid
      · intro hcloses o ho job hjob hid
        rcases List.mem_cons.mp ho with rfl | ho
        · exact hcloses ⟨db, rfl⟩ job hjob hid
        · exact hclean o (mem_claimsOff.mp ho).1 job hjob hid

theorem mark_clean (h : w.Tracked) (hclean : w.Clean) (owner jobId p k : String) {mark : ManifestMark}
    (hmark : mark.status ∈ markedStatuses) : (w.afterMark jobId p k
      ((Step.mutate (.markManifest p k jobId mark) (some owner) w.world.now).run w.db)).Clean := by
  have htracked := h.mark owner jobId p k hmark
  rw [htracked.clean_iff]
  rw [h.clean_iff] at hclean
  cases hrun : (Step.mutate (.markManifest p k jobId mark) (some owner) w.world.now).run w.db with
  | error e => exact hclean
  | ok r =>
    have hjobs : r.2.jobs = w.db.jobs := by
      obtain ⟨marked, hmarked, rfl⟩ := Fallible.map_ok.mp hrun
      change marked.2.jobs = _
      rw [markManifest_leased hmarked]
    intro o ho job hjob
    change job ∈ r.2.jobs at hjob
    rw [hjobs] at hjob
    exact hclean o (List.mem_filter.mp ho).1 job hjob

/-- What one action does to a clean state. -/
theorem step_clean_iff (h : w.Tracked) (hclean : w.Clean) (action : ClaimAction) :
    (∀ w', w.step action = some w' → w'.Clean) ↔ w.Closes action := by
  cases action with
  | base action =>
    rw [ClaimWorld.step]
    split
    · rename_i hready
      simp only [Option.some.injEq, forall_eq']
      exact base_clean_iff h hclean hready
    · rename_i hready
      simp [ClaimWorld.Closes, hready]
  | claim owner c conflict =>
    rw [ClaimWorld.step]
    split
    · rename_i hworks
      simp only [Option.some.injEq, forall_eq']
      exact claim_clean_iff h hclean (List.contains_iff_mem.mp hworks)
    · rename_i hworks
      rw [List.contains_iff_mem] at hworks
      simp [ClaimWorld.Closes, hworks]
  | adopt owner c =>
    refine iff_of_true (fun w' hstep => ?_) trivial
    rw [ClaimWorld.step] at hstep
    split at hstep
    · cases hstep
      exact hclean
    · cases hstep
  | mark owner jobId p k mark =>
    refine iff_of_true (fun w' hstep => ?_) trivial
    rw [ClaimWorld.step] at hstep
    split at hstep
    · rename_i hmarks
      cases hstep
      exact mark_clean h hclean owner jobId p k hmarks.2
    · cases hstep
  | stop owner p k =>
    refine iff_of_true (fun w' hstep => ?_) trivial
    cases hstep
    exact hclean

/-- **Claims of jobs that have ended.** In every state of a run no job that has ended holds a claim, exactly if no job is
ended while a claim is open that a stopped chunk or another run has left, and no claim is made for a job that has ended. -/
theorem ended_jobs_hold_nothing_iff (h : w.Tracked) (hclean : w.Clean) (actions : List ClaimAction) :
    AlongRun ClaimWorld.step (fun w action => ∀ w', w.step action = some w' → w'.Clean) w actions ↔
      AlongRun ClaimWorld.step ClaimWorld.Closes w actions :=
  alongRun_congr (I := fun w => w.Tracked ∧ w.Clean)
    (fun _ _ _ hw hmay hstep => ⟨hw.1.step hstep, hmay _ hstep⟩)
    (fun _ action hw => step_clean_iff hw.1 hw.2 action) ⟨h, hclean⟩

end

/-! ## A crash before a cancel -/

/-- A run of one job has a worker. -/
def oneRun : ClaimWorld where
  world :=
    { db := { Database.empty with jobs := [runningJob "job" "project" (some "a") (some 100)] }
      now := 0
      workers := [("a", "job")]
      owners := ["a"]
      listed := []
      seen := [] }
  claims := []

theorem oneRun_tracked : oneRun.Tracked := by
  constructor
  · decide
  · exact ⟨List.nodup_nil, List.nodup_nil⟩
  · rintro p k ⟨row, hrow, _⟩
    cases hrow
  · simp [oneRun]

theorem oneRun_clean : oneRun.Clean := by
  intro job _ _ row hrow
  cases hrow

def keyClaim : Claim := ⟨"manifest", "project", "key", "job", "chunk"⟩

/-- A chunk is stored and the run ends. -/
theorem stored_chunk_closes : AlongRun ClaimWorld.step (fun w action => ∀ w', w.step action = some w' → w'.Clean)
    oneRun [.claim "a" keyClaim false, .mark "a" "job" "project" "key" ⟨.succeeded, some [], none⟩,
      .base (.write (.finished false false) "a" "job")] := by
  refine (ended_jobs_hold_nothing_iff oneRun_tracked oneRun_clean _).mpr ⟨?_, ?_⟩
  · intro _ _ job hjob _
    rw [List.mem_singleton.mp hjob]
    decide
  · rintro w₁ ⟨⟩
    refine ⟨trivial, ?_⟩
    rintro w₂ ⟨⟩
    refine ⟨?_, fun _ _ => trivial⟩
    intro _ jobId _ o ho
    cases ho

/-- A run crashes with a claim, its job is cancelled, and the recovery scan ends it. -/
theorem crashed_claim_stays : ¬∀ (w : ClaimWorld) (actions : List ClaimAction), w.Tracked → w.Clean →
    AlongRun ClaimWorld.step (fun w action => ∀ w', w.step action = some w' → w'.Clean) w actions := by
  intro h
  have hrun := h oneRun [.claim "a" keyClaim false, .base (.crash "a"), .base (.transact (.cancel "job" "project")),
    .base (.tick 200), .base (.list "scan"), .base (.look "scan" "job"), .base (.recover "scan" "job" true)]
    oneRun_tracked oneRun_clean
  have hlast := ((((((hrun.2 _ rfl).2 _ rfl).2 _ rfl).2 _ rfl).2 _ rfl).2 _ rfl).1 _ rfl
  exact hlast _ List.mem_cons_self (by decide) _ List.mem_cons_self rfl rfl

end YiQiao
