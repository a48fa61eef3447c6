import Mathlib.Algebra.Order.BigOperators.Group.List
import Mathlib.Algebra.Order.Ring.Nat
import YiQiao.Import.Discard
import YiQiao.Import.Transactions

/-!
# The workspace budget

Uploads of any number of jobs reserve bytes of one budget, in any order and with their transactions interleaved.
The sum stays within the limit, and a job's bytes are what it has reserved since they were last reset.
-/

namespace YiQiao

open Lib Locks

/-! ## What a job has reserved -/

/-- What a commit makes of the bytes that a job has reserved. -/
def Step.book (jobId : String) (db : Database) (reserved : Nat) : Step → Nat
  | .mutate (.reserveWorkspaceBytes id requested _ _) fence now =>
      if id = jobId ∧ hitRows (JobRow.reserves id fence now) db.jobs ≠ 0 then reserved + requested else reserved
  | .createJob row _ _ => if row.id = jobId ∧ db.jobs.any (·.id = row.id) = false then 0 else reserved
  | .deleteUploading owner id now =>
      if id = jobId ∧ (deleteUploadingJob owner id now db).1 = true then 0 else reserved
  | .completeDiscard owner id => if id = jobId ∧ db.jobs.any (JobRow.discardedBy owner id) then 0 else reserved
  | _ => reserved

/-- The bytes that a job has reserved in a log of commits since they were last reset. -/
def reservedBytes (jobId : String) : Database → List Step → Nat → Nat
  | _, [], reserved => reserved
  | db, step :: log, reserved => reservedBytes jobId (step.commit db) log (step.book jobId db reserved)

def Database.commits (db : Database) (log : List Step) : Database := log.foldl (fun db step => step.commit db) db

theorem reservedBytes_append (jobId : String) (db : Database) (log : List Step) (step : Step) (reserved : Nat) :
    reservedBytes jobId db (log ++ [step]) reserved =
      step.book jobId (db.commits log) (reservedBytes jobId db log reserved) := by
  induction log generalizing db reserved with
  | nil => rfl
  | cons first log ih => exact ih (first.commit db) _

/-- The transactions of uploads, and those that leave the bytes of every job. -/
def Step.Uploads (limit : Nat) : Step → Prop
  | .createJob row _ _ => row.workspaceBytes = 0
  | .mutate (.reserveWorkspaceBytes _ _ limit' _) _ _ => limit' = limit
  | .mutate (.updateJob _ values) _ _ => ∀ job, (values job).workspaceBytes = job.workspaceBytes
  | .reconcileBytes .. => False
  | _ => True

/-- Every job has its own id, and the bytes that the books have for it. -/
structure Database.Booked (db : Database) (reserved : String → Nat) : Prop where
  ids : (db.jobs.map JobRow.id).Nodup
  bytes : ∀ job ∈ db.jobs, job.workspaceBytes = reserved job.id

variable {db : Database} {reserved : String → Nat} {limit : Nat}

theorem Database.Booked.take (h : db.Booked reserved) {jobId : String} {hit : JobRow → Bool} {change : JobRow → JobRow}
    (book : Nat → Nat) (hit_id : ∀ job, hit job = true → job.id = jobId) (hid : ∀ job, (change job).id = job.id)
    (hbook : ∀ job, (change job).workspaceBytes = book job.workspaceBytes) :
    (takeJob hit change db).2.Booked fun id =>
      if jobId = id ∧ hitRows hit db.jobs ≠ 0 then book (reserved id) else reserved id := by
  constructor
  · exact (updateRows_map hid).symm ▸ h.ids
  · intro job' hjob'
    rcases mem_updateRows.mp hjob' with ⟨hjob, hnot⟩ | ⟨job, hjob, hhit, rfl⟩
    · -- a row that is hit would be this one
      rw [if_neg]
      · exact h.bytes job' hjob
      · rintro ⟨hid', hhits⟩
        refine hhits (hitRows_eq_zero.mpr fun other hother => ?_)
        by_contra hne
        have hhit : hit other = true := by simpa using hne
        rw [eq_of_key_eq h.ids hother hjob ((hit_id other hhit).trans hid'), hnot] at hhit
        cases hhit
    · rw [hid, if_pos]
      · rw [hbook, h.bytes job hjob]
      · refine ⟨(hit_id job hhit).symm, fun hzero => ?_⟩
        rw [hitRows_eq_zero.mp hzero job hjob] at hhit
        cases hhit

/-- Transactions that leave the bytes leave the books. -/
theorem Database.Booked.turns (h : db.Booked reserved) {db' : Database}
    (hrows : List.Forall₂ (fun job job' => job'.id = job.id ∧ job'.workspaceBytes = job.workspaceBytes)
      db.jobs db'.jobs) : db'.Booked reserved := by
  constructor
  · exact Fallible.forall₂_map_eq hrows (fun _ _ hrow => hrow.1.symm) ▸ h.ids
  · intro job' hjob'
    obtain ⟨job, hjob, hid, hbytes⟩ := Fallible.exists_left_of_mem hrows hjob'
    rw [hbytes, hid]
    exact h.bytes job hjob

theorem Step.Turns.bytes {step : Step} {job job' : JobRow} (h : step.Turns job job') (hok : step.Uploads limit)
    (hreserve : ∀ jobId requested limit seconds fence now,
      step ≠ .mutate (.reserveWorkspaceBytes jobId requested limit seconds) fence now)
    (hcomplete : ∀ owner jobId, step ≠ .completeDiscard owner jobId) :
    job'.id = job.id ∧ job'.workspaceBytes = job.workspaceBytes := by
  cases h with
  | same hcore => exact ⟨(JobRow.agrees hcore).id, (JobRow.agrees hcore).workspaceBytes⟩
  | update => exact ⟨rfl, hok job⟩
  | reserve => exact absurd rfl (hreserve _ _ _ _ _ _)
  | completeDiscard => exact absurd rfl (hcomplete _ _)
  | reconcile => exact hok.elim
  | _ => exact ⟨rfl, rfl⟩

theorem Step.keepsRows_of {step : Step} (hcreate : ∀ row maxActive maxRetained, step ≠ .createJob row maxActive maxRetained)
    (hdelete : ∀ owner jobId now, step ≠ .deleteUploading owner jobId now) : step.keepsRows := by
  cases step with
  | createJob row maxActive maxRetained => exact absurd rfl (hcreate row maxActive maxRetained)
  | deleteUploading owner jobId now => exact absurd rfl (hdelete owner jobId now)
  | _ => trivial

theorem completeDiscard_commit (owner jobId : String) (db : Database) :
    (Step.completeDiscard owner jobId).commit db = (takeJob (JobRow.discardedBy owner jobId) JobRow.discarded db).2 := by
  have hrun : (Step.completeDiscard owner jobId).run db =
      (endDiscard owner jobId (fun job =>
        { job with workspace := none, workspaceBytes := 0, sourceRetryRequired := false }) db).map fun r => (true, r) := rfl
  rw [Step.commit, Step.after, hrun, endDiscard_eq]
  · cases hany : db.jobs.any (JobRow.discardedBy owner jobId) with
    | true => rfl
    | false =>
      exact (congrArg Prod.snd (@takeJob_none db (JobRow.discardedBy owner jobId) JobRow.discarded (by simpa using hany))).symm
  all_goals simp

theorem Database.Booked.create (h : db.Booked reserved) {row : JobRow} (hbytes : row.workspaceBytes = 0)
    (maxActive maxRetained : Option Nat) :
    ((Step.createJob row maxActive maxRetained).commit db).Booked fun id =>
      (Step.createJob row maxActive maxRetained).book id db (reserved id) := by
  refine ⟨Step.commit_ids h.ids _, ?_⟩
  simp only [Step.book]
  rcases createJob_commit row maxActive maxRetained db with ⟨hjobs, job, hjob, hid⟩ | ⟨hjobs, hfresh⟩
  · have hany : db.jobs.any (·.id = row.id) = true := List.any_eq_true.mpr ⟨job, hjob, by simpa using hid⟩
    rw [hjobs, hany]
    simpa using h.bytes
  · have hany : db.jobs.any (·.id = row.id) = false := by simpa using hfresh
    rw [hjobs, hany]
    intro job hjob
    rcases List.mem_append.mp hjob with hjob | hjob
    · rw [if_neg fun hid => hfresh job hjob hid.1.symm]
      exact h.bytes job hjob
    · rw [List.mem_singleton.mp hjob, if_pos ⟨rfl, rfl⟩, hbytes]

theorem Database.Booked.delete (h : db.Booked reserved) (owner jobId : String) (now : Instant) :
    ((Step.deleteUploading owner jobId now).commit db).Booked fun id =>
      (Step.deleteUploading owner jobId now).book id db (reserved id) := by
  refine ⟨Step.commit_ids h.ids _, ?_⟩
  · intro job hjob'
    obtain ⟨hjob, hnot⟩ := List.mem_filter.mp hjob'
    have hjob : job ∈ db.jobs := hjob
    simp only [Step.book]
    rw [if_neg]
    · exact h.bytes job hjob
    · rintro ⟨rfl, hhits⟩
      simp only [deleteUploadingJob, decide_eq_true_eq] at hhits
      refine hhits (hitRows_eq_zero.mpr fun other hother => ?_)
      by_contra hne
      have hhit := Bool.eq_true_of_not_eq_false hne
      simp only [Bool.and_eq_true, decide_eq_true_eq] at hhit
      rw [← eq_of_key_eq h.ids hother hjob hhit.1.1] at hnot
      simp [hhit] at hnot

/-- A commit of an upload is booked. -/
theorem Database.Booked.commit (h : db.Booked reserved) {step : Step} (hok : step.Uploads limit) :
    (step.commit db).Booked fun id => step.book id db (reserved id) := by
  have hother : (∀ jobId requested limit seconds fence now,
        step ≠ .mutate (.reserveWorkspaceBytes jobId requested limit seconds) fence now) →
      (∀ owner jobId, step ≠ .completeDiscard owner jobId) → step.keepsRows → (step.commit db).Booked reserved :=
    fun hreserve hcomplete hrows =>
      h.turns ((Step.commit_turns hrows).imp fun _ _ hturn => hturn.bytes hok hreserve hcomplete)
  cases step with
  | mutate m fence now =>
    cases m with
    | reserveWorkspaceBytes jobId requested limit seconds =>
      refine h.take (· + requested) (fun job hhit => ?_) (fun _ => rfl) (fun _ => rfl)
      simp only [JobRow.reserves, Bool.and_eq_true, decide_eq_true_eq] at hhit
      exact hhit.1
    | _ => exact hother (fun _ _ _ _ _ _ h => by cases h) (fun _ _ h => by cases h) trivial
  | completeDiscard owner jobId =>
    rw [completeDiscard_commit]
    have hhits : db.jobs.any (JobRow.discardedBy owner jobId) = true ↔
        hitRows (JobRow.discardedBy owner jobId) db.jobs ≠ 0 := by simp [hitRows, List.countP_eq_zero]
    simp only [Step.book, hhits]
    refine h.take (fun _ => 0) (fun job hhit => ?_) (fun _ => rfl) (fun _ => rfl)
    simp only [JobRow.discardedBy, Bool.and_eq_true, decide_eq_true_eq] at hhit
    exact hhit.1.1.1
  | createJob row maxActive maxRetained => exact h.create hok maxActive maxRetained
  | deleteUploading owner jobId now => exact h.delete owner jobId now
  | _ => exact hother (fun _ _ _ _ _ _ h => by cases h) (fun _ _ h => by cases h) trivial

/-! ## What is reserved in all -/

/-- A commit that reserves nothing does not raise the sum. -/
theorem usedBytes_commit_le {step : Step} (hok : step.Uploads limit)
    (hreserve : ∀ jobId requested limit seconds fence now,
      step ≠ .mutate (.reserveWorkspaceBytes jobId requested limit seconds) fence now) :
    (step.commit db).usedBytes ≤ db.usedBytes := by
  have hturns : step.keepsRows → (step.commit db).usedBytes ≤ db.usedBytes := by
    intro hrows
    refine List.Forall₂.sum_le_sum ?_
    rw [List.forall₂_map_left_iff, List.forall₂_map_right_iff]
    refine (Step.commit_turns hrows).flip.imp fun job' job hturn => ?_
    by_cases hcomplete : ∃ owner jobId, step = .completeDiscard owner jobId
    · obtain ⟨owner, jobId, rfl⟩ := hcomplete
      cases hturn with
      | same hcore => exact (JobRow.agrees hcore).workspaceBytes.le
      | completeDiscard _ => exact Nat.zero_le _
    · exact (hturn.bytes hok hreserve fun owner jobId h => hcomplete ⟨owner, jobId, h⟩).2.le
  cases step with
  | createJob row maxActive maxRetained =>
    have hbytes : row.workspaceBytes = 0 := hok
    simp only [Step.commit]
    split
    · exact Nat.le_refl _
    · simp [Database.usedBytes, hbytes]
  | deleteUploading owner jobId now => exact (List.filter_sublist.map JobRow.workspaceBytes).sum_le_sum fun _ _ => Nat.zero_le _
  | _ => exact hturns trivial

theorem usedBytes_reserve_le (h : (db.jobs.map JobRow.id).Nodup) (jobId : String) (requested limit : Nat) (seconds : Int)
    (fence : Option String) (now : Instant) :
    ((Step.mutate (.reserveWorkspaceBytes jobId requested limit seconds) fence now).commit db).usedBytes ≤
      db.usedBytes + requested := by
  refine sum_updateRows_le (k := jobId) h (fun job hhit => ?_) fun job => Nat.le_refl _
  simp only [JobRow.reserves, Bool.and_eq_true, decide_eq_true_eq] at hhit
  exact hhit.1

/-- From its check on, a reservation knows that it fits. -/
def Step.Fits (step : Step) (resource : Resource) (db : Database) : Prop :=
  match step with
  | .mutate (.reserveWorkspaceBytes _ requested limit _) _ _ =>
      resource = .workspaceBudget → db.usedBytes + requested ≤ limit
  | _ => True

/-- The books are in order, and within the limit. -/
def Balanced (limit : Nat) (start : Database) (log : List Step) (db : Database) : Prop :=
  db = start.commits log ∧ db.usedBytes ≤ limit ∧ db.Booked fun id => reservedBytes id start log 0

theorem budget_rely (limit : Nat) (start : Database) :
    Rely transactions (Step.Uploads limit) (fun _ _ => True) (Balanced limit start) Step.Fits where
  reads := by
    intro step stage db hok hstage hpasses
    cases step with
    | mutate m fence now =>
      cases m with
      | reserveWorkspaceBytes jobId requested limit seconds =>
        rw [List.mem_singleton.mp hstage] at hpasses ⊢
        intro _
        simp only [Bool.and_eq_true, decide_eq_true_eq] at hpasses
        exact hpasses.2
      | _ => trivial
    | _ => trivial
  keeps := by
    intro step resource other log db hok _ _ hlocks hfits
    cases step with
    | mutate m fence now =>
      cases m with
      | reserveWorkspaceBytes jobId requested limit seconds =>
        intro hresource
        have hle : (other.commit db).usedBytes ≤ db.usedBytes := by
          refine usedBytes_commit_le hok fun jobId requested limit seconds fence now hother => ?_
          subst hother
          exact hlocks _ List.mem_cons_self hresource.symm
        have hfits := hfits hresource
        exact (Nat.add_le_add_right hle _).trans hfits
      | _ => trivial
    | _ => trivial
  commits := by
    rintro step log db hok ⟨rfl, hused, hbooked⟩ - hknows
    refine ⟨by rw [Database.commits, Database.commits, List.foldl_append]; rfl, ?_, ?_⟩
    · by_cases hreserve : ∃ jobId requested limit seconds fence now,
        step = .mutate (.reserveWorkspaceBytes jobId requested limit seconds) fence now
      · obtain ⟨jobId, requested, limit', seconds, fence, now, rfl⟩ := hreserve
        have hfits := hknows _ List.mem_cons_self rfl
        rw [show limit' = limit from hok] at hfits
        exact (usedBytes_reserve_le hbooked.ids jobId requested limit' seconds fence now).trans hfits
      · refine (usedBytes_commit_le hok fun jobId requested limit seconds fence now hstep => ?_).trans hused
        exact hreserve ⟨jobId, requested, limit, seconds, fence, now, hstep⟩
    · simp only [reservedBytes_append]
      exact hbooked.commit hok

/-- **The workspace budget.** However the transactions of uploads are interleaved: the bytes of all jobs stay within
the limit, a job's bytes are what it has reserved since they were last reset, and only a commit changes anything: a
transaction that is refused under its lock does not come to one, and the commit of a reservation without its lease
changes nothing. -/
theorem uploads_within_budget (start : Database) (limit : Nat) (events : List (Event String Step))
    (h : Begins (Step.Uploads limit) events) :
    let empty : Database := { start with jobs := [] }
    let m := transactions.run (.fresh empty) events
    m.state.usedBytes ≤ limit ∧
    (∀ job ∈ m.state.jobs, job.workspaceBytes = reservedBytes job.id empty m.log 0) ∧
    (∀ event, let m' := transactions.next m event
      (m'.log = m.log → m'.state = m.state) ∧ ∀ step, m'.log = m.log ++ [step] → m'.state = step.commit m.state) ∧
    (∀ jobId requested seconds fence now, m.state.allows (some (leaseOwnerText fence)) jobId now = false →
      (Step.mutate (.reserveWorkspaceBytes jobId requested limit seconds) fence now).commit m.state = m.state) := by
  intro empty m
  have hadmits : ∀ (db : Database) (log : List Step), transactions.Admits (fun _ _ => True) db log := by
    intro db log
    induction log generalizing db with
    | nil => trivial
    | cons step log ih => exact ⟨trivial, ih _⟩
  have hstart : Balanced limit empty [] empty := ⟨rfl, Nat.zero_le _, List.nodup_nil, fun _ hjob => nomatch hjob⟩
  obtain ⟨-, hused, hbooked⟩ := (budget_rely limit empty).run h hstart (hadmits empty _)
  refine ⟨hused, hbooked.bytes, fun event => ⟨?_, ?_⟩, ?_⟩
  · intro hlog
    rcases next_cases m event with ⟨hstate, -⟩ | ⟨who, step, passed, -, -, -, hlog'⟩
    · exact hstate
    · rw [hlog'] at hlog
      simp at hlog
  · intro step hlog
    rcases next_cases m event with ⟨-, hlog'⟩ | ⟨who, step', passed, -, -, hstate, hlog'⟩
    · rw [hlog'] at hlog
      simp at hlog
    · rw [hlog'] at hlog
      rw [hstate, List.singleton_inj.mp (List.append_cancel_left hlog)]
      rfl
  · intro jobId requested seconds fence now hlost
    refine congrArg Prod.snd (takeJob_none ?_)
    simpa [Database.allows, JobRow.reserves] using hlost

/-- Two uploads reserve what only one of them can have. -/
def twoUploads : List (Event String Step) :=
  [.begin "a" (.createJob (runningJob "a" "project" (some "a") (some 90)) none none), .commit "a",
    .begin "b" (.createJob (runningJob "b" "project" (some "b") (some 90)) none none), .commit "b",
    .begin "a" (.mutate (.reserveWorkspaceBytes "a" 5 8 60) (some "a") 10),
    .begin "b" (.mutate (.reserveWorkspaceBytes "b" 5 8 60) (some "b") 10),
    .enter "a", .enter "b", .commit "a", .enter "b", .commit "b"]

theorem uploads_within_budget_two :
    (transactions.run (.fresh Database.empty) twoUploads).state.usedBytes ≤ 8 ∧
      (transactions.run (.fresh Database.empty) twoUploads).log.length = 3 := by
  refine ⟨(uploads_within_budget Database.empty 8 twoUploads ?_).1, by decide⟩
  intro event hevent who step hbegin
  subst hbegin
  simp only [twoUploads, List.mem_cons, Event.begin.injEq, reduceCtorEq, false_or, List.not_mem_nil, or_false] at hevent
  rcases hevent with ⟨-, rfl⟩ | ⟨-, rfl⟩ | ⟨-, rfl⟩ | ⟨-, rfl⟩
  · rfl
  · rfl
  · rfl
  · rfl

end YiQiao
