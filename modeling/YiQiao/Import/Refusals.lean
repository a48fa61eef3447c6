import YiQiao.Import.Fence
import YiQiao.Import.HashRecords

/-!
# Refused claims

Chunks of one conversation claim the hashes of their facts in any order of steps, and a fact whose claim is
refused is dropped. It is stored in the end where the chunk that holds the claim goes on to mark it.
-/

namespace YiQiao

open Lib

/-! ## Chunks in progress -/

structure ChunkRef where
  jobId : String
  chunkId : String
  deriving DecidableEq, Repr

/-- How far an attempt of a chunk has come, with the hashes that it has claimed and those that were refused. -/
inductive Phase where
  | idle
  /-- In the loop over the extracted memories. -/
  | claiming (claimed refused : List String)
  /-- The rows are written. -/
  | stored (claimed refused : List String)
  /-- The hashes are marked. -/
  | marked (refused : List String)
  deriving DecidableEq, Repr

/-- The claims that the attempt is going to mark. -/
def Phase.claimed : Phase → List String
  | .claiming claimed _ | .stored claimed _ => claimed
  | _ => []

def Phase.refused : Phase → List String
  | .claiming _ refused | .stored _ refused | .marked refused => refused
  | .idle => []

/-- A conversation: its records, its chunks, and the hashes that were refused to a chunk that succeeded. -/
structure ConversationState where
  db : Database
  phase : ChunkRef → Phase
  dropped : List String

/-- A step of a chunk, or of another conversation. -/
inductive ChunkEvent where
  /-- An attempt begins. -/
  | begin (c : ChunkRef)
  /-- An attempt begins that finds the rows of an earlier one, with these hashes. -/
  | reconcile (c : ChunkRef) (hashes : List String)
  /-- The callback `claim_memory_hash`, with the memory that its job had found for the hash. -/
  | claim (c : ChunkRef) (id hash : String) (legacy : Option String) (fence : Option String) (now : Instant)
  /-- The rows are written. -/
  | insert (c : ChunkRef)
  /-- `_store_memory` raises, and the handler releases the claims. -/
  | raise (c : ChunkRef) (fence : Option String) (now : Instant)
  | mark (c : ChunkRef) (idByHash : List (String × String)) (fence : Option String) (now : Instant)
  /-- The chunk succeeds. -/
  | finish (c : ChunkRef)
  /-- The attempt ends without a handler: the process dies, or something after the storage fails. -/
  | stop (c : ChunkRef)
  /-- A chunk that is not in progress is cancelled, split or superseded. -/
  | release (c : ChunkRef) (fence : Option String) (now : Instant)

def ChunkEvent.chunk : ChunkEvent → ChunkRef
  | .begin c | .reconcile c _ | .claim c _ _ _ _ _ | .insert c | .raise c _ _ | .mark c _ _ _ | .finish c | .stop c
  | .release c _ _ => c

namespace ConversationState

def enter (w : ConversationState) (c : ChunkRef) (phase : Phase) : ConversationState :=
  { w with phase := Function.update w.phase c phase }

variable (projectId conversationId : String)

/-- The callback `claim_memory_hash`: whether the chunk may store the fact. -/
def claimCallback (c : ChunkRef) (id hash : String) (legacy fence : Option String) (now : Instant) (db : Database) :
    Except RepositoryError (Bool × Database) := do
  let claimed ← claimMemoryHash fence ⟨id, projectId, conversationId, hash, c.jobId, c.chunkId⟩ now db
  match legacy with
  | none => pure claimed
  | some memoryId =>
      if claimed.1 then do
        let db ← markMemoryHashesSucceeded fence projectId conversationId c.jobId c.chunkId [hash] [(hash, memoryId)]
          now claimed.2
        pure (false, db)
      else pure (false, claimed.2)

/-- A step that can be taken; an error of the repository is no step of its own, but a reason to raise or to stop. -/
def step (w : ConversationState) : ChunkEvent → Option ConversationState
  | .begin c =>
      match w.phase c with
      | .idle => some (w.enter c (.claiming [] []))
      | _ => none
  | .reconcile c hashes =>
      match w.phase c with
      | .idle => some (w.enter c (.stored hashes []))
      | _ => none
  | .claim c id hash legacy fence now =>
      match w.phase c, claimCallback projectId conversationId c id hash legacy fence now w.db with
      | .claiming claimed refused, .ok (true, db) =>
          some ({ w with db }.enter c (.claiming (claimed ++ [hash]) refused))
      | .claiming claimed refused, .ok (false, db) =>
          some ({ w with db }.enter c (.claiming claimed (refused ++ [hash])))
      | _, _ => none
  | .insert c =>
      match w.phase c with
      | .claiming claimed refused => some (w.enter c (.stored claimed refused))
      | _ => none
  | .raise c fence now =>
      match w.phase c, releaseMemoryHashes fence c.jobId c.chunkId (some (w.phase c).claimed) now w.db with
      | .claiming _ _, .ok (_, db) | .stored _ _, .ok (_, db) => some ({ w with db }.enter c .idle)
      | _, _ => none
  | .mark c idByHash fence now =>
      match w.phase c, markMemoryHashesSucceeded fence projectId conversationId c.jobId c.chunkId
          (w.phase c).claimed idByHash now w.db with
      | .stored _ refused, .ok db => some ({ w with db }.enter c (.marked refused))
      | _, _ => none
  | .finish c =>
      match w.phase c with
      | .marked refused => some { w.enter c .idle with dropped := w.dropped ++ refused }
      | _ => none
  | .stop c => some (w.enter c .idle)
  | .release c fence now =>
      match w.phase c, releaseMemoryHashes fence c.jobId c.chunkId none now w.db with
      | .idle, .ok (_, db) => some { w with db }
      | _, _ => none

def run (w : ConversationState) (events : List ChunkEvent) : Option ConversationState :=
  events.foldlM (fun w event => w.step projectId conversationId event) w

/-! ## When nothing is lost -/

/-- The hash was refused to a chunk that has succeeded or may still succeed. -/
def Needs (w : ConversationState) (hash : String) : Prop := hash ∈ w.dropped ∨ ∃ c, hash ∈ (w.phase c).refused

/-- The record of a hash was marked, or is going to be marked by the attempt that has claimed it. -/
def Secured (w : ConversationState) (hash : String) : Prop :=
  ∃ row, w.db.hashAt projectId conversationId hash = some row ∧
    (row.status = .succeeded ∨ ∃ c, hash ∈ (w.phase c).claimed ∧ row.claimedBy c.jobId c.chunkId none = true)

/-- No claim is refused for one that was abandoned, and no attempt gives up a claim that was refused to others. -/
def Careful (w : ConversationState) : ChunkEvent → Prop
  | .claim _ _ hash _ _ _ =>
      ∀ row, w.db.hashAt projectId conversationId hash = some row → row.status ∉ reclaimableStatuses →
        w.Secured projectId conversationId hash
  | .raise c _ _ | .stop c => ∀ hash ∈ (w.phase c).claimed, ¬ w.Needs hash
  | _ => True

/-- Every step of a run is careful. -/
def AllCareful (w : ConversationState) : List ChunkEvent → Prop
  | [] => True
  | event :: events => w.Careful projectId conversationId event ∧
      ∀ w', w.step projectId conversationId event = some w' → w'.AllCareful events

/-! ## One step -/

section

variable {projectId conversationId : String} {w w' : ConversationState} {hash : String} {db : Database}

theorem Secured.enter {c : ChunkRef} {phase : Phase} (h : w.Secured projectId conversationId hash)
    (hkeep : hash ∈ (w.phase c).claimed → hash ∈ phase.claimed) :
    (w.enter c phase).Secured projectId conversationId hash := by
  obtain ⟨row, hrow, hmarked | ⟨c', hclaimed, hby⟩⟩ := h
  · exact ⟨row, hrow, .inl hmarked⟩
  · refine ⟨row, hrow, .inr ⟨c', ?_, hby⟩⟩
    by_cases hc : c' = c
    · subst hc
      simpa [ConversationState.enter] using hkeep hclaimed
    · simpa [ConversationState.enter, hc] using hclaimed

/-- A change of the records that leaves the record of the hash, or marks it. -/
theorem Secured.write (h : w.Secured projectId conversationId hash)
    (hdb : ∀ row, w.db.hashAt projectId conversationId hash = some row →
      ∃ row', db.hashAt projectId conversationId hash = some row' ∧ (row' = row ∨ row'.status = .succeeded)) :
    ({ w with db } : ConversationState).Secured projectId conversationId hash := by
  obtain ⟨row, hrow, hsecured⟩ := h
  obtain ⟨row', hrow', rfl | hmarked⟩ := hdb row hrow
  · exact ⟨row', hrow', hsecured⟩
  · exact ⟨row', hrow', .inl hmarked⟩

theorem Secured.status {row : HashRow} (h : w.Secured projectId conversationId hash)
    (hrow : w.db.hashAt projectId conversationId hash = some row) : row.status ∉ reclaimableStatuses := by
  obtain ⟨row', hrow', hmarked | ⟨c, -, hby⟩⟩ := h
  · cases hrow.symm.trans hrow'
    simp [hmarked, reclaimableStatuses]
  · cases hrow.symm.trans hrow'
    simp [(HashRow.claimedBy_iff.mp hby).2.2, reclaimableStatuses]

/-- A secured record is out of reach of the claims of others. -/
theorem Secured.claimed {c : HashClaim} {answer : Bool} (h : w.Secured projectId conversationId hash)
    (hclaim : Claimed c answer w.db db) : ({ w with db } : ConversationState).Secured projectId conversationId hash := by
  refine h.write fun row hrow => ⟨row, ?_, .inl rfl⟩
  by_cases hkey : (projectId, conversationId, hash) = c.key
  · simp only [HashClaim.key, Prod.mk.injEq] at hkey
    obtain ⟨rfl, rfl, rfl⟩ := hkey
    cases answer with
    | true => exact absurd ((hclaim.taken rfl).1 row hrow) (h.status hrow)
    | false => rwa [(hclaim.refused rfl).1]
  · rw [hclaim.others _ _ _ hkey, hrow]

theorem Secured.marked {jobId chunkId : String} {hashes : List String} {ids : List (String × String)}
    (h : w.Secured projectId conversationId hash)
    (hmark : Marked projectId conversationId jobId chunkId hashes ids w.db db) :
    ({ w with db } : ConversationState).Secured projectId conversationId hash := by
  refine h.write fun row hrow => ⟨_, by rw [hmark.marks, hrow, Option.map_some], ?_⟩
  rw [HashRow.marked]
  split
  · exact .inr rfl
  · exact .inl rfl

/-- The record of a claim that is marked is a success. -/
theorem secured_of_marked {c : ChunkRef} {hashes : List String} {ids : List (String × String)} {row : HashRow}
    (hrow : w.db.hashAt projectId conversationId hash = some row) (hby : row.claimedBy c.jobId c.chunkId none = true)
    (hmem : hash ∈ hashes) (hmark : Marked projectId conversationId c.jobId c.chunkId hashes ids w.db db) :
    ∃ row', db.hashAt projectId conversationId hash = some row' ∧ row'.status = .succeeded := by
  have hkey := (hashAt_some hrow).2
  simp only [HashRow.key, Prod.mk.injEq] at hkey
  refine ⟨_, by rw [hmark.marks, hrow, Option.map_some], ?_⟩
  rw [HashRow.marked, if_pos ⟨hkey.2.2 ▸ hmem, hby⟩]

theorem releaseMemoryHashes_unique {c : ChunkRef} {given : Option (List String)} {fence : Option String}
    {now : Instant} {count : Nat} (hu : w.db.HashesUnique)
    (hrelease : releaseMemoryHashes fence c.jobId c.chunkId given now w.db = .ok (count, db)) : db.HashesUnique := by
  rw [releaseMemoryHashes] at hrelease
  split at hrelease
  · obtain ⟨_, _, hsame⟩ := Fallible.bind_ok.mp hrelease
    cases hsame
    exact hu
  · obtain ⟨_, _, hsame⟩ := Fallible.bind_ok.mp hrelease
    cases hsame
    exact hu.release

/-- A release takes only the claims of its own chunk. -/
theorem Secured.released {c : ChunkRef} {given : Option (List String)} {fence : Option String} {now : Instant}
    {count : Nat} (hu : w.db.HashesUnique) (h : w.Secured projectId conversationId hash)
    (hown : hash ∉ (w.phase c).claimed)
    (hrelease : releaseMemoryHashes fence c.jobId c.chunkId given now w.db = .ok (count, db)) :
    ({ w with db } : ConversationState).Secured projectId conversationId hash := by
  rw [releaseMemoryHashes] at hrelease
  split at hrelease
  · obtain ⟨_, _, hsame⟩ := Fallible.bind_ok.mp hrelease
    cases hsame
    exact h
  · obtain ⟨_, _, hsame⟩ := Fallible.bind_ok.mp hrelease
    cases hsame
    obtain ⟨row, hrow, hsecured⟩ := h
    refine ⟨row, ?_, hsecured⟩
    rw [hashAt_release hu, hrow]
    have hmiss : row.claimedBy c.jobId c.chunkId given = false := by
      rcases hsecured with hmarked | ⟨c', hclaimed, hby⟩
      · simp [HashRow.claimedBy, hmarked]
      · obtain ⟨hjob, hchunk, -⟩ := HashRow.claimedBy_iff.mp hby
        rw [Bool.eq_false_iff]
        intro hsame
        simp only [HashRow.claimedBy, Bool.and_eq_true, decide_eq_true_eq, hjob, hchunk, Option.some.injEq] at hsame
        obtain ⟨⟨⟨hjob', hchunk'⟩, -⟩, -⟩ := hsame
        cases c
        cases c'
        cases hjob'
        cases hchunk'
        exact hown hclaimed
    simp [hmiss]

/-- What the callback did to the records. -/
theorem claimCallback_ok {c : ChunkRef} {id : String} {legacy fence : Option String} {now : Instant} {answer : Bool}
    {db₀ : Database} (hu : db₀.HashesUnique)
    (h : claimCallback projectId conversationId c id hash legacy fence now db₀ = .ok (answer, db)) :
    ∃ claimed db₁, Claimed ⟨id, projectId, conversationId, hash, c.jobId, c.chunkId⟩ claimed db₀ db₁ ∧
      ((answer = claimed ∧ db = db₁) ∨
        (answer = false ∧ claimed = true ∧
          ∃ ids, Marked projectId conversationId c.jobId c.chunkId [hash] ids db₁ db)) := by
  rw [claimCallback, Fallible.bind_ok] at h
  obtain ⟨⟨claimed, db₁⟩, hclaim, h⟩ := h
  refine ⟨claimed, db₁, claimMemoryHash_claimed hu hclaim, ?_⟩
  cases legacy with
  | none =>
      cases h
      exact .inl ⟨rfl, rfl⟩
  | some memoryId =>
      cases claimed with
      | false =>
          cases h
          exact .inl ⟨rfl, rfl⟩
      | true =>
          obtain ⟨db₂, hmark, h⟩ := Fallible.bind_ok.mp h
          cases h
          exact .inr ⟨rfl, rfl, _, markMemoryHashesSucceeded_marked hmark⟩

end

/-- Every hash that was refused is stored, or is held by the attempt that is going to store it. -/
structure NothingLost (w : ConversationState) : Prop where
  unique : w.db.HashesUnique
  secured : ∀ hash, w.Needs hash → w.Secured projectId conversationId hash

section

variable {projectId conversationId : String} {w w' : ConversationState} {db : Database}

theorem Needs.of_enter {hash : String} {c : ChunkRef} {phase : Phase} (h : (w.enter c phase).Needs hash)
    (hrefused : phase.refused ⊆ (w.phase c).refused) : w.Needs hash := by
  rcases h with hdropped | ⟨c', hc'⟩
  · exact .inl hdropped
  · by_cases hc : c' = c
    · subst hc
      simp only [ConversationState.enter, Function.update_self] at hc'
      exact .inr ⟨c', hrefused hc'⟩
    · simp only [ConversationState.enter, Function.update_of_ne hc] at hc'
      exact .inr ⟨c', hc'⟩

/-- A change of phase that neither drops a claim that somebody needs nor refuses a hash. -/
theorem NothingLost.enter {c : ChunkRef} {phase : Phase} (h : w.NothingLost projectId conversationId)
    (hrefused : phase.refused ⊆ (w.phase c).refused)
    (hkeep : ∀ hash ∈ (w.phase c).claimed, w.Needs hash → hash ∈ phase.claimed) :
    (w.enter c phase).NothingLost projectId conversationId :=
  ⟨h.unique, fun hash hneeds =>
    have hbefore := Needs.of_enter hneeds hrefused
    (h.secured hash hbefore).enter fun hmem => hkeep hash hmem hbefore⟩

/-- The claim was granted, so that nobody has been refused the hash. -/
theorem NothingLost.claimed {c : ChunkRef} {hash : String} {claimed refused : List String} {answer : Bool}
    {claim : HashClaim} (h : w.NothingLost projectId conversationId) (hphase : w.phase c = .claiming claimed refused)
    (hclaim : Claimed claim answer w.db db) :
    (({ w with db } : ConversationState).enter c (.claiming (claimed ++ [hash]) refused)).NothingLost
      projectId conversationId := by
  have hwritten : ({ w with db } : ConversationState).NothingLost projectId conversationId :=
    ⟨hclaim.unique, fun hash hneeds => (h.secured hash hneeds).claimed hclaim⟩
  apply hwritten.enter
  · simp [hphase, Phase.refused]
  · intro hash' hmem _
    simp only [hphase, Phase.claimed] at hmem
    simp [Phase.claimed, hmem]

/-- The claim was refused, so that the chunk drops its copy. -/
theorem NothingLost.refused {c : ChunkRef} {hash : String} {claimed refused : List String}
    (h : w.NothingLost projectId conversationId) (hphase : w.phase c = .claiming claimed refused)
    (hsecured : w.Secured projectId conversationId hash) :
    (w.enter c (.claiming claimed (refused ++ [hash]))).NothingLost projectId conversationId := by
  refine ⟨h.unique, fun hash' hneeds => ?_⟩
  have hstays : w.Secured projectId conversationId hash' := by
    rcases hneeds with hdropped | ⟨c', hc'⟩
    · exact h.secured hash' (.inl hdropped)
    · by_cases hc : c' = c
      · subst hc
        simp only [ConversationState.enter, Function.update_self, Phase.refused, List.mem_append,
          List.mem_singleton] at hc'
        rcases hc' with hold | rfl
        · exact h.secured hash' (.inr ⟨c', by simpa [hphase, Phase.refused] using hold⟩)
        · exact hsecured
      · simp only [ConversationState.enter, Function.update_of_ne hc] at hc'
        exact h.secured hash' (.inr ⟨c', hc'⟩)
  exact hstays.enter fun hmem => by simpa [hphase, Phase.claimed] using hmem

/-- What was marked needs no attempt any more. -/
theorem NothingLost.marked {c : ChunkRef} {claimed refused : List String} {ids : List (String × String)}
    (h : w.NothingLost projectId conversationId) (hphase : w.phase c = .stored claimed refused)
    (hmark : Marked projectId conversationId c.jobId c.chunkId claimed ids w.db db) :
    (({ w with db } : ConversationState).enter c (.marked refused)).NothingLost projectId conversationId := by
  refine ⟨hmark.unique h.unique, fun hash hneeds => ?_⟩
  have hbefore : w.Needs hash :=
    @Needs.of_enter { w with db } hash c (.marked refused) hneeds (by simp [hphase, Phase.refused])
  obtain ⟨row, hrow, hsecured⟩ := h.secured hash hbefore
  have hstays := (h.secured hash hbefore).marked hmark
  by_cases hmem : hash ∈ claimed ∧ row.claimedBy c.jobId c.chunkId none = true
  · obtain ⟨row', hrow', hsucceeded⟩ := secured_of_marked hrow hmem.2 hmem.1 hmark
    exact ⟨row', hrow', .inl hsucceeded⟩
  · obtain ⟨row', hrow', hsucceeded | ⟨c', hclaimed, hby⟩⟩ := hstays
    · exact ⟨row', hrow', .inl hsucceeded⟩
    · refine ⟨row', hrow', .inr ⟨c', ?_, hby⟩⟩
      have hsame : row' = row := by
        rw [hmark.marks, hrow, Option.map_some, Option.some_inj] at hrow'
        rw [← hrow', HashRow.marked]
        split
        · rename_i hdone
          rw [← hrow', HashRow.marked, if_pos hdone, HashRow.claimedBy_iff] at hby
          cases hby.2.2
        · rfl
      by_cases hc : c' = c
      · subst hc
        simp only [hphase, Phase.claimed] at hclaimed
        exact absurd ⟨hclaimed, hsame ▸ hby⟩ hmem
      · simpa [ConversationState.enter, hc] using hclaimed

theorem step_keeps {event : ChunkEvent} (h : w.NothingLost projectId conversationId)
    (hcareful : w.Careful projectId conversationId event)
    (hstep : w.step projectId conversationId event = some w') : w'.NothingLost projectId conversationId := by
  cases event with
  | begin c =>
      simp only [step] at hstep
      split at hstep <;> cases hstep
      rename_i hphase
      exact h.enter (by simp [Phase.refused]) (by simp [hphase, Phase.claimed])
  | reconcile c hashes =>
      simp only [step] at hstep
      split at hstep <;> cases hstep
      rename_i hphase
      exact h.enter (by simp [Phase.refused]) (by simp [hphase, Phase.claimed])
  | claim c id hash legacy fence now =>
      simp only [step] at hstep
      split at hstep <;> cases hstep
      · rename_i claimed refused db hphase hcallback
        obtain ⟨answer, db₁, hclaim, ⟨-, rfl⟩ | ⟨hfalse, -⟩⟩ := claimCallback_ok h.unique hcallback
        · exact h.claimed hphase hclaim
        · cases hfalse
      · rename_i claimed refused db hphase hcallback
        obtain ⟨answer, db₁, hclaim, ⟨hanswer, rfl⟩ | ⟨-, htrue, ids, hmark⟩⟩ := claimCallback_ok h.unique hcallback
        · obtain ⟨hsame, row, hrow, hstatus⟩ := hclaim.refused hanswer.symm
          have hsecured := hcareful row hrow hstatus
          rw [hsame]
          exact h.refused hphase hsecured
        · -- The memory was there before the import knew of its hash.
          have hwritten : ({ w with db } : ConversationState).NothingLost projectId conversationId :=
            ⟨hmark.unique hclaim.unique, fun hash' hneeds =>
              Secured.marked (w := { w with db := db₁ }) ((h.secured hash' hneeds).claimed hclaim) hmark⟩
          obtain ⟨-, row, hrow, hclaimed, hjob, hchunk⟩ := hclaim.taken htrue
          obtain ⟨row', hrow', hsucceeded⟩ := secured_of_marked (w := { w with db := db₁ }) hrow
            (HashRow.claimedBy_iff.mpr ⟨hjob, hchunk, hclaimed⟩) (List.mem_singleton_self _) hmark
          exact hwritten.refused hphase ⟨row', hrow', .inl hsucceeded⟩
  | insert c =>
      simp only [step] at hstep
      split at hstep <;> cases hstep
      rename_i claimed refused hphase
      exact h.enter (by simp [hphase, Phase.refused]) fun hash hmem _ => by simpa [hphase, Phase.claimed] using hmem
  | raise c fence now =>
      have hgives : ∀ count db, releaseMemoryHashes fence c.jobId c.chunkId (some (w.phase c).claimed) now w.db =
          .ok (count, db) → (({ w with db } : ConversationState).enter c .idle).NothingLost projectId conversationId := by
        intro count db hrelease
        have hwritten : ({ w with db } : ConversationState).NothingLost projectId conversationId :=
          ⟨releaseMemoryHashes_unique h.unique hrelease, fun hash hneeds =>
            (h.secured hash hneeds).released h.unique (fun hmem => hcareful hash hmem hneeds) hrelease⟩
        exact hwritten.enter (by simp [Phase.refused]) fun hash hmem hneeds => absurd hneeds (hcareful hash hmem)
      simp only [step] at hstep
      split at hstep <;> cases hstep
      · exact hgives _ _ ‹_›
      · exact hgives _ _ ‹_›
  | mark c idByHash fence now =>
      simp only [step] at hstep
      split at hstep <;> cases hstep
      rename_i claimed refused db hphase hmark
      rw [hphase] at hmark
      exact h.marked hphase (markMemoryHashesSucceeded_marked hmark)
  | finish c =>
      simp only [step] at hstep
      split at hstep <;> cases hstep
      rename_i refused hphase
      have hidle : (w.enter c .idle).NothingLost projectId conversationId :=
        h.enter (by simp [Phase.refused]) (by simp [hphase, Phase.claimed])
      refine ⟨h.unique, fun hash hneeds => ?_⟩
      have hbefore : w.Needs hash := by
        rcases hneeds with hdropped | hc'
        · rcases List.mem_append.mp hdropped with hold | hnew
          · exact .inl hold
          · exact .inr ⟨c, by simpa [hphase, Phase.refused] using hnew⟩
        · exact @Needs.of_enter w hash c .idle (.inr hc') (by simp [Phase.refused])
      exact (h.secured hash hbefore).enter fun hmem => by simp [hphase, Phase.claimed] at hmem
  | stop c =>
      simp only [step] at hstep
      cases hstep
      exact h.enter (by simp [Phase.refused]) fun hash hmem hneeds => absurd hneeds (hcareful hash hmem)
  | release c fence now =>
      simp only [step] at hstep
      split at hstep <;> cases hstep
      rename_i count db hphase hrelease
      have hnone : ∀ hash, hash ∉ (w.phase c).claimed := by simp [hphase, Phase.claimed]
      exact ⟨releaseMemoryHashes_unique h.unique hrelease, fun hash hneeds =>
        (h.secured hash hneeds).released h.unique (hnone hash) hrelease⟩

theorem run_keeps {events : List ChunkEvent} (h : w.NothingLost projectId conversationId)
    (hcareful : w.AllCareful projectId conversationId events)
    (hrun : w.run projectId conversationId events = some w') : w'.NothingLost projectId conversationId := by
  induction events generalizing w with
  | nil =>
      cases hrun
      exact h
  | cons event events ih =>
      rw [run, List.foldlM_cons, Option.bind_eq_bind, Option.bind_eq_some_iff] at hrun
      obtain ⟨next, hstep, hrun⟩ := hrun
      exact ih (step_keeps h hcareful.1 hstep) (hcareful.2 next hstep) hrun

/-- A conversation in which no chunk is in progress, and no chunk has had a claim refused so far. -/
structure Quiet (w : ConversationState) : Prop where
  unique : w.db.HashesUnique
  idle : ∀ c, w.phase c = .idle
  fresh : w.dropped = []

/-- In a run of careful steps every fact that a successful chunk dropped is stored once no chunk is in progress. -/
theorem refused_facts_stored {events : List ChunkEvent} {hash : String} (h : w.Quiet)
    (hcareful : w.AllCareful projectId conversationId events)
    (hrun : w.run projectId conversationId events = some w') (hidle : ∀ c, w'.phase c = .idle)
    (hdropped : hash ∈ w'.dropped) :
    ∃ row, w'.db.hashAt projectId conversationId hash = some row ∧ row.status = .succeeded := by
  have hlost : w.NothingLost projectId conversationId := by
    refine ⟨h.unique, fun hash hneeds => ?_⟩
    rcases hneeds with hmem | ⟨c, hmem⟩
    · simp [h.fresh] at hmem
    · simp [h.idle, Phase.refused] at hmem
  obtain ⟨row, hrow, hsucceeded | ⟨c, hclaimed, -⟩⟩ := (run_keeps hlost hcareful hrun).secured hash (.inl hdropped)
  · exact ⟨row, hrow, hsucceeded⟩
  · simp [hidle, Phase.claimed] at hclaimed

/-! ## Two chunks with one fact -/

theorem AllCareful.cons {event : ChunkEvent} {events : List ChunkEvent}
    (hstep : w.step projectId conversationId event = some w') (hcareful : w.Careful projectId conversationId event)
    (hrest : w'.AllCareful projectId conversationId events) :
    w.AllCareful projectId conversationId (event :: events) :=
  ⟨hcareful, fun w'' hstep' => by
    cases hstep.symm.trans hstep'
    exact hrest⟩

/-- A chunk comes to nothing by the steps of others. -/
theorem step_phase {event : ChunkEvent} {c : ChunkRef} (hstep : w.step projectId conversationId event = some w')
    (hother : c ≠ event.chunk) : w'.phase c = w.phase c := by
  cases event <;> simp only [step] at hstep <;> simp only [ChunkEvent.chunk] at hother <;>
    (try split at hstep) <;> cases hstep <;> simp [ConversationState.enter, hother]

theorem run_phase {events : List ChunkEvent} {c : ChunkRef}
    (hrun : w.run projectId conversationId events = some w') (hothers : ∀ event ∈ events, c ≠ event.chunk) :
    w'.phase c = w.phase c := by
  induction events generalizing w with
  | nil =>
      cases hrun
      rfl
  | cons event events ih =>
      rw [run, List.foldlM_cons, Option.bind_eq_bind, Option.bind_eq_some_iff] at hrun
      obtain ⟨next, hstep, hrun⟩ := hrun
      rw [ih hrun fun event' hmem => hothers event' (List.mem_cons_of_mem _ hmem),
        step_phase hstep (hothers event List.mem_cons_self)]

end

def firstHalf : ChunkRef := ⟨"job", "first"⟩

def secondHalf : ChunkRef := ⟨"job", "second"⟩

def quietTalk : ConversationState where
  db := { Database.empty with jobs := [runningJob "job" "project" (some "worker") (some 90)] }
  phase := fun _ => .idle
  dropped := []

theorem quietTalk_quiet : quietTalk.Quiet := ⟨⟨List.nodup_nil, List.nodup_nil⟩, fun _ => rfl, rfl⟩

/-- Both chunks have the fact, and the first one has claimed it. -/
def bothClaim : List ChunkEvent :=
  [.begin firstHalf, .claim firstHalf "1" "#x" none (some "worker") 10, .begin secondHalf,
    .claim secondHalf "2" "#x" none (some "worker") 11]

/-- The second chunk succeeds. -/
def secondSucceeds : List ChunkEvent :=
  [.insert secondHalf, .mark secondHalf [] (some "worker") 12, .finish secondHalf]

/-- The first chunk succeeds as well. -/
def firstSucceeds : List ChunkEvent :=
  [.insert firstHalf, .mark firstHalf [("#x", "id-#x")] (some "worker") 13, .finish firstHalf]

def afterEvents (events : List ChunkEvent) : ConversationState :=
  (quietTalk.run "project" "talk" events).getD quietTalk

theorem afterEvents_idle {events : List ChunkEvent}
    (hrun : quietTalk.run "project" "talk" events = some (afterEvents events))
    (hchunks : ∀ event ∈ events, event.chunk = firstHalf ∨ event.chunk = secondHalf)
    (hfirst : (afterEvents events).phase firstHalf = .idle) (hsecond : (afterEvents events).phase secondHalf = .idle)
    (c : ChunkRef) : (afterEvents events).phase c = .idle := by
  by_cases hc : c = firstHalf ∨ c = secondHalf
  · rcases hc with rfl | rfl
    · exact hfirst
    · exact hsecond
  · refine run_phase hrun fun event hmem hsame => hc ?_
    rw [hsame]
    exact hchunks event hmem

theorem bothSucceed_careful :
    quietTalk.AllCareful "project" "talk" (bothClaim ++ secondSucceeds ++ firstSucceeds) := by
  refine .cons rfl trivial (.cons rfl (fun _ hrow => ?_) (.cons rfl trivial (.cons rfl (fun _ _ _ => ?_) ?_)))
  · cases hrow
  · exact ⟨_, rfl, .inr ⟨firstHalf, List.mem_singleton_self _, rfl⟩⟩
  · exact .cons rfl trivial (.cons rfl trivial (.cons rfl trivial (.cons rfl trivial (.cons rfl trivial
      (.cons rfl trivial trivial)))))

theorem refused_fact_stored :
    ∃ row, (afterEvents (bothClaim ++ secondSucceeds ++ firstSucceeds)).db.hashAt "project" "talk" "#x" = some row ∧
      row.status = .succeeded :=
  @refused_facts_stored _ _ _ (afterEvents _) _ _ quietTalk_quiet bothSucceed_careful rfl
    (afterEvents_idle rfl (by simp [bothClaim, secondSucceeds, firstSucceeds, ChunkEvent.chunk]) rfl rfl)
    (List.mem_singleton_self _)

/-- The first chunk fails once the second one has succeeded without the fact. -/
def firstFails : List ChunkEvent := bothClaim ++ secondSucceeds ++ [.raise firstHalf (some "worker") 13]

/-- The claim goes, and nothing has stored the fact. -/
theorem refused_fact_lost :
    quietTalk.Quiet ∧ quietTalk.run "project" "talk" firstFails = some (afterEvents firstFails) ∧
      (∀ c, (afterEvents firstFails).phase c = .idle) ∧ "#x" ∈ (afterEvents firstFails).dropped ∧
      (afterEvents firstFails).db.hashAt "project" "talk" "#x" = none :=
  ⟨quietTalk_quiet, rfl, afterEvents_idle rfl (by simp [firstFails, bothClaim, secondSucceeds, ChunkEvent.chunk]) rfl
    rfl, List.mem_singleton_self _, rfl⟩

end ConversationState

end YiQiao
