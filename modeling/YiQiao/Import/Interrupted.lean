import YiQiao.Import.Claims
import YiQiao.Import.GraphItems
import YiQiao.Import.HashRecords

/-!
# Attempts that fail after their rows are written

An attempt of a chunk that fails once its vector rows are written leaves them behind, and a later attempt
completes what belongs to them. The claims of their hashes must still be there for it.
-/

namespace YiQiao

open Lib Filters

variable {V S : Type}

/-! ## Interrupted attempts -/

/-- Where an attempt may fail. -/
inductive FailurePoint where
  | history | entityLinks | savedMessages | webhook | hashes | graphItems | manifest
  deriving DecidableEq, Repr

/-- The failure is raised within `_store_memory`. -/
def FailurePoint.inStorage (point : FailurePoint) : Bool :=
  point ∈ [.history, .entityLinks, .savedMessages, .webhook]

/-- The hashes were marked before the failure. -/
def FailurePoint.marked (point : FailurePoint) : Bool := point ∈ [.graphItems, .manifest]

/-- How an attempt ended, and whether the chunk was cancelled before the later one. -/
structure Interruption where
  point : FailurePoint
  /-- The process died, and no handler ran. -/
  died : Bool
  cancelled : Bool

/-- The claims of the hashes are left to the later attempt, or are no longer needed. -/
def Interruption.keepsClaims (i : Interruption) : Prop :=
  i.point.marked = true ∨ i.cancelled = false ∧ (i.point.inStorage = true → i.died = true)

instance (i : Interruption) : Decidable i.keepsClaims := inferInstanceAs (Decidable (_ ∨ _))

/-- Nothing is counted of the hashes. -/
theorem Database.GraphSound.of_hashes {db : Database} {hashes : List HashRow} (h : db.GraphSound) :
    ({ db with hashes } : Database).GraphSound :=
  ⟨h.jobIds, h.itemIds, h.keys, fun job hjob =>
    ⟨(h.counts job hjob).pending, (h.counts job hjob).synced, (h.counts job hjob).failed⟩⟩

namespace ChunkStorage

section

variable (C : ChunkStorage V S)

/-- The storage of a chunk up to the failure. -/
def storeUntil [Score S] (point : FailurePoint) (died : Bool) : ChunkOp V Unit :=
  if point.inStorage then do
    match ← Effect.attempt { C with sideEffects := .error .databaseError }.addClaimed with
    | .ok _ => pure ()
    | .error _ => if died then pure () else C.releaseClaimed
  else do
    let rows ← C.addClaimed
    let claimed ← .read ChunkWorld.claimed
    if point = .hashes then pure ()
    else do
      C.markHashes claimed (claimed.zip (rows.map Row.id))
      if point = .graphItems then pure () else C.addItems (rows.map Row.id)

/-- What may have changed when the later attempt begins: anything but the memories of the chunk, its hash
records, which a cancellation releases, and its graph items. -/
structure Between (i : Interruption) (left later : ChunkWorld V) : Prop where
  memories : C.rowsForKey later.memory.memories = C.rowsForKey left.memory.memories
  hashes : later.db.hashes =
    if i.cancelled then deleteRows (HashRow.claimedBy C.jobId C.chunkId none) left.db.hashes else left.db.hashes
  graphItems : later.db.graphItems = left.db.graphItems

/-- An attempt of the same chunk that looks for memories first. -/
structure Retries (retry : ChunkStorage V S) : Prop where
  reconciles : retry.reconciles = true
  writer : retry.writer = C.writer
  projectId : retry.projectId = C.projectId
  jobId : retry.jobId = C.jobId
  chunkId : retry.chunkId = C.chunkId
  conversationScope : retry.conversationScope = C.conversationScope
  importKey : retry.importKey = C.importKey

/-- The manifest of the key is the job's. -/
def HoldsKey (db : Database) : Prop :=
  ∃ manifest, db.manifestAt C.projectId C.importKey = some manifest ∧ manifest.jobId = some C.jobId

/-- The chunk has claimed the hash. -/
def HoldsHash (db : Database) (hash : String) : Prop :=
  ∃ row, db.hashAt C.projectId C.conversationScope hash = some row ∧ row.claimedBy C.jobId C.chunkId none = true

/-- What storing memories leaves in the repository. -/
structure Completed (rows : List (Row V)) (db : Database) : Prop where
  manifest : ∃ manifest, db.manifestAt C.projectId C.importKey = some manifest ∧ manifest.status = .succeeded ∧
    manifest.memoryIds = rows.map Row.id
  hashes : ∀ row ∈ rows, ∃ hash record, row.payload.lookup "hash" = some (.str hash) ∧
    db.hashAt C.projectId C.conversationScope hash = some record ∧ record.status = .succeeded ∧
    record.memoryId = some row.id
  items : ∀ row ∈ rows, db.graphItems.countP (GraphItemRow.isAt C.jobId C.chunkId row.id) = 1
  unclaimed : ∀ row ∈ rows, ∀ hash, row.payload.lookup "hash" = some (.str hash) → ∀ c : HashClaim,
    c.key = (C.projectId, C.conversationScope, hash) → ∀ fence now db', claimMemoryHash fence c now db ≠ .ok (true, db')

end

section

variable {C : ChunkStorage V S} {s s' : ChunkWorld V} {rows : List (Row V)}

/-! ## Claims -/

theorem inDatabase_ok {α : Type} {op : Database → Except RepositoryError (α × Database)} {a : α}
    (h : (inDatabase op : ChunkOp V α).run s = (.ok a, s')) : op s.db = .ok (a, s'.db) ∧ s' = { s with db := s'.db } := by
  rw [inDatabase] at h
  dsimp only at h
  cases hrun : op s.db with
  | error e =>
      rw [hrun] at h
      cases h
  | ok r =>
      rw [hrun] at h
      cases h
      exact ⟨rfl, rfl⟩

theorem markHashes_ok {hashes : List String} {ids : List (String × String)}
    (h : (C.markHashes hashes ids).run s = (.ok (), s')) :
    Marked C.projectId C.conversationScope C.jobId C.chunkId hashes ids s.db s'.db ∧ s' = { s with db := s'.db } := by
  obtain ⟨hrun, hrest⟩ := inDatabase_ok h
  obtain ⟨db, hmark, heq⟩ := Fallible.map_ok.mp hrun
  cases heq
  exact ⟨markMemoryHashesSucceeded_marked hmark, hrest⟩

theorem inMemory_db {α : Type} {op : Op V α} {r : Except StoreError α} (h : (inMemory op).run s = (r, s')) :
    s'.db = s.db := by
  rw [inMemory] at h
  dsimp only at h
  split at h
  · cases h
    rfl
  · cases h
    rfl

/-- What one claim does to the records. -/
structure ClaimsHash (C : ChunkStorage V S) (hash : String) (answer : Bool) (db db' : Database) : Prop where
  rest : db' = { db with hashes := db'.hashes }
  unique : db'.HashesUnique
  fresh : answer = true → ¬ C.HoldsHash db hash
  holds : answer = true → C.HoldsHash db' hash
  kept : ∀ hash', C.HoldsHash db hash' → C.HoldsHash db' hash'

theorem ClaimsHash.of_claimed {hash : String} {answer : Bool} {db db' : Database}
    (h : Claimed (C.claim hash) answer db db') : ClaimsHash C hash answer db db' := by
  have hfresh : answer = true → ¬ C.HoldsHash db hash := by
    rintro htrue ⟨row, hrow, hclaimed⟩
    have hstatus := (h.taken htrue).1 row hrow
    rw [(HashRow.claimedBy_iff.mp hclaimed).2.2] at hstatus
    simp [reclaimableStatuses] at hstatus
  refine ⟨h.rest, h.unique, hfresh, fun htrue => ?_, fun hash' hholds => ?_⟩
  · obtain ⟨row, hrow, hstatus, hjob, hchunk⟩ := (h.taken htrue).2
    exact ⟨row, hrow, HashRow.claimedBy_iff.mpr ⟨hjob, hchunk, hstatus⟩⟩
  · by_cases hsame : hash' = hash
    · subst hsame
      cases answer with
      | true => exact absurd hholds (hfresh rfl)
      | false => rwa [(h.refused rfl).1]
    · obtain ⟨row, hrow, hclaimed⟩ := hholds
      refine ⟨row, ?_, hclaimed⟩
      rw [h.others, hrow]
      simp [HashClaim.key, claim, hsame]

theorem claimHash_claims {hash : String} {answer : Bool} (hu : s.db.HashesUnique)
    (h : (C.claimHash hash).run s = (.ok answer, s')) :
    ClaimsHash C hash answer s.db s'.db ∧ s' = { s with db := s'.db } := by
  rw [claimHash] at h
  split at h
  · rename_i legacyId _
    obtain ⟨claimed, s₁, hclaim, h⟩ := Effect.bind_ok.mp h
    obtain ⟨hrun, hrest⟩ := inDatabase_ok hclaim
    have hclaims := ClaimsHash.of_claimed (claimMemoryHash_claimed hu hrun)
    cases claimed with
    | false =>
        cases h
        exact ⟨hclaims, hrest⟩
    | true =>
        obtain ⟨_, s₂, hmark, h⟩ := Effect.bind_ok.mp h
        cases h
        obtain ⟨hmarked, hrest'⟩ := markHashes_ok hmark
        have hdb : s'.db = { s.db with hashes := s'.db.hashes } := by rw [hmarked.rest, hclaims.rest]
        refine ⟨⟨hdb, hmarked.unique hclaims.unique, by simp, by simp, fun hash' hholds => ?_⟩,
          by rw [hrest', hrest]⟩
        have hne : hash' ≠ hash := fun heq => hclaims.fresh rfl (heq ▸ hholds)
        obtain ⟨row, hrow, hclaimed⟩ := hclaims.kept hash' hholds
        have hkey := (hashAt_some hrow).2
        simp only [HashRow.key, Prod.mk.injEq] at hkey
        refine ⟨row, ?_, hclaimed⟩
        rw [hmarked.marks, hrow, Option.map_some, HashRow.marked, if_neg]
        simp [hkey.2.2, hne]
  · obtain ⟨hrun, hrest⟩ := inDatabase_ok h
    exact ⟨ClaimsHash.of_claimed (claimMemoryHash_claimed hu hrun), hrest⟩

/-- The selected memories have hashes of their own, which the chunk has claimed. -/
structure Selects (C : ChunkStorage V S) (selected : List Entries) (s s' : ChunkWorld V) : Prop where
  rest : s'.db = { s.db with hashes := s'.db.hashes }
  unique : s'.db.HashesUnique
  nodup : (selected.map fun m => C.writer.md5 (extractedText m)).Nodup
  holds : ∀ m ∈ selected, C.HoldsHash s'.db (C.writer.md5 (extractedText m))

theorem selectClaimed_selects {memories selected : List Entries} (hu : s.db.HashesUnique)
    (h : (C.selectClaimed memories).run s = (.ok selected, s')) : Selects C selected s s' := by
  rw [selectClaimed] at h
  refine Effect.loop_ok (I := fun _ selected t => Selects C selected s t) h ⟨rfl, hu, by simp, by simp⟩ ?_
  intro done memory rest selected t selected' t' _ hselects hrun
  dsimp only at hrun
  obtain ⟨answer, t₁, hclaim, hrun⟩ := Effect.bind_ok.mp hrun
  obtain ⟨hclaims, -⟩ := claimHash_claims hselects.unique hclaim
  have hrest : t₁.db = { s.db with hashes := t₁.db.hashes } := by rw [hclaims.rest, hselects.rest]
  cases answer with
  | false =>
      cases hrun
      exact ⟨hrest, hclaims.unique, hselects.nodup, fun m hm => hclaims.kept _ (hselects.holds m hm)⟩
  | true =>
      cases hrun
      refine ⟨hrest, hclaims.unique, ?_, fun m hm => ?_⟩
      · rw [List.map_append, List.nodup_append]
        refine ⟨hselects.nodup, List.nodup_singleton _, fun hash hash' hash'' hlast heq => ?_⟩
        obtain ⟨m, hm, rfl⟩ := List.mem_map.mp hash'
        rw [List.map_singleton, List.mem_singleton] at hlast
        exact hclaims.fresh rfl (hlast ▸ heq ▸ hselects.holds m hm)
      · rcases List.mem_append.mp hm with hm | hm
        · exact hclaims.kept _ (hselects.holds m hm)
        · rw [List.mem_singleton.mp hm]
          exact hclaims.holds rfl

/-! ## Written rows -/

/-- What an attempt had done when it wrote its rows. -/
structure Wrote (C : ChunkStorage V S) (s s' : ChunkWorld V) (rows : List (Row V)) : Prop where
  memories : s'.memory.memories.rows = s.memory.memories.rows ++ rows
  rest : s'.db = { s.db with hashes := s'.db.hashes }
  unique : s'.db.HashesUnique
  nodup : s'.claimed.Nodup
  holds : ∀ hash ∈ s'.claimed, C.HoldsHash s'.db hash
  named : ∀ hash ∈ s'.claimed, ∃ text, C.writer.md5 text = hash
  imported : ∀ row ∈ rows, ∃ existing memory,
    row.payload = importedPayload C.writer C.providers.now existing C.metadata memory
  hashes : List.Forall₂ (fun hash row => row.payload.lookup "hash" = some (.str hash)) s'.claimed rows

variable [Score S]

theorem addClaimed_wrote (hu : s.db.HashesUnique) (h : C.addClaimed.run s = (.ok rows, s')) : Wrote C s s' rows := by
  have hhashes := (addClaimed_ok h).imp fun _ _ h => h.2.1
  rw [addClaimed, Effect.run_bind_modify] at h
  split at h
  · cases h
  · rw [Effect.run_bind_read] at h
    obtain ⟨hits, s₁, hhits, h⟩ := Effect.bind_ok.mp h
    obtain ⟨extracted, s₂, hextracted, h⟩ := Effect.bind_ok.mp h
    obtain ⟨selected, s₃, hselected, h⟩ := Effect.bind_ok.mp h
    rw [inMemory_lift_ok hextracted, inMemory_lift_ok hhits] at hselected
    have hselects := selectClaimed_selects (C := C) (s := ⟨s.memory, s.db, []⟩) hu hselected
    obtain ⟨hmemory, hclaimed⟩ := selectClaimed_ok hselected
    rw [List.nil_append] at hclaimed
    have hnodup : s₃.claimed.Nodup := by
      rw [hclaimed]
      exact hselects.nodup
    have hholds : ∀ hash ∈ s₃.claimed, C.HoldsHash s₃.db hash := by
      intro hash hmem
      rw [hclaimed] at hmem
      obtain ⟨m, hm, rfl⟩ := List.mem_map.mp hmem
      exact hselects.holds m hm
    have hnamed : ∀ hash ∈ s₃.claimed, ∃ text, C.writer.md5 text = hash := by
      intro hash hmem
      rw [hclaimed] at hmem
      obtain ⟨m, _, rfl⟩ := List.mem_map.mp hmem
      exact ⟨_, rfl⟩
    split at h
    · cases h
      refine ⟨?_, hselects.rest, hselects.unique, hnodup, hholds, hnamed, by simp, hhashes⟩
      rw [hmemory, List.append_nil]
    · obtain ⟨_, s₄, hpre, h⟩ := Effect.bind_ok.mp h
      obtain ⟨vectors, s₅, hvectors, h⟩ := Effect.bind_ok.mp h
      have hs₅ : s₅ = s₃ := by rw [inMemory_lift_ok hvectors, inMemory_lift_ok hpre]
      dsimp only at h
      split at h
      · obtain ⟨_, s₆, hinsert, h⟩ := Effect.bind_ok.mp h
        obtain ⟨_, s₇, hside, h⟩ := Effect.bind_ok.mp h
        cases h
        rw [hs₅] at hinsert
        obtain ⟨hclaimed₆, hrows⟩ := inMemory_insert_ok hinsert
        have hdb := inMemory_db hinsert
        rw [inMemory_lift_ok hside] at hhashes ⊢
        refine ⟨?_, ?_, ?_, ?_, ?_, ?_, ?_, hhashes⟩
        · rw [hrows, hmemory]
        · rw [hdb]
          exact hselects.rest
        · rw [hdb]
          exact hselects.unique
        · rw [hclaimed₆]
          exact hnodup
        · rw [hclaimed₆, hdb]
          exact hholds
        · rw [hclaimed₆]
          exact hnamed
        · intro row hrow
          obtain ⟨memory, _, rfl⟩ := List.mem_map.mp hrow
          exact ⟨_, memory.1, rfl⟩
      · cases h

/-- The rows are written before anything that follows them: where that raises, they are there. -/
theorem addClaimed_fails (h : C.addClaimed.run s = (.ok rows, s')) (hne : rows ≠ []) (e : PyError) :
    ({ C with sideEffects := .error e } : ChunkStorage V S).addClaimed.run s = (.error (.memory e), s') := by
  rw [addClaimed, Effect.run_bind_modify] at h ⊢
  dsimp only at h ⊢
  cases hvector : C.providers.embed .search (parseMessages C.writer.platform C.messages) with
  | none =>
      rw [hvector] at h
      cases h
  | some vector =>
      rw [hvector] at h
      dsimp only at h ⊢
      rw [Effect.run_bind_read] at h ⊢
      obtain ⟨hits, s₁, hhits, h⟩ := Effect.bind_ok.mp h
      rw [Effect.run_bind, hhits]
      dsimp only
      obtain ⟨extracted, s₂, hextracted, h⟩ := Effect.bind_ok.mp h
      rw [Effect.run_bind, hextracted]
      dsimp only
      obtain ⟨selected, s₃, hselected, h⟩ := Effect.bind_ok.mp h
      have hselected' : (({ C with sideEffects := .error e } : ChunkStorage V S).selectClaimed
          (selectNew (fun m => C.writer.md5 (extractedText m)) (storedHashes C.writer.platform (hits.map Hit.row))
            extracted)).run s₂ = (.ok selected, s₃) := hselected
      rw [Effect.run_bind, hselected']
      dsimp only
      split at h
      · cases h
        exact absurd rfl hne
      · rename_i hselectedNe
        rw [if_neg hselectedNe]
        obtain ⟨_, s₄, hpre, h⟩ := Effect.bind_ok.mp h
        rw [Effect.run_bind, hpre]
        dsimp only
        obtain ⟨vectors, s₅, hvectors, h⟩ := Effect.bind_ok.mp h
        rw [Effect.run_bind, hvectors]
        dsimp only at h ⊢
        split at h
        · rename_i hids
          have hcontext : ({ C with sideEffects := .error e } : ChunkStorage V S).context = C.context := rfl
          rw [hcontext, if_pos hids]
          obtain ⟨_, s₆, hinsert, h⟩ := Effect.bind_ok.mp h
          rw [Effect.run_bind, hinsert]
          obtain ⟨_, s₇, hside, h⟩ := Effect.bind_ok.mp h
          cases h
          rw [inMemory_lift_ok hside]
          rfl
        · cases h

/-! ## What follows the rows -/

omit [Score S] in
/-- What marking the hashes, the graph items and the manifest leaves. -/
structure Finished (C : ChunkStorage V S) (hashes : List String) (pairs : List (String × String)) (ids : List String)
    (db db' : Database) : Prop where
  hashAt : ∀ hash, db'.hashAt C.projectId C.conversationScope hash =
    (db.hashAt C.projectId C.conversationScope hash).map (HashRow.marked C.jobId C.chunkId hashes pairs)
  unique : db.HashesUnique → db'.HashesUnique
  items : db.GraphSound → ∀ id ∈ ids, db'.graphItems.countP (GraphItemRow.isAt C.jobId C.chunkId id) = 1
  manifest : C.HoldsKey db → ∃ manifest, db'.manifestAt C.projectId C.importKey = some manifest ∧
    manifest.status = .succeeded ∧ manifest.memoryIds = ids

theorem addGraphItems_manifests {fence : Option String} {jobId chunkId : String} {items : List GraphItem} {now : Instant}
    {db db' : Database} (h : addGraphItems fence jobId chunkId items now db = .ok db') :
    db'.manifests = db.manifests := by
  rw [addGraphItems] at h
  split at h
  · cases h
    rfl
  · obtain ⟨inserted, _, h⟩ := Fallible.bind_ok.mp h
    dsimp only at h
    split at h
    · obtain ⟨changed, hchanged, h⟩ := Fallible.bind_ok.mp h
      cases h
      rw [changeJob] at hchanged
      dsimp only at hchanged
      split at hchanged
      · cases hchanged
      · cases hchanged
        rfl
    · obtain ⟨_, _, h⟩ := Fallible.bind_ok.mp h
      cases h
      rfl

/-- The manifest of the job that holds the key takes the mark. -/
theorem markManifest_held {fence : Option String} {p k jobId : String} {mark : ManifestMark} {now : Instant}
    {db : Database} {r : Option ManifestRow × Database} {manifest : ManifestRow}
    (hheld : db.manifestAt p k = some manifest) (hjob : manifest.jobId = some jobId)
    (h : markManifest fence p k jobId mark now db = .ok r) :
    r.2.manifestAt p k = some (mark.on manifest) := by
  simp only [markManifest, Fallible.bind_ok, Fallible.pure_ok] at h
  obtain ⟨_, htouched, rfl⟩ := h
  obtain ⟨hproject, hkey⟩ := manifestAt_isAt hheld
  have hat : manifest.isAt p k = true := isAt_iff.mpr ⟨hproject, hkey⟩
  rw [manifestAt_updateRows mark.on fun _ => rfl, hheld, Option.map_some, if_pos]
  cases hallowed : db.allows fence jobId now with
  | true => simp [hat, hjob]
  | false =>
      rw [checkTouched, if_pos, assertActiveLease, if_neg (by simp [hallowed])] at htouched
      · cases htouched
      · exact hitRows_eq_zero.mpr fun row _ => by rw [hallowed, Bool.and_false]

omit [Score S] in
theorem finishing_ok {hashes : List String} {pairs : List (String × String)} {ids out : List String}
    (h : (do C.markHashes hashes pairs; C.addItems ids; C.succeedManifest ids; pure ids :
      ChunkOp V (List String)).run s = (.ok out, s')) :
    out = ids ∧ s'.memory = s.memory ∧ Finished C hashes pairs ids s.db s'.db := by
  obtain ⟨_, s₁, hmark, h⟩ := Effect.bind_ok.mp h
  obtain ⟨_, s₂, hadd, h⟩ := Effect.bind_ok.mp h
  obtain ⟨_, s₃, hmanifest, h⟩ := Effect.bind_ok.mp h
  cases h
  obtain ⟨hmarked, hrest₁⟩ := markHashes_ok hmark
  obtain ⟨hrun₂, hrest₂⟩ := inDatabase_ok hadd
  obtain ⟨db₂, hitems, heq⟩ := Fallible.map_ok.mp hrun₂
  cases heq
  obtain ⟨hrun₃, hrest₃⟩ := inDatabase_ok hmanifest
  obtain ⟨r, hsucceeded, heq⟩ := Fallible.map_ok.mp hrun₃
  have hdb : r.2 = s'.db := (Prod.mk.inj heq).2
  have hhashes : s'.db.hashes = s₁.db.hashes := by
    rw [← hdb, markManifest_hashes hsucceeded, addGraphItems_hashes hitems]
  refine ⟨rfl, by rw [hrest₃, hrest₂, hrest₁], fun hash => ?_, fun hu => ?_, fun hg id hid => ?_, fun hheld => ?_⟩
  · rw [Database.hashAt, hhashes]
    exact hmarked.marks hash
  · have hu₁ := hmarked.unique hu
    exact ⟨hhashes ▸ hu₁.ids, hhashes ▸ hu₁.keys⟩
  · have hg₁ : s₁.db.GraphSound := by
      rw [hmarked.rest]
      exact hg.of_hashes
    have honce := (addGraphItems_once hg₁ hitems).once _ (List.mem_map_of_mem hid)
    obtain ⟨_, _, hsame⟩ := Fallible.bind_ok.mp hsucceeded
    rw [← hdb]
    cases hsame
    exact honce
  · obtain ⟨manifest, hat, hjob⟩ := hheld
    have hat₂ : s₂.db.manifestAt C.projectId C.importKey = some manifest := by
      rw [Database.manifestAt, addGraphItems_manifests hitems, hmarked.rest]
      exact hat
    have hmark := markManifest_held hat₂ hjob hsucceeded
    rw [hdb] at hmark
    exact ⟨_, hmark, rfl, rfl⟩

/-! ## Hashes and ids -/

omit [Score S] in
/-- Every row has a claimed hash that goes with its id. -/
theorem lookup_pairs {claimed : List String}
    (h : List.Forall₂ (fun hash (row : Row V) => row.payload.lookup "hash" = some (.str hash)) claimed rows)
    (hnodup : claimed.Nodup) : ∀ row ∈ rows, ∃ hash ∈ claimed, row.payload.lookup "hash" = some (.str hash) ∧
      (claimed.zip (rows.map Row.id)).lookup hash = some row.id := by
  induction h with
  | nil => simp
  | @cons first row claimed rows hfirst _ ih =>
      obtain ⟨hnew, hnodup⟩ := List.nodup_cons.mp hnodup
      intro row' hrow'
      rw [List.map_cons, List.zip_cons_cons]
      rcases List.mem_cons.mp hrow' with rfl | hrow'
      · exact ⟨first, List.mem_cons_self, hfirst, by simp⟩
      · obtain ⟨hash, hmem, hhash, hlookup⟩ := ih hnodup row' hrow'
        refine ⟨hash, List.mem_cons_of_mem _ hmem, hhash, ?_⟩
        have hne : hash ≠ first := fun heq => hnew (heq ▸ hmem)
        rw [List.lookup_cons, beq_eq_false_iff_ne.mpr hne]
        exact hlookup

omit [Score S] in
/-- Reconciling finds the pairs that the attempt had. -/
theorem idsByHash_pairs {claimed : List String}
    (h : List.Forall₂ (fun hash (row : Row V) => row.payload.lookup "hash" = some (.str hash)) claimed rows)
    (hnodup : claimed.Nodup) (hsome : ∀ hash ∈ claimed, hash ≠ "") :
    C.idsByHash rows = claimed.zip (rows.map Row.id) := by
  suffices ∀ ids : List (String × String), (∀ hash ∈ claimed, hash ∉ ids.map Prod.fst) →
      rows.foldl (fun ids row =>
        let hash := Payload.get row.payload "hash"
        if hash.truthy then Dict.set (hash.pyStr C.writer.platform) row.id ids else ids) ids =
      ids ++ claimed.zip (rows.map Row.id) from this [] (by simp)
  induction h with
  | nil => simp
  | @cons first row claimed rows hfirst _ ih =>
      obtain ⟨hnew, hnodup⟩ := List.nodup_cons.mp hnodup
      intro ids hids
      have hget : Payload.get row.payload "hash" = .str first := by
        rw [Payload.get, hfirst]
        rfl
      have htruthy : (Value.str first).truthy = true := by
        simpa [Value.truthy] using hsome first List.mem_cons_self
      rw [List.foldl_cons, hget]
      dsimp only
      rw [if_pos htruthy, Value.pyStr, Dict.set_of_notMem (hids first List.mem_cons_self),
        ih hnodup (fun hash hmem => hsome hash (List.mem_cons_of_mem _ hmem))]
      · simp
      · intro hash hmem
        rw [List.map_append, List.mem_append, not_or]
        refine ⟨hids hash (List.mem_cons_of_mem _ hmem), ?_⟩
        rw [List.map_singleton, List.mem_singleton]
        intro heq
        rw [heq] at hmem
        exact hnew hmem

/-! ## What an interrupted attempt leaves -/

omit [Score S] in
theorem markHashes_allows {hashes : List String} {pairs : List (String × String)}
    (h : (C.markHashes hashes pairs).run s = (.ok (), s')) : s.db.allows C.fence C.jobId C.now = true := by
  obtain ⟨hrun, -⟩ := inDatabase_ok h
  obtain ⟨db, hmark, -⟩ := Fallible.map_ok.mp hrun
  obtain ⟨_, hlease, -⟩ := Fallible.bind_ok.mp hmark
  rw [assertActiveLease] at hlease
  by_contra hnot
  rw [if_neg hnot] at hlease
  cases hlease

omit [Score S] in
/-- The release of what a call has claimed. -/
theorem releaseClaimed_run (hclaimed : s.claimed ≠ []) (hallowed : s.db.allows C.fence C.jobId C.now = true) :
    let hit := fun row : HashRow => row.claimedBy C.jobId C.chunkId (some s.claimed) && true
    (C.releaseClaimed.run s).2 = ⟨s.memory, { s.db with hashes := deleteRows hit s.db.hashes }, s.claimed⟩ := by
  have htouched : ∀ n, checkTouched n C.fence C.jobId C.now s.db = .ok () := by
    intro n
    rw [checkTouched, assertActiveLease, hallowed]
    simp
  have hsome : (some s.claimed : Option (List String)) ≠ some [] := by simpa using hclaimed
  simp only [releaseClaimed, Effect.run_bind_read, inDatabase, releaseMemoryHashes, if_neg hsome, hallowed, htouched]
  rfl

/-- The records of the claimed hashes, when a later attempt finds them: still claimed, marked already, or gone. -/
structure LeavesRecords (C : ChunkStorage V S) (i : Interruption) (claimed : List String)
    (pairs : List (String × String)) (db : Database) : Prop where
  unique : db.HashesUnique
  marked : i.point.marked = true → ∀ hash ∈ claimed, ∃ row,
    db.hashAt C.projectId C.conversationScope hash = some row ∧ row.status = .succeeded ∧
      row.memoryId = pairs.lookup hash
  kept : i.point.marked = false → i.keepsClaims → ∀ hash ∈ claimed, C.HoldsHash db hash
  gone : ¬ i.keepsClaims → ∀ hash ∈ claimed, db.hashAt C.projectId C.conversationScope hash = none

omit [Score S] in
/-- A claimed hash is gone once its claim is released. -/
theorem hashAt_released {db : Database} {hash : String} {given : Option (List String)} (hu : db.HashesUnique)
    (hholds : C.HoldsHash db hash) (hgiven : given.all (hash ∈ ·) = true) :
    ({ db with hashes := deleteRows (fun row => row.claimedBy C.jobId C.chunkId given && true) db.hashes } :
      Database).hashAt C.projectId C.conversationScope hash = none := by
  obtain ⟨row, hrow, hclaimed⟩ := hholds
  have hkey := (hashAt_some hrow).2
  simp only [HashRow.key, Prod.mk.injEq] at hkey
  obtain ⟨hjob, hchunk, hstatus⟩ := HashRow.claimedBy_iff.mp hclaimed
  have hhit : row.claimedBy C.jobId C.chunkId given = true := by
    simpa [HashRow.claimedBy, hjob, hchunk, hstatus, hkey.2.2] using hgiven
  rw [hashAt_release hu, hrow]
  simp [hhit]

omit [Score S] in
theorem marked_of_holds {db : Database} {hash : String} {hashes : List String} {pairs : List (String × String)}
    (hholds : C.HoldsHash db hash) (hmem : hash ∈ hashes) : ∃ row,
      (db.hashAt C.projectId C.conversationScope hash).map (HashRow.marked C.jobId C.chunkId hashes pairs) = some row ∧
        row.status = .succeeded ∧ row.memoryId = pairs.lookup hash := by
  obtain ⟨row, hrow, hclaimed⟩ := hholds
  have hkey := (hashAt_some hrow).2
  simp only [HashRow.key, Prod.mk.injEq] at hkey
  refine ⟨_, by rw [hrow, Option.map_some], ?_⟩
  rw [HashRow.marked, if_pos ⟨hkey.2.2 ▸ hmem, hclaimed⟩, hkey.2.2]
  exact ⟨rfl, rfl⟩

/-- The records when the attempt has ended. -/
structure EndsWith (C : ChunkStorage V S) (point : FailurePoint) (died : Bool) (claimed : List String)
    (pairs : List (String × String)) (db : Database) : Prop where
  unique : db.HashesUnique
  marked : point.marked = true → ∀ hash ∈ claimed, ∃ row,
    db.hashAt C.projectId C.conversationScope hash = some row ∧ row.status = .succeeded ∧
      row.memoryId = pairs.lookup hash
  kept : point.marked = false → (point.inStorage = true → died = true) → ∀ hash ∈ claimed, C.HoldsHash db hash
  released : point.inStorage = true → died = false → ∀ hash ∈ claimed,
    db.hashAt C.projectId C.conversationScope hash = none

theorem storeUntil_ends {a : ChunkWorld V} {ids : List String} {point : FailurePoint} {died : Bool}
    (hadd : C.addClaimed.run s = (.ok rows, a)) (hu : s.db.HashesUnique) (hne : rows ≠ [])
    (hfinish : (C.finish a.claimed (rows.map Row.id)).run a = (.ok ids, s')) :
    ((C.storeUntil point died).run s).2.memory = a.memory ∧
      EndsWith C point died a.claimed (a.claimed.zip (rows.map Row.id)) ((C.storeUntil point died).run s).2.db := by
  have hwrote := addClaimed_wrote hu hadd
  have hclaimed : a.claimed ≠ [] := by
    intro hnil
    have hlength := hwrote.hashes.length_eq
    rw [hnil] at hlength
    exact hne (List.length_eq_zero_iff.mp hlength.symm)
  obtain ⟨_, m, hmark, hfinish⟩ := Effect.bind_ok.mp hfinish
  obtain ⟨hmarked, hrest⟩ := markHashes_ok hmark
  have hmarks : ∀ hash ∈ a.claimed, ∃ row, m.db.hashAt C.projectId C.conversationScope hash = some row ∧
      row.status = .succeeded ∧ row.memoryId = (a.claimed.zip (rows.map Row.id)).lookup hash := by
    intro hash hmem
    rw [hmarked.marks]
    exact marked_of_holds (hwrote.holds hash hmem) hmem
  rw [storeUntil]
  split
  · rename_i hstorage
    have hunmarked : point.marked = false := by
      cases point <;> first | rfl | cases hstorage
    rw [Effect.run_bind_attempt, addClaimed_fails hadd hne]
    dsimp only
    cases died with
    | true => exact ⟨rfl, hwrote.unique, by simp [hunmarked], fun _ _ => hwrote.holds, by simp⟩
    | false =>
        rw [if_neg Bool.false_ne_true, releaseClaimed_run hclaimed (markHashes_allows hmark)]
        refine ⟨rfl, hwrote.unique.release, by simp [hunmarked], ?_, fun _ _ hash hmem => ?_⟩
        · intro _ hdied
          cases hdied hstorage
        · exact hashAt_released hwrote.unique (hwrote.holds hash hmem) (by simpa using hmem)
  · rename_i hstorage
    rw [Effect.run_bind, hadd]
    dsimp only
    rw [Effect.run_bind_read]
    split
    · rename_i hpoint
      subst hpoint
      exact ⟨rfl, hwrote.unique, by simp [FailurePoint.marked], fun _ _ => hwrote.holds, by simp [hstorage]⟩
    · rw [Effect.run_bind, hmark]
      dsimp only
      have hlate : point.marked = true := by
        cases point <;> first | rfl | exact absurd rfl hstorage | contradiction
      split
      · exact ⟨by rw [hrest]; rfl, hmarked.unique hwrote.unique, fun _ => hmarks, by simp [hlate], by simp [hstorage]⟩
      · obtain ⟨_, n, hitems, hfinish⟩ := Effect.bind_ok.mp hfinish
        obtain ⟨hrun, hrest'⟩ := inDatabase_ok hitems
        obtain ⟨db, hadded, heq⟩ := Fallible.map_ok.mp hrun
        cases heq
        have hhashes := addGraphItems_hashes hadded
        rw [hitems]
        have hunique := hmarked.unique hwrote.unique
        refine ⟨by rw [hrest', hrest], ⟨hhashes ▸ hunique.ids, hhashes ▸ hunique.keys⟩, fun _ hash hmem => ?_,
          by simp [hlate], by simp [hstorage]⟩
        rw [Database.hashAt, hhashes]
        exact hmarks hash hmem

omit [Score S] in
/-- What the later attempt finds of the records. -/
theorem EndsWith.leaves {i : Interruption} {claimed : List String} {pairs : List (String × String)}
    {left later : ChunkWorld V} (h : EndsWith C i.point i.died claimed pairs left.db) (hbetween : C.Between i left later) :
    LeavesRecords C i claimed pairs later.db := by
  have hhashes := hbetween.hashes
  cases hcancelled : i.cancelled with
  | false =>
      rw [hcancelled] at hhashes
      have hat : ∀ hash, later.db.hashAt C.projectId C.conversationScope hash =
          left.db.hashAt C.projectId C.conversationScope hash := fun hash => by rw [Database.hashAt, hhashes]; rfl
      refine ⟨⟨hhashes ▸ h.unique.ids, hhashes ▸ h.unique.keys⟩, fun hmarked hash hmem => ?_,
        fun hunmarked hkeeps hash hmem => ?_, fun hlost hash hmem => ?_⟩
      · rw [hat]
        exact h.marked hmarked hash hmem
      · obtain ⟨row, hrow, hclaimed⟩ := h.kept hunmarked (by
          rcases hkeeps with hmarked | ⟨-, hdied⟩
          · rw [hunmarked] at hmarked
            cases hmarked
          · exact hdied) hash hmem
        exact ⟨row, (hat hash).trans hrow, hclaimed⟩
      · rw [hat]
        rw [Interruption.keepsClaims, not_or, not_and] at hlost
        have hraised := hlost.2 hcancelled
        push Not at hraised
        exact h.released hraised.1 (Bool.eq_false_iff.mpr hraised.2) hash hmem
  | true =>
      rw [hcancelled, if_pos rfl] at hhashes
      have hat : ∀ hash, later.db.hashAt C.projectId C.conversationScope hash =
          (left.db.hashAt C.projectId C.conversationScope hash).filter
            fun row => !(row.claimedBy C.jobId C.chunkId none && true) := by
        intro hash
        rw [← hashAt_release h.unique]
        simp only [Bool.and_true, Database.hashAt, hhashes]
      have hunique := @Database.HashesUnique.release _ (HashRow.claimedBy C.jobId C.chunkId none) h.unique
      refine ⟨⟨hhashes ▸ hunique.ids, hhashes ▸ hunique.keys⟩, fun hmarked hash hmem => ?_,
        fun hunmarked hkeeps hash hmem => ?_, fun hlost hash hmem => ?_⟩
      · obtain ⟨row, hrow, hstatus, hid⟩ := h.marked hmarked hash hmem
        exact ⟨row, by simp [hat, hrow, HashRow.claimedBy, hstatus], hstatus, hid⟩
      · rcases hkeeps with hmarked | ⟨hnot, -⟩
        · rw [hunmarked] at hmarked
          cases hmarked
        · rw [hcancelled] at hnot
          cases hnot
      · rw [Interruption.keepsClaims, not_or] at hlost
        rw [hat]
        by_cases hdied : i.point.inStorage = true → i.died = true
        · obtain ⟨row, hrow, hclaimed⟩ := h.kept (Bool.eq_false_iff.mpr hlost.1) hdied hash hmem
          simpa [hrow] using hclaimed
        · push Not at hdied
          rw [h.released hdied.1 (Bool.eq_false_iff.mpr hdied.2) hash hmem]
          rfl

/-! ## The later attempt -/

omit [Score S] in
theorem rowsForKey_eq (memories : Table V) : C.rowsForKey memories = .ok ((memories.rows.filter fun row =>
    [("project_id", C.projectId), ("import_key", C.importKey)].all fun e =>
      idMatches C.writer.platform row.payload e.1 e.2).take 1000) := by
  have hids : [("project_id", Value.str C.projectId), ("import_key", .str C.importKey)] =
      idFilters [("project_id", C.projectId), ("import_key", C.importKey)] := rfl
  rw [rowsForKey, Table.list, hids, select_ids (by simp)]
  rfl

omit [Score S] in
/-- The memories of the key are those that were written. -/
theorem rowsForKey_wrote (hproject : C.metadata.lookup "project_id" = some (.str C.projectId))
    (hkey : C.metadata.lookup "import_key" = some (.str C.importKey))
    (hnew : C.rowsForKey s.memory.memories = .ok []) (hwrote : Wrote C s s' rows) :
    C.rowsForKey s'.memory.memories = .ok (rows.take 1000) := by
  rw [rowsForKey_eq] at hnew ⊢
  set wanted := fun row : Row V => [("project_id", C.projectId), ("import_key", C.importKey)].all fun e =>
    idMatches C.writer.platform row.payload e.1 e.2 with hwanted
  have hold : s.memory.memories.rows.filter wanted = [] := by
    have htake := Except.ok.inj hnew
    rwa [List.take_eq_nil_iff, or_iff_right (by decide)] at htake
  have hall : rows.filter wanted = rows := by
    refine List.filter_eq_self.mpr fun row hrow => ?_
    obtain ⟨existing, memory, hpayload⟩ := hwrote.imported row hrow
    have hcarries : ∀ key value, key ∉ recordKeys → key ∉ textKeys → C.metadata.lookup key = some (.str value) →
        idMatches C.writer.platform row.payload key value = true := by
      intro key value hrecord htext hvalue
      have hlookup : row.payload.lookup key = some (.str value) := by
        rw [hpayload, importedPayload_agrees existing key hrecord, textBase_lookup htext, hvalue]
      rw [idMatches]
      split
      · rw [hlookup]
        rfl
      · rw [Payload.text, hlookup]
        simp [Value.sqlText]
    simp [hwanted, hcarries _ _ (by decide) (by decide) hproject, hcarries _ _ (by decide) (by decide) hkey]
  rw [hwrote.memories, List.filter_append, hold, hall, List.nil_append]

omit [Score S] in
/-- A retry that finds rows reconciles them. -/
theorem retry_ok {retry : ChunkStorage V S} (hreconciles : retry.reconciles = true) {keyed : List (Row V)}
    {out : List String} (hkeyed : retry.rowsForKey s.memory.memories = .ok keyed) (hne : keyed ≠ [])
    [Score S] (h : retry.store.run s = (.ok out, s')) : out = keyed.map Row.id ∧
      Finished retry ((retry.idsByHash keyed).map Prod.fst) (retry.idsByHash keyed) (keyed.map Row.id) s.db s'.db := by
  rw [store, if_pos hreconciles, Effect.run_bind_read, hkeyed] at h
  obtain ⟨rows, s₁, hrows, h⟩ := Effect.bind_ok.mp h
  cases inMemory_lift_value hrows
  rw [inMemory_lift_ok hrows, if_neg (by simpa using hne), reconcile] at h
  split at h
  · cases h
  · obtain ⟨_, s₂, hside, h⟩ := Effect.bind_ok.mp h
    rw [inMemory_lift_ok hside] at h
    obtain ⟨hout, -, hfinished⟩ := finishing_ok h
    exact ⟨hout, hfinished⟩

omit [Score S] in
theorem Finished.of_retries {retry : ChunkStorage V S} (hretries : C.Retries retry) {hashes ids : List String}
    {pairs : List (String × String)} {db db' : Database} (h : Finished retry hashes pairs ids db db') :
    Finished C hashes pairs ids db db' where
  hashAt := by
    rw [← hretries.projectId, ← hretries.conversationScope, ← hretries.jobId, ← hretries.chunkId]
    exact h.hashAt
  unique := h.unique
  items := by
    rw [← hretries.jobId, ← hretries.chunkId]
    exact h.items
  manifest := by
    rw [HoldsKey, ← hretries.projectId, ← hretries.jobId, ← hretries.importKey]
    exact h.manifest

omit [Score S] in
/-- The chunk is completed where every hash was marked with the id of its row. -/
theorem Finished.completed {hashes : List String} {pairs : List (String × String)} {db db' : Database}
    (h : Finished C hashes pairs (rows.map Row.id) db db') (hu : db.HashesUnique) (hg : db.GraphSound)
    (hheld : C.HoldsKey db)
    (hrecords : ∀ row ∈ rows, ∃ hash record, row.payload.lookup "hash" = some (.str hash) ∧
      (db.hashAt C.projectId C.conversationScope hash).map (HashRow.marked C.jobId C.chunkId hashes pairs) =
        some record ∧ record.status = .succeeded ∧ record.memoryId = some row.id) : C.Completed rows db' where
  manifest := h.manifest hheld
  hashes := by
    intro row hrow
    obtain ⟨hash, record, hlookup, hat, hstatus, hid⟩ := hrecords row hrow
    exact ⟨hash, record, hlookup, (h.hashAt hash).trans hat, hstatus, hid⟩
  items := fun row hrow => h.items hg row.id (List.mem_map_of_mem hrow)
  unclaimed := by
    intro row hrow hash hlookup c hc fence now db'' hclaim
    obtain ⟨hash', record, hlookup', hat, hstatus, -⟩ := hrecords row hrow
    cases hlookup.symm.trans hlookup'
    have hkey : c.projectId = C.projectId ∧ c.conversationId = C.conversationScope ∧ c.memoryHash = hash := by
      simpa [HashClaim.key] using hc
    have hreclaimable := ((claimMemoryHash_claimed (h.unique hu) hclaim).taken rfl).1 record
    rw [hkey.1, hkey.2.1, hkey.2.2] at hreclaimable
    have hin := hreclaimable ((h.hashAt hash).trans hat)
    rw [hstatus] at hin
    simp [reclaimableStatuses] at hin

end

end ChunkStorage

/-- An uninterrupted attempt completes its chunk. One that fails once its rows are written is completed by a later
attempt exactly when the claims of the hashes are left to it, and one listing shows all the rows. -/
theorem interrupted_attempt_completed [Score S] (C : ChunkStorage V S) (i : Interruption) (retry : ChunkStorage V S)
    {s direct later final : ChunkWorld V} {ids ids' : List String} {rows : List (Row V)}
    (hmd5 : ∀ text, C.writer.md5 text ≠ "")
    (hproject : C.metadata.lookup "project_id" = some (.str C.projectId))
    (hkey : C.metadata.lookup "import_key" = some (.str C.importKey))
    (hu : s.db.HashesUnique) (hg : s.db.GraphSound) (hheld : C.HoldsKey s.db)
    (hnew : C.rowsForKey s.memory.memories = .ok []) (hdirect : C.storeFresh.run s = (.ok ids, direct))
    (hrows : direct.memory.memories.rows = s.memory.memories.rows ++ rows) (hne : rows ≠ [])
    (hbetween : C.Between i ((C.storeUntil i.point i.died).run s).2 later) (hg' : later.db.GraphSound)
    (hheld' : C.HoldsKey later.db) (hretries : C.Retries retry) (hretry : retry.store.run later = (.ok ids', final)) :
    C.Completed rows direct.db ∧
      (ids' = ids ∧ C.Completed rows final.db ↔ i.keepsClaims ∧ rows.length ≤ 1000) := by
  rw [ChunkStorage.storeFresh, Effect.run_bind_attempt] at hdirect
  cases hadd : C.addClaimed.run s with
  | mk r a =>
  rw [hadd] at hdirect
  cases r with
  | error e =>
      obtain ⟨_, _, -, hraise⟩ := Effect.bind_ok.mp hdirect
      cases hraise
  | ok written =>
  dsimp only at hdirect
  rw [Effect.run_bind_read] at hdirect
  obtain ⟨rfl, hmemory, hfinished⟩ := ChunkStorage.finishing_ok hdirect
  have hwrote := ChunkStorage.addClaimed_wrote hu hadd
  have hwritten : written = rows := by
    rw [hmemory, hwrote.memories] at hrows
    exact List.append_cancel_left hrows
  subst hwritten
  have hpairs := ChunkStorage.lookup_pairs hwrote.hashes hwrote.nodup
  have hheldA : C.HoldsKey a.db := by
    rw [hwrote.rest]
    exact hheld
  have hgA : a.db.GraphSound := by
    rw [hwrote.rest]
    exact hg.of_hashes
  have hends := @ChunkStorage.storeUntil_ends _ _ C s _ written _ a _ i.point i.died hadd hu hne hdirect
  have hrecords := hends.2.leaves hbetween
  have hlisted : retry.rowsForKey later.memory.memories = .ok (written.take 1000) := by
    have hsame : retry.rowsForKey later.memory.memories = C.rowsForKey later.memory.memories := by
      simp only [ChunkStorage.rowsForKey, hretries.writer, hretries.projectId, hretries.importKey]
    rw [hsame, hbetween.memories, hends.1]
    exact ChunkStorage.rowsForKey_wrote hproject hkey hnew hwrote
  have htake : written.take 1000 ≠ [] := by simpa using hne
  obtain ⟨rfl, hfinal⟩ := ChunkStorage.retry_ok hretries.reconciles hlisted htake hretry
  have hfinal := hfinal.of_retries hretries
  refine ⟨hfinished.completed hwrote.unique hgA hheldA fun row hrow => ?_, ?_, ?_⟩
  · obtain ⟨hash, hmem, hlookup, hid⟩ := hpairs row hrow
    obtain ⟨record, hat, hstatus, hrecord⟩ := ChunkStorage.marked_of_holds (hwrote.holds hash hmem) hmem
    exact ⟨hash, record, hlookup, hat, hstatus, hrecord.trans hid⟩
  · rintro ⟨hids, hdone⟩
    constructor
    · by_contra hlost
      obtain ⟨row, hrow⟩ := List.exists_mem_of_ne_nil _ hne
      obtain ⟨hash, record, hlookup, hat, -⟩ := hdone.hashes row hrow
      obtain ⟨hash', hmem, hlookup', -⟩ := hpairs row hrow
      cases hlookup.symm.trans hlookup'
      rw [hfinal.hashAt, hrecords.gone hlost hash hmem] at hat
      cases hat
    · have hlength := congrArg List.length hids
      simp only [List.length_map, List.length_take] at hlength
      omega
  · rintro ⟨hkeeps, hlength⟩
    rw [List.take_of_length_le hlength] at hfinal ⊢
    have hidsByHash : retry.idsByHash written = a.claimed.zip (written.map Row.id) := by
      refine ChunkStorage.idsByHash_pairs hwrote.hashes hwrote.nodup fun hash hmem => ?_
      obtain ⟨text, rfl⟩ := hwrote.named hash hmem
      exact hmd5 text
    rw [hidsByHash, List.map_fst_zip (by simp [hwrote.hashes.length_eq])] at hfinal
    refine ⟨rfl, hfinal.completed hrecords.unique hg' hheld' fun row hrow => ?_⟩
    obtain ⟨hash, hmem, hlookup, hid⟩ := hpairs row hrow
    cases hmarked : i.point.marked with
    | false =>
        obtain ⟨record, hat, hstatus, hrecord⟩ :=
          ChunkStorage.marked_of_holds (hrecords.kept hmarked hkeeps hash hmem) hmem
        exact ⟨hash, record, hlookup, hat, hstatus, hrecord.trans hid⟩
    | true =>
        obtain ⟨record, hat, hstatus, hrecord⟩ := hrecords.marked hmarked hash hmem
        refine ⟨hash, record, hlookup, ?_, hstatus, hrecord.trans hid⟩
        rw [hat, Option.map_some, HashRow.marked, if_neg]
        simp [HashRow.claimedBy, hstatus]

/-! ## One fact -/

/-- A chunk with one fact. -/
def keyedFact : ChunkStorage Unit ℚ :=
  { twoFacts with
    writer := { Writer.plain .ascii with md5 := fun text => "#" ++ text }
    metadata := [("user_id", .str "u"), ("project_id", .str "p"), ("import_key", .str "key")]
    extracted := .ok [[("text", .str "x")]] }

def keyedRetry : ChunkStorage Unit ℚ := { keyedFact with reconciles := true }

theorem keyedRetry_retries : keyedFact.Retries keyedRetry := ⟨rfl, rfl, rfl, rfl, rfl, rfl, rfl⟩

theorem keyedFact_md5 (text : String) : keyedFact.writer.md5 text ≠ "" := by
  intro h
  have hlength : ("#" ++ text).length = 0 := congrArg String.length h
  simp at hlength

/-- The job holds the key. -/
def claimedKey : ChunkWorld Unit :=
  ⟨noMemories, ⟨[], [], [⟨"manifest", "p", "key", some "job", some "chunk", .claimed, 1, [], none⟩], [], [], []⟩, []⟩

def storedFact : ChunkWorld Unit := (keyedFact.storeFresh.run claimedKey).2

theorem storeFresh_keyedFact : keyedFact.storeFresh.run claimedKey = (.ok ["id-#x"], storedFact) := by
  refine Prod.ext ?_ rfl
  simp only [ChunkStorage.storeFresh, ChunkStorage.addClaimed, Table.search, select_scope]
  rfl

theorem storedFact_ids : storedFact.memory.memories.rows.map Row.id = ["id-#x"] := by
  simp only [storedFact, ChunkStorage.storeFresh, ChunkStorage.addClaimed, Table.search, select_scope]
  rfl

theorem storedFact_ne : storedFact.memory.memories.rows ≠ [] := by
  intro hnil
  have hids := storedFact_ids
  rw [hnil] at hids
  cases hids

/-- The graph items of the fact cannot be added. -/
def unlistedFact : ChunkWorld Unit := ((keyedFact.storeUntil .graphItems false).run claimedKey).2

/-- The messages cannot be saved once the fact is stored. -/
def unsavedFact : ChunkWorld Unit := ((keyedFact.storeUntil .savedMessages false).run claimedKey).2

theorem graphSound_empty {db : Database} (hjobs : db.jobs = []) (hitems : db.graphItems = []) : db.GraphSound := by
  constructor
  · simp [hjobs]
  · simp [hitems]
  · simp [hitems]
  · simp [hjobs]

theorem holdsKey_of_manifests {db : Database} (h : db.manifests = claimedKey.db.manifests) : keyedFact.HoldsKey db := by
  rw [ChunkStorage.HoldsKey, Database.manifestAt, h]
  exact ⟨_, rfl, rfl⟩

theorem unlistedFact_tables : unlistedFact.db.jobs = [] ∧ unlistedFact.db.graphItems = [] ∧
    unlistedFact.db.manifests = claimedKey.db.manifests := by
  simp only [unlistedFact, ChunkStorage.storeUntil, ChunkStorage.addClaimed, Table.search, select_scope]
  exact ⟨rfl, rfl, rfl⟩

theorem keyedRetry_unlisted : keyedRetry.store.run unlistedFact =
    (.ok ["id-#x"], (keyedRetry.store.run unlistedFact).2) := by
  refine Prod.ext ?_ rfl
  simp only [ChunkStorage.store, unlistedFact, ChunkStorage.storeUntil, ChunkStorage.addClaimed, Table.search,
    select_scope, ChunkStorage.rowsForKey_eq]
  rfl

theorem unlisted_fact_completed :
    keyedFact.Completed storedFact.memory.memories.rows storedFact.db ∧
      (["id-#x"] = ["id-#x"] ∧
          keyedFact.Completed storedFact.memory.memories.rows (keyedRetry.store.run unlistedFact).2.db ↔
        (Interruption.mk .graphItems false false).keepsClaims ∧ storedFact.memory.memories.rows.length ≤ 1000) :=
  @interrupted_attempt_completed _ _ _ keyedFact ⟨.graphItems, false, false⟩ keyedRetry claimedKey storedFact
    unlistedFact _ _ _ _ keyedFact_md5 rfl rfl
    ⟨List.nodup_nil, List.nodup_nil⟩ (graphSound_empty rfl rfl) ⟨_, rfl, rfl⟩ (ChunkStorage.rowsForKey_eq _)
    storeFresh_keyedFact rfl storedFact_ne ⟨rfl, rfl, rfl⟩
    (graphSound_empty unlistedFact_tables.1 unlistedFact_tables.2.1) (holdsKey_of_manifests unlistedFact_tables.2.2)
    keyedRetry_retries keyedRetry_unlisted

theorem unsavedFact_tables : unsavedFact.db.jobs = [] ∧ unsavedFact.db.graphItems = [] ∧
    unsavedFact.db.manifests = claimedKey.db.manifests := by
  simp only [unsavedFact, ChunkStorage.storeUntil, ChunkStorage.addClaimed, Table.search, select_scope]
  exact ⟨rfl, rfl, rfl⟩

theorem keyedRetry_unsaved : (keyedRetry.store.run unsavedFact).1 = .ok ["id-#x"] ∧
    (keyedRetry.store.run unsavedFact).2.db.hashes = [] := by
  simp only [ChunkStorage.store, unsavedFact, ChunkStorage.storeUntil, ChunkStorage.addClaimed, Table.search,
    select_scope, ChunkStorage.rowsForKey_eq]
  exact ⟨rfl, rfl⟩

/-- A failure that is raised after the insert releases the claim, and the reconciled memory has no record. -/
theorem unsaved_fact_without_record :
    ¬ ∀ (C : ChunkStorage Unit ℚ) (i : Interruption) (retry : ChunkStorage Unit ℚ)
        (s direct later final : ChunkWorld Unit) (ids ids' : List String) (rows : List (Row Unit)),
      (∀ text, C.writer.md5 text ≠ "") → C.metadata.lookup "project_id" = some (.str C.projectId) →
      C.metadata.lookup "import_key" = some (.str C.importKey) → s.db.HashesUnique → s.db.GraphSound →
      C.HoldsKey s.db → C.rowsForKey s.memory.memories = .ok [] → C.storeFresh.run s = (.ok ids, direct) →
      direct.memory.memories.rows = s.memory.memories.rows ++ rows → rows ≠ [] →
      C.Between i ((C.storeUntil i.point i.died).run s).2 later → later.db.GraphSound → C.HoldsKey later.db →
      C.Retries retry → retry.store.run later = (.ok ids', final) → ids' = ids ∧ C.Completed rows final.db := by
  intro h
  have hdone := h keyedFact ⟨.savedMessages, false, false⟩ keyedRetry claimedKey storedFact unsavedFact
    (keyedRetry.store.run unsavedFact).2 _ _ storedFact.memory.memories.rows keyedFact_md5 rfl rfl
    ⟨List.nodup_nil, List.nodup_nil⟩ (graphSound_empty rfl rfl) ⟨_, rfl, rfl⟩ (ChunkStorage.rowsForKey_eq _)
    storeFresh_keyedFact rfl storedFact_ne ⟨rfl, rfl, rfl⟩
    (graphSound_empty unsavedFact_tables.1 unsavedFact_tables.2.1) (holdsKey_of_manifests unsavedFact_tables.2.2)
    keyedRetry_retries (Prod.ext keyedRetry_unsaved.1 rfl)
  obtain ⟨row, hrow⟩ := List.exists_mem_of_ne_nil _ storedFact_ne
  obtain ⟨hash, record, _, hat, _⟩ := hdone.2.hashes row hrow
  rw [Database.hashAt, keyedRetry_unsaved.2] at hat
  cases hat

end YiQiao
