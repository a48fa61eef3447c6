import YiQiao.Import.StoreChunk

/-!
# Hash records

What the calls of the repository do to the one record of a hash in a conversation.
-/

namespace YiQiao

open Lib

variable {db db' : Database} {p k hash : String} {fence : Option String} {now : Instant}

def HashRow.key (row : HashRow) : String × String × String := (row.projectId, row.conversationId, row.memoryHash)

/-- The unique constraints of the table of hashes. -/
structure Database.HashesUnique (db : Database) : Prop where
  ids : (db.hashes.map HashRow.id).Nodup
  keys : (db.hashes.map HashRow.key).Nodup

/-- The record of a hash. -/
def Database.hashAt (db : Database) (projectId conversationId memoryHash : String) : Option HashRow :=
  db.hashes.find? (HashRow.isAt projectId conversationId memoryHash)

@[simp]
theorem HashRow.isAt_iff {row : HashRow} : row.isAt p k hash = true ↔ row.key = (p, k, hash) := by
  simp [HashRow.isAt, HashRow.key, and_assoc]

@[simp]
theorem HashRow.claimedBy_iff {row : HashRow} {jobId chunkId : String} : row.claimedBy jobId chunkId none = true ↔
    row.jobId = some jobId ∧ row.chunkId = some chunkId ∧ row.status = .claimed := by
  simp [HashRow.claimedBy, and_assoc]

theorem hashAt_some {row : HashRow} (h : db.hashAt p k hash = some row) : row ∈ db.hashes ∧ row.key = (p, k, hash) :=
  ⟨List.mem_of_find?_eq_some h, HashRow.isAt_iff.mp (List.find?_some h)⟩

theorem hashAt_none (h : db.hashAt p k hash = none) {row : HashRow} (hrow : row ∈ db.hashes) :
    row.key ≠ (p, k, hash) := fun hkey => by simpa using List.find?_eq_none.mp h row hrow (HashRow.isAt_iff.mpr hkey)

theorem hashAt_of_mem (hu : db.HashesUnique) {row : HashRow} (hrow : row ∈ db.hashes) (hkey : row.key = (p, k, hash)) :
    db.hashAt p k hash = some row := by
  cases hat : db.hashAt p k hash with
  | none => exact absurd hkey (hashAt_none hat hrow)
  | some row' =>
      obtain ⟨hrow', hkey'⟩ := hashAt_some hat
      rw [eq_of_key_eq hu.keys hrow' hrow (hkey'.trans hkey.symm)]

/-- A change that leaves the columns of the key and of the id. -/
structure KeepsKey (change : HashRow → HashRow) : Prop where
  id : ∀ row, (change row).id = row.id
  key : ∀ row, (change row).key = row.key

theorem Database.HashesUnique.update {hit : HashRow → Bool} {change : HashRow → HashRow} (hu : db.HashesUnique)
    (hchange : KeepsKey change) : ({ db with hashes := updateRows hit change db.hashes } : Database).HashesUnique :=
  ⟨nodup_updateRows hchange.id hu.ids, nodup_updateRows hchange.key hu.keys⟩

theorem hashAt_update {hit : HashRow → Bool} {change : HashRow → HashRow} (hchange : KeepsKey change) :
    ({ db with hashes := updateRows hit change db.hashes } : Database).hashAt p k hash =
      (db.hashAt p k hash).map fun row => if hit row then change row else row :=
  find?_updateRows fun row => by rw [Bool.eq_iff_iff, HashRow.isAt_iff, HashRow.isAt_iff, hchange.key]

/-! ## Claims -/

def HashClaim.key (c : HashClaim) : String × String × String := (c.projectId, c.conversationId, c.memoryHash)

/-- What a claim that answered did. -/
structure Claimed (c : HashClaim) (answer : Bool) (db db' : Database) : Prop where
  rest : db' = { db with hashes := db'.hashes }
  unique : db'.HashesUnique
  taken : answer = true → (∀ row, db.hashAt c.projectId c.conversationId c.memoryHash = some row →
      row.status ∈ reclaimableStatuses) ∧
    ∃ row, db'.hashAt c.projectId c.conversationId c.memoryHash = some row ∧ row.status = .claimed ∧
      row.jobId = some c.jobId ∧ row.chunkId = some c.chunkId
  refused : answer = false → db' = db ∧ ∃ row, db.hashAt c.projectId c.conversationId c.memoryHash = some row ∧
    row.status ∉ reclaimableStatuses
  others : ∀ p k hash, (p, k, hash) ≠ c.key → db'.hashAt p k hash = db.hashAt p k hash

theorem insertHash_claimed {c : HashClaim} {answer : Bool} (hu : db.HashesUnique)
    (h : insertHash fence c now db = .ok (answer, db')) : Claimed c answer db db' := by
  rw [insertHash, Fallible.bind_ok] at h
  obtain ⟨hashes, hinsert, h⟩ := h
  cases h
  rw [insertRow] at hinsert
  split at hinsert
  · cases hinsert
  · split at hinsert
    · cases hinsert
    · rename_i hfree
      cases hinsert
      simp only [List.any_eq_true, Bool.or_eq_true, HashRow.isAt_iff, decide_eq_true_eq, not_exists, not_and,
        not_or] at hfree
      have hkey : c.row.key = c.key := rfl
      have hnone : db.hashes.find? (HashRow.isAt c.projectId c.conversationId c.memoryHash) = none := by
        rw [List.find?_eq_none]
        intro row hrow hat
        exact (hfree row hrow).1 (HashRow.isAt_iff.mp hat)
      refine ⟨rfl, ⟨?_, ?_⟩, fun _ => ⟨?_, c.row, ?_, rfl, rfl, rfl⟩, by simp, ?_⟩
      · rw [List.map_append, List.nodup_append]
        refine ⟨hu.ids, List.nodup_singleton _, fun id hid id' hid' => ?_⟩
        obtain ⟨row, hrow, rfl⟩ := List.mem_map.mp hid
        rw [List.mem_singleton.mp hid']
        exact (hfree row hrow).2
      · rw [List.map_append, List.nodup_append]
        refine ⟨hu.keys, List.nodup_singleton _, fun key hmem key' hmem' => ?_⟩
        obtain ⟨row, hrow, rfl⟩ := List.mem_map.mp hmem
        rw [List.mem_singleton.mp hmem']
        exact (hfree row hrow).1
      · intro row hrow
        rw [Database.hashAt, hnone] at hrow
        cases hrow
      · have hat : c.row.isAt c.projectId c.conversationId c.memoryHash = true := HashRow.isAt_iff.mpr rfl
        simp [Database.hashAt, List.find?_append, hnone, hat]
      · intro p k hash hne
        have hat : c.row.isAt p k hash = false := by
          rw [Bool.eq_false_iff]
          exact fun hat => hne (HashRow.isAt_iff.mp hat).symm
        simp [Database.hashAt, List.find?_append, hat]

theorem reclaimHash_claimed {c : HashClaim} {answer : Bool} (hu : db.HashesUnique)
    (h : reclaimHash fence c now db = .ok (answer, db')) : Claimed c answer db db' := by
  rw [reclaimHash] at h
  split at h
  · cases h
  · rename_i existing hexisting
    have hat : db.hashAt c.projectId c.conversationId c.memoryHash = some existing := hexisting
    obtain ⟨hmem, hkey⟩ := hashAt_some hat
    rw [Fallible.bind_ok] at h
    obtain ⟨_, htouched, h⟩ := h
    cases h
    set hit := fun row : HashRow =>
      row.id = existing.id && row.status ∈ reclaimableStatuses && db.allows fence c.jobId now with hhit
    have hchange : KeepsKey fun row : HashRow => { row with
        jobId := some c.jobId, chunkId := some c.chunkId, status := .claimed, memoryId := none } :=
      ⟨fun _ => rfl, fun _ => rfl⟩
    have honly : ∀ row ∈ db.hashes, hit row = true → row = existing := by
      intro row hrow hrowHit
      simp only [hhit, Bool.and_eq_true, decide_eq_true_eq] at hrowHit
      exact eq_of_key_eq hu.ids hrow hmem hrowHit.1.1
    refine ⟨rfl, hu.update hchange, fun htrue => ?_, fun hfalse => ?_, fun p k hash hne => ?_⟩
    · have hne : hitRows hit db.hashes ≠ 0 := by simpa using htrue
      obtain ⟨row, hrow, hrowHit⟩ : ∃ row ∈ db.hashes, hit row = true := by
        by_contra hnone
        push Not at hnone
        exact hne (hitRows_eq_zero.mpr fun row hrow => Bool.eq_false_iff.mpr (hnone row hrow))
      cases honly row hrow hrowHit
      refine ⟨fun row' hrow' => ?_, ?_⟩
      · cases hat.symm.trans hrow'
        simp only [hhit, Bool.and_eq_true, decide_eq_true_eq] at hrowHit
        exact hrowHit.1.2
      · rw [hashAt_update hchange, hat]
        exact ⟨_, by rw [Option.map_some, if_pos hrowHit], rfl, rfl, rfl⟩
    · have hzero : hitRows hit db.hashes = 0 := by simpa using hfalse
      refine ⟨by rw [updateRows_of_none (hitRows_eq_zero.mp hzero)], existing, hat, fun hreclaimable => ?_⟩
      have hallowed : db.allows fence c.jobId now = true := by
        rw [checkTouched, if_pos hzero, assertActiveLease] at htouched
        by_contra hnot
        rw [if_neg hnot] at htouched
        cases htouched
      have hmiss := hitRows_eq_zero.mp hzero existing hmem
      simp [hhit, hreclaimable, hallowed] at hmiss
    · rw [hashAt_update hchange]
      cases hother : db.hashAt p k hash with
      | none => rfl
      | some row =>
          obtain ⟨hrow, hrowKey⟩ := hashAt_some hother
          rw [Option.map_some, if_neg]
          intro hrowHit
          rw [honly row hrow hrowHit, hkey] at hrowKey
          exact hne hrowKey.symm

theorem claimMemoryHash_claimed {c : HashClaim} {answer : Bool} (hu : db.HashesUnique)
    (h : claimMemoryHash fence c now db = .ok (answer, db')) : Claimed c answer db db' := by
  rw [claimMemoryHash] at h
  split at h
  · exact reclaimHash_claimed hu h
  · exact insertHash_claimed hu h

/-! ## Marks -/

section

variable {jobId chunkId : String} {hashes : List String} {idByHash : List (String × String)}

/-- A claim of the chunk becomes a success where it is marked. -/
def HashRow.marked (jobId chunkId : String) (hashes : List String) (idByHash : List (String × String))
    (row : HashRow) : HashRow :=
  if row.memoryHash ∈ hashes ∧ row.claimedBy jobId chunkId none then
    { row with status := .succeeded, memoryId := idByHash.lookup row.memoryHash }
  else row

/-- The record of every hash after the marks. -/
structure Marked (p k jobId chunkId : String) (hashes : List String) (idByHash : List (String × String))
    (db db' : Database) : Prop where
  rest : db' = { db with hashes := db'.hashes }
  unique : db.HashesUnique → db'.HashesUnique
  marks : ∀ hash, db'.hashAt p k hash = (db.hashAt p k hash).map (HashRow.marked jobId chunkId hashes idByHash)
  others : ∀ p' k' hash, (p', k') ≠ (p, k) → db'.hashAt p' k' hash = db.hashAt p' k' hash

theorem succeedHash_keeps {memoryId : Option String} :
    KeepsKey fun row : HashRow => { row with status := .succeeded, memoryId := memoryId } :=
  ⟨fun _ => rfl, fun _ => rfl⟩

/-- One more mark. -/
theorem marked_snoc {row : HashRow} (hproject : row.projectId = p) (hconversation : row.conversationId = k) :
    (if (row.marked jobId chunkId hashes idByHash).isAt p k hash &&
          (row.marked jobId chunkId hashes idByHash).claimedBy jobId chunkId none && true then
        { row.marked jobId chunkId hashes idByHash with status := .succeeded, memoryId := idByHash.lookup hash }
      else row.marked jobId chunkId hashes idByHash) = row.marked jobId chunkId (hashes ++ [hash]) idByHash := by
  by_cases hclaimed : row.claimedBy jobId chunkId none = true
  · by_cases hknown : row.memoryHash ∈ hashes
    · have hdone : row.marked jobId chunkId hashes idByHash =
          { row with status := .succeeded, memoryId := idByHash.lookup row.memoryHash } := if_pos ⟨hknown, hclaimed⟩
      have hnot : HashRow.claimedBy jobId chunkId none
          { row with status := .succeeded, memoryId := idByHash.lookup row.memoryHash } = false := by
        simp [HashRow.claimedBy]
      have hright : row.marked jobId chunkId (hashes ++ [hash]) idByHash =
          { row with status := .succeeded, memoryId := idByHash.lookup row.memoryHash } :=
        if_pos ⟨List.mem_append_left _ hknown, hclaimed⟩
      rw [hdone, hnot, hright]
      simp
    · have hplain : row.marked jobId chunkId hashes idByHash = row := if_neg fun h => hknown h.1
      by_cases hsame : row.memoryHash = hash
      · subst hsame
        have hat : row.isAt p k row.memoryHash = true := by simp [HashRow.key, hproject, hconversation]
        have hright : row.marked jobId chunkId (hashes ++ [row.memoryHash]) idByHash =
            { row with status := .succeeded, memoryId := idByHash.lookup row.memoryHash } :=
          if_pos ⟨List.mem_append_right _ List.mem_cons_self, hclaimed⟩
        rw [hplain, hright, hat, hclaimed]
        rfl
      · have hat : row.isAt p k hash = false := by simp [HashRow.isAt, hsame]
        have hright : row.marked jobId chunkId (hashes ++ [hash]) idByHash = row :=
          if_neg fun h => (List.mem_append.mp h.1).elim hknown fun h => hsame (List.mem_singleton.mp h)
        rw [hplain, hright, hat]
        rfl
  · have hplain : ∀ known, row.marked jobId chunkId known idByHash = row := fun known => if_neg fun h => hclaimed h.2
    rw [hplain, hplain, Bool.eq_false_iff.mpr hclaimed, Bool.and_false]
    rfl

theorem markMemoryHashesSucceeded_marked
    (h : markMemoryHashesSucceeded fence p k jobId chunkId hashes idByHash now db = .ok db') :
    Marked p k jobId chunkId hashes idByHash db db' := by
  rw [markMemoryHashesSucceeded, Fallible.bind_ok] at h
  obtain ⟨_, hlease, h⟩ := h
  have hallowed : db.allows fence jobId now = true := by
    rw [assertActiveLease] at hlease
    by_contra hnot
    rw [if_neg hnot] at hlease
    cases hlease
  cases h
  rw [hallowed]
  clear hlease hallowed
  suffices ∀ (known : List String) (db₀ : Database),
      (∀ hash, db₀.hashAt p k hash = (db.hashAt p k hash).map (HashRow.marked jobId chunkId known idByHash)) →
      (∀ p' k' hash, (p', k') ≠ (p, k) → db₀.hashAt p' k' hash = db.hashAt p' k' hash) →
      (db.HashesUnique → db₀.HashesUnique) →
      ∀ rows, rows = hashes.foldl (fun rows memoryHash => succeedHash true p k jobId chunkId
        (idByHash.lookup memoryHash) memoryHash rows) db₀.hashes →
      Marked p k jobId chunkId (known ++ hashes) idByHash db { db with hashes := rows } by
    refine this [] db (fun hash => ?_) (fun _ _ _ _ => rfl) id _ rfl
    cases db.hashAt p k hash with
    | none => rfl
    | some row => simp [HashRow.marked]
  induction hashes with
  | nil =>
      intro known db₀ hmarks hothers hunique rows hrows
      subst hrows
      rw [List.append_nil]
      exact ⟨rfl, fun hu => ⟨(hunique hu).ids, (hunique hu).keys⟩, hmarks, hothers⟩
  | cons hash hashes ih =>
      intro known db₀ hmarks hothers hunique rows hrows
      rw [List.foldl_cons] at hrows
      have hnext := ih (known ++ [hash])
        { db₀ with hashes := succeedHash true p k jobId chunkId (idByHash.lookup hash) hash db₀.hashes } ?_ ?_ ?_ rows
        hrows
      · rwa [List.append_assoc, List.singleton_append] at hnext
      · intro hash'
        rw [succeedHash, hashAt_update succeedHash_keeps, hmarks]
        cases hat : db.hashAt p k hash' with
        | none => rfl
        | some row =>
            have hkey := (hashAt_some hat).2
            simp only [HashRow.key, Prod.mk.injEq] at hkey
            rw [Option.map_some, Option.map_some, Option.map_some, marked_snoc hkey.1 hkey.2.1]
      · intro p' k' hash' hne
        rw [succeedHash, hashAt_update succeedHash_keeps, hothers p' k' hash' hne]
        cases hat : db.hashAt p' k' hash' with
        | none => rfl
        | some row =>
            have hkey := (hashAt_some hat).2
            rw [Option.map_some, if_neg]
            simp only [Bool.and_eq_true, HashRow.isAt_iff, hkey, Prod.mk.injEq, not_and]
            intro hat'
            simp [hat'.1.1, hat'.1.2.1] at hne
      · exact fun hu => (hunique hu).update succeedHash_keeps

/-! ## Releases -/

/-- A released claim is gone, and every other record stays. -/
theorem hashAt_release {given : Option (List String)} {allowed : Bool} (hu : db.HashesUnique) (hash : String) :
    ({ db with hashes := deleteRows (fun row => row.claimedBy jobId chunkId given && allowed) db.hashes } :
      Database).hashAt p k hash =
      (db.hashAt p k hash).filter fun row => !(row.claimedBy jobId chunkId given && allowed) := by
  set hit := fun row : HashRow => row.claimedBy jobId chunkId given && allowed with hhit
  have hu' : ({ db with hashes := deleteRows hit db.hashes } : Database).HashesUnique :=
    ⟨hu.ids.sublist (List.filter_sublist.map _), hu.keys.sublist (List.filter_sublist.map _)⟩
  cases hat : db.hashAt p k hash with
  | none =>
      rw [Option.filter_none]
      cases hat' : ({ db with hashes := deleteRows hit db.hashes } : Database).hashAt p k hash with
      | none => rfl
      | some row =>
          obtain ⟨hrow, hkey⟩ := hashAt_some hat'
          exact absurd hkey (hashAt_none hat (mem_deleteRows.mp hrow).1)
  | some row =>
      obtain ⟨hrow, hkey⟩ := hashAt_some hat
      cases hrowHit : hit row with
      | true =>
          have hgone : ({ db with hashes := deleteRows hit db.hashes } : Database).hashAt p k hash = none := by
            cases hat' : ({ db with hashes := deleteRows hit db.hashes } : Database).hashAt p k hash with
            | none => rfl
            | some row' =>
                obtain ⟨hrow', hkey'⟩ := hashAt_some hat'
                obtain ⟨hold, hmiss⟩ := mem_deleteRows.mp hrow'
                rw [eq_of_key_eq hu.keys hold hrow (hkey'.trans hkey.symm), hrowHit] at hmiss
                cases hmiss
          rw [hgone, Option.filter_some, if_neg]
          simpa [hhit] using hrowHit
      | false =>
          have hstays := hashAt_of_mem hu' (mem_deleteRows.mpr ⟨hrow, hrowHit⟩) hkey
          have hmiss : (row.claimedBy jobId chunkId given && allowed) = false := hrowHit
          rw [hstays, Option.filter_some, hmiss]
          rfl

theorem Database.HashesUnique.release {hit : HashRow → Bool} (hu : db.HashesUnique) :
    ({ db with hashes := deleteRows hit db.hashes } : Database).HashesUnique :=
  ⟨hu.ids.sublist (List.filter_sublist.map _), hu.keys.sublist (List.filter_sublist.map _)⟩

end

end YiQiao
