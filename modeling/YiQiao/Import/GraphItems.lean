import YiQiao.Import.Fence
import YiQiao.Lib.Firsts
import YiQiao.Memory.Scope

/-!
# Graph items

The memories of a chunk that wait for the graph. Adding items counts the new ones on top of what the job has counted,
marking items counts all of the job's items again.
-/

namespace YiQiao

open Lib

/-! ## Calls -/

/-- The key and the memory id that `_graph_payload` finds; the key is never empty. -/
def graphPayload (P : Platform) (item : Entries) : Except PyError (String × String) :=
  let source := match Payload.get item "payload" with
    | .dict d => d
    | _ => item
  let memoryId := (((Payload.get source "memory_id").orElse (Payload.get item "memory_id")).orElse (.str "")).pyStr P
  if memoryId = "" then .error (.valueError "Each graph item requires memory_id")
  else .ok (((Payload.get item "item_key").orElse (.str memoryId)).pyStr P, memoryId)

/-- The items with the ids that are drawn for them; of one key the first. -/
def prepareGraphItems (P : Platform) (items : List (Entries × String)) : Except PyError (List GraphItem) :=
  (items.mapM fun item => (graphPayload P item.1).map fun keys => (⟨item.2, keys.1, keys.2⟩ : GraphItem)).map
    (firstsBy GraphItem.itemKey)

/-- What `mark_graph_items` writes into a row. -/
def GraphItemRow.mark (status : RecordStatus) (error : Option String) (incrementAttempts : Bool)
    (row : GraphItemRow) : GraphItemRow :=
  { row with
    status := status
    lastError := if status = .synced then none else error
    attempts := if incrementAttempts then row.attempts + 1 else row.attempts }

/-- The attempt that `mark_graph_items` counts. -/
def JobRow.attemptGraph (job : JobRow) : JobRow :=
  { job with counters := { job.counters with graphAttempts := job.counters.graphAttempts + 1 } }

/-- `mark_graph_items` without a job, and so without a lease. -/
def markGraphItemsAnywhere (ids : List String) (status : RecordStatus) (error : Option String)
    (incrementAttempts : Bool) (now : Instant) (db : Database) : Except RepositoryError (Nat × Database) :=
  if ids = [] then .ok (0, db)
  else do
    let hit := fun row : GraphItemRow => decide (row.id ∈ ids)
    let jobIds := ((db.graphItems.filter hit).map GraphItemRow.jobId).dedup
    let marked := { db with graphItems := updateRows hit (GraphItemRow.mark status error incrementAttempts) db.graphItems }
    let counted :=
      if incrementAttempts then { marked with jobs := updateRows (fun job => job.id ∈ jobIds) JobRow.attemptGraph marked.jobs }
      else marked
    let refreshed ← jobIds.foldlM (fun db jobId => refreshGraphJobCounts none jobId error now db) counted
    pure (hitRows hit db.graphItems, refreshed)

inductive GraphCall where
  | add (fence : Option String) (jobId chunkId : String) (items : List (Entries × String))
  | mark (fence : Option String) (jobId : String) (ids : List String) (status : RecordStatus) (error : Option String)
      (incrementAttempts : Bool)
  | markAnywhere (ids : List String) (status : RecordStatus) (error : Option String) (incrementAttempts : Bool)

/-- The database after the call, where it raises nothing. -/
def GraphCall.run (P : Platform) (now : Instant) (db : Database) : GraphCall → Option Database
  | .add fence jobId chunkId items =>
      (prepareGraphItems P items).toOption.bind fun items => (addGraphItems fence jobId chunkId items now db).toOption
  | .mark fence jobId ids status error incrementAttempts =>
      (markGraphItems fence jobId ids status error incrementAttempts now db).toOption.map Prod.snd
  | .markAnywhere ids status error incrementAttempts =>
      (markGraphItemsAnywhere ids status error incrementAttempts now db).toOption.map Prod.snd

/-- A call at an instant; one that is cut never commits. -/
structure TimedGraphCall where
  call : GraphCall
  now : Instant
  cut : Bool

/-- What a call leaves: an error rolls everything back. -/
def TimedGraphCall.after (P : Platform) (db : Database) (timed : TimedGraphCall) : Database :=
  if timed.cut then db else (timed.call.run P timed.now db).getD db

/-- The databases before and after every call. -/
def graphStates (P : Platform) (db : Database) : List TimedGraphCall → List Database
  | [] => [db]
  | timed :: rest => db :: graphStates P (timed.after P db) rest

/-! ## What holds of the counters -/

/-- The number of items of the job in a status. -/
def Database.graphCount (db : Database) (jobId : String) (status : RecordStatus) : Nat :=
  countStatus status (db.graphItems.filter fun row => row.jobId = jobId)

structure JobRow.CountsGraph (db : Database) (job : JobRow) : Prop where
  pending : job.graphPendingItems = db.graphCount job.id .pending
  synced : job.graphSyncedItems = db.graphCount job.id .synced
  failed : job.graphFailedItems = db.graphCount job.id .failed

def GraphItemRow.key (row : GraphItemRow) : String × String × String := (row.jobId, row.chunkId, row.itemKey)

structure Database.GraphSound (db : Database) : Prop where
  jobIds : (db.jobs.map JobRow.id).Nodup
  itemIds : (db.graphItems.map GraphItemRow.id).Nodup
  keys : (db.graphItems.map GraphItemRow.key).Nodup
  counts : ∀ job ∈ db.jobs, job.CountsGraph db

/-- The jobs are new: nothing waits for the graph, and nothing is counted. -/
structure Database.GraphFresh (db : Database) : Prop where
  jobIds : (db.jobs.map JobRow.id).Nodup
  items : db.graphItems = []
  counts : ∀ job ∈ db.jobs, job.graphPendingItems = 0 ∧ job.graphSyncedItems = 0 ∧ job.graphFailedItems = 0

section
variable {db db' : Database} {fence : Option String} {jobId chunkId : String} {now : Instant}

theorem GraphItemRow.isAt_iff {row : GraphItemRow} {itemKey : String} :
    row.isAt jobId chunkId itemKey = true ↔ row.key = (jobId, chunkId, itemKey) := by
  simp [GraphItemRow.isAt, GraphItemRow.key, and_assoc]

theorem Database.GraphFresh.sound (h : db.GraphFresh) : db.GraphSound where
  jobIds := h.jobIds
  itemIds := by rw [h.items]; exact List.nodup_nil
  keys := by rw [h.items]; exact List.nodup_nil
  counts := by
    intro job hjob
    obtain ⟨hpending, hsynced, hfailed⟩ := h.counts job hjob
    constructor
    · rw [hpending, Database.graphCount, h.items]; rfl
    · rw [hsynced, Database.graphCount, h.items]; rfl
    · rw [hfailed, Database.graphCount, h.items]; rfl

/-- Ids are unique, so that a statement on a job that goes through touches all rows with its id. -/
theorem changeJob_all {change : JobRow → JobRow} {r : Option JobRow × Database} (hids : (db.jobs.map JobRow.id).Nodup)
    (h : changeJob fence jobId now change db = .ok r) :
    r.2 = { db with jobs := updateRows (fun job => decide (job.id = jobId)) change db.jobs } := by
  unfold changeJob at h
  dsimp only at h
  split at h
  · cases h
  · rename_i hleft
    cases h
    have hsame : ∀ job ∈ db.jobs, (decide (job.id = jobId) && job.leasedTo fence now) = decide (job.id = jobId) := by
      intro job hjob
      by_cases hid : job.id = jobId
      · cases hfence : fence with
        | none => simp [JobRow.leasedTo]
        | some owner =>
            have htouched := not_and.mp hleft (by rw [hfence]; rfl)
            obtain ⟨other, hother, hhit⟩ : ∃ other ∈ db.jobs, (decide (other.id = jobId) && other.leasedTo fence now) = true := by
              by_contra hnone
              refine htouched (hitRows_eq_zero.mpr fun other hother => Bool.eq_false_iff.mpr fun hhit => ?_)
              exact hnone ⟨other, hother, hhit⟩
            rw [Bool.and_eq_true, decide_eq_true_eq] at hhit
            rw [eq_of_key_eq hids hjob hother (hid.trans hhit.1.symm), ← hfence]
            simp [hhit.1, hhit.2]
      · simp [hid]
    have hjobs : updateRows (fun job => decide (job.id = jobId) && job.leasedTo fence now) change db.jobs =
        updateRows (fun job => decide (job.id = jobId)) change db.jobs :=
      List.map_congr_left fun job hjob => by simp only [hsame job hjob]
    dsimp only
    rw [hjobs]

/-! ## Adding items -/

theorem insertRow_ok {α : Type} {rows rows' : List α} {conflicts : α → Bool} {row : α}
    (h : insertRow fence jobId now db rows conflicts row = .ok rows') :
    rows' = rows ++ [row] ∧ ∀ old ∈ rows, conflicts old = false := by
  unfold insertRow at h
  split at h
  · cases h
  · split at h
    · cases h
    · rename_i hconflict
      cases h
      refine ⟨rfl, fun old hold => Bool.eq_false_iff.mpr fun hconf => hconflict ?_⟩
      exact List.any_eq_true.mpr ⟨old, hold, hconf⟩

/-- What `add_graph_items` has inserted: rows that wait, none with the key or the id of another one. -/
structure Inserted (jobId chunkId : String) (items : List GraphItem) (rows : List GraphItemRow)
    (result : Nat × List GraphItemRow) : Prop where
  appended : ∃ new, result.2 = rows ++ new ∧ new.length = result.1 ∧
    ∀ row ∈ new, row.jobId = jobId ∧ row.status = .pending
  itemIds : (rows.map GraphItemRow.id).Nodup → (result.2.map GraphItemRow.id).Nodup
  keys : (rows.map GraphItemRow.key).Nodup → (result.2.map GraphItemRow.key).Nodup
  present : ∀ item ∈ items, ∃ row ∈ result.2, row.isAt jobId chunkId item.itemKey = true
  known : (∀ item ∈ items, rows.any (GraphItemRow.isAt jobId chunkId item.itemKey) = true) → result = (0, rows)

theorem nodup_map_append {α κ : Type} {key : α → κ} {rows : List α} {row : α} (h : (rows.map key).Nodup)
    (hnew : ∀ old ∈ rows, key old ≠ key row) : ((rows ++ [row]).map key).Nodup := by
  rw [List.map_append, List.nodup_append]
  refine ⟨h, List.nodup_singleton _, fun k hk k' hk' => ?_⟩
  obtain ⟨old, hold, rfl⟩ := List.mem_map.mp hk
  rw [List.mem_singleton.mp hk']
  exact hnew old hold

theorem insertGraphItems_ok {items : List GraphItem} {rows : List GraphItemRow} {result : Nat × List GraphItemRow}
    (h : insertGraphItems fence jobId chunkId now db items rows = .ok result) :
    Inserted jobId chunkId items rows result := by
  induction items generalizing rows result with
  | nil =>
      cases h
      refine ⟨⟨[], (List.append_nil rows).symm, rfl, fun _ hrow => ?_⟩, id, id, fun _ hitem => ?_, fun _ => rfl⟩
      · cases hrow
      · cases hitem
  | cons item items ih =>
      rw [insertGraphItems] at h
      split at h
      · rename_i rows' hinsert
        obtain ⟨rfl, hconflicts⟩ := insertRow_ok hinsert
        obtain ⟨inner, hinner, rfl⟩ := Fallible.map_ok.mp h
        have hrest := ih hinner
        have hapart : ∀ old ∈ rows, old.key ≠ (item.row jobId chunkId).key ∧ old.id ≠ item.id := by
          intro old hold
          have hfree := hconflicts old hold
          rw [Bool.or_eq_false_iff, decide_eq_false_iff_not] at hfree
          refine ⟨fun hkey => ?_, hfree.2⟩
          have hat : old.isAt jobId chunkId item.itemKey = true := GraphItemRow.isAt_iff.mpr hkey
          rw [hat] at hfree
          cases hfree.1
        obtain ⟨new, hnew, hlength, hwaiting⟩ := hrest.appended
        refine ⟨⟨item.row jobId chunkId :: new, ?_, ?_, ?_⟩, fun hids => ?_, fun hkeys => ?_, ?_, fun hknown => ?_⟩
        · rw [hnew, List.append_assoc, List.singleton_append]
        · rw [List.length_cons, hlength]
        · intro row hrow
          rcases List.mem_cons.mp hrow with rfl | hrow
          · exact ⟨rfl, rfl⟩
          · exact hwaiting row hrow
        · exact hrest.itemIds (nodup_map_append hids fun old hold => (hapart old hold).2)
        · exact hrest.keys (nodup_map_append hkeys fun old hold => (hapart old hold).1)
        · intro other hother
          rcases List.mem_cons.mp hother with rfl | hother
          · refine ⟨other.row jobId chunkId, ?_, GraphItemRow.isAt_iff.mpr rfl⟩
            rw [hnew]
            exact List.mem_append_left _ (List.mem_append_right _ List.mem_cons_self)
          · exact hrest.present other hother
        · obtain ⟨old, hold, hat⟩ := List.any_eq_true.mp (hknown item List.mem_cons_self)
          exact absurd (GraphItemRow.isAt_iff.mp hat) (hapart old hold).1
      · split at h
        · rename_i hthere
          have hrest := ih h
          refine ⟨hrest.appended, hrest.itemIds, hrest.keys, fun other hother => ?_, fun hknown => ?_⟩
          · rcases List.mem_cons.mp hother with rfl | hother
            · obtain ⟨row, hrow, hat⟩ := List.any_eq_true.mp hthere
              obtain ⟨new, hnew, _⟩ := hrest.appended
              exact ⟨row, hnew ▸ List.mem_append_left _ hrow, hat⟩
            · exact hrest.present other hother
          · exact hrest.known fun other hother => hknown other (List.mem_cons_of_mem _ hother)
        · cases h
      · cases h

theorem graphCount_append {rows new : List GraphItemRow} {n : Nat} (hlength : new.length = n)
    (hnew : ∀ row ∈ new, row.jobId = jobId ∧ row.status = .pending) (other : String) (status : RecordStatus) :
    countStatus status ((rows ++ new).filter fun row => row.jobId = other) =
      countStatus status (rows.filter fun row => row.jobId = other) +
        if other = jobId ∧ status = .pending then n else 0 := by
  rw [List.filter_append, countStatus, List.countP_append, countStatus]
  congr 1
  by_cases hjob : other = jobId
  · have hall : new.filter (fun row => row.jobId = other) = new := by
      rw [List.filter_eq_self]
      intro row hrow
      rw [(hnew row hrow).1, hjob, decide_eq_true rfl]
    rw [hall]
    by_cases hstatus : status = .pending
    · rw [if_pos ⟨hjob, hstatus⟩, ← hlength, List.countP_eq_length]
      intro row hrow
      rw [(hnew row hrow).2, hstatus, decide_eq_true rfl]
    · rw [if_neg fun h => hstatus h.2, List.countP_eq_zero]
      intro row hrow
      rw [(hnew row hrow).2, decide_eq_true_eq]
      exact fun h => hstatus h.symm
  · have hnone : new.filter (fun row => row.jobId = other) = [] := by
      rw [List.filter_eq_nil_iff]
      intro row hrow
      rw [(hnew row hrow).1, decide_eq_true_eq]
      exact fun h => hjob h.symm
    rw [hnone, if_neg fun h => hjob h.1]
    rfl

theorem addGraphItems_sound {items : List GraphItem} (h : db.GraphSound)
    (hadd : addGraphItems fence jobId chunkId items now db = .ok db') : db'.GraphSound := by
  unfold addGraphItems at hadd
  split at hadd
  · cases hadd
    exact h
  · obtain ⟨inserted, hinsert, hadd⟩ := Fallible.bind_ok.mp hadd
    have hspec := insertGraphItems_ok hinsert
    obtain ⟨new, hnew, hlength, hwaiting⟩ := hspec.appended
    have hcount := @graphCount_append jobId db.graphItems new inserted.1 hlength hwaiting
    dsimp only at hadd
    split at hadd
    · obtain ⟨changed, hchanged, hadd⟩ := Fallible.bind_ok.mp hadd
      cases hadd
      have hall := @changeJob_all { db with graphItems := inserted.2 } _ _ _ _ _ h.jobIds hchanged
      rw [hall]
      refine ⟨nodup_updateRows (fun _ => rfl) h.jobIds, hspec.itemIds h.itemIds, hspec.keys h.keys, fun job hjob => ?_⟩
      · rcases mem_updateRows.mp hjob with ⟨hold, hother⟩ | ⟨old, hold, hsame, rfl⟩
        · have hne : job.id ≠ jobId := of_decide_eq_false hother
          obtain ⟨hpending, hsynced, hfailed⟩ := h.counts job hold
          constructor
          · rw [hpending, Database.graphCount, Database.graphCount, hnew, hcount, if_neg fun h => hne h.1]
            rfl
          · rw [hsynced, Database.graphCount, Database.graphCount, hnew, hcount, if_neg fun h => hne h.1]
            rfl
          · rw [hfailed, Database.graphCount, Database.graphCount, hnew, hcount, if_neg fun h => hne h.1]
            rfl
        · have hid : old.id = jobId := of_decide_eq_true hsame
          obtain ⟨hpending, hsynced, hfailed⟩ := h.counts old hold
          constructor
          · dsimp only
            rw [hpending, Database.graphCount, Database.graphCount, hnew, hcount, if_pos ⟨hid, rfl⟩]
          · dsimp only
            rw [hsynced, Database.graphCount, Database.graphCount, hnew, hcount, if_neg (by simp)]
            rfl
          · dsimp only
            rw [hfailed, Database.graphCount, Database.graphCount, hnew, hcount, if_neg (by simp)]
            rfl
    · rename_i hzero
      obtain ⟨_, _, hadd⟩ := Fallible.bind_ok.mp hadd
      cases hadd
      -- nothing was new
      have hempty : new = [] := List.length_eq_zero_iff.mp (hlength.trans (not_not.mp hzero))
      rw [hempty, List.append_nil] at hnew
      rw [hnew]
      exact h

/-- What adding items does to the rows. -/
structure AddsOnce (jobId chunkId : String) (items : List GraphItem) (db db' : Database) : Prop where
  once : ∀ item ∈ items, db'.graphItems.countP (GraphItemRow.isAt jobId chunkId item.itemKey) = 1
  kept : ∀ row ∈ db.graphItems, row ∈ db'.graphItems
  known : (∀ item ∈ items, db.graphItems.any (GraphItemRow.isAt jobId chunkId item.itemKey) = true) → db' = db

theorem countP_isAt {rows : List GraphItemRow} (hkeys : (rows.map GraphItemRow.key).Nodup) {row : GraphItemRow}
    (hrow : row ∈ rows) {itemKey : String} (hat : row.isAt jobId chunkId itemKey = true) :
    rows.countP (GraphItemRow.isAt jobId chunkId itemKey) = 1 := by
  have hcount := List.count_eq_one_of_mem hkeys (List.mem_map_of_mem hrow)
  rw [List.count, List.countP_map] at hcount
  rw [← hcount]
  refine List.countP_congr fun other _ => ?_
  rw [GraphItemRow.isAt_iff, Function.comp, beq_iff_eq, GraphItemRow.isAt_iff.mp hat]

theorem addGraphItems_once {items : List GraphItem} (h : db.GraphSound)
    (hadd : addGraphItems fence jobId chunkId items now db = .ok db') : AddsOnce jobId chunkId items db db' := by
  have hsound := addGraphItems_sound h hadd
  unfold addGraphItems at hadd
  split at hadd
  · rename_i hempty
    cases hadd
    subst hempty
    exact ⟨fun _ hitem => absurd hitem List.not_mem_nil, fun _ hrow => hrow, fun _ => rfl⟩
  · obtain ⟨inserted, hinsert, hadd⟩ := Fallible.bind_ok.mp hadd
    have hspec := insertGraphItems_ok hinsert
    obtain ⟨new, hnew, _, _⟩ := hspec.appended
    have hitems : db'.graphItems = inserted.2 := by
      dsimp only at hadd
      split at hadd
      · obtain ⟨changed, hchanged, hadd⟩ := Fallible.bind_ok.mp hadd
        cases hadd
        rw [@changeJob_all { db with graphItems := inserted.2 } _ _ _ _ _ h.jobIds hchanged]
      · obtain ⟨_, _, hadd⟩ := Fallible.bind_ok.mp hadd
        cases hadd
        rfl
    refine ⟨fun item hitem => ?_, fun row hrow => ?_, fun hknown => ?_⟩
    · obtain ⟨row, hrow, hat⟩ := hspec.present item hitem
      exact countP_isAt hsound.keys (hitems ▸ hrow) hat
    · rw [hitems, hnew]
      exact List.mem_append_left _ hrow
    · rw [hspec.known hknown] at hadd
      obtain ⟨_, _, hadd⟩ := Fallible.bind_ok.mp hadd
      cases hadd
      rfl

/-! ## Marking items -/

/-- Every job but these has counted its items. -/
def Database.CountedBut (db : Database) (jobIds : List String) : Prop :=
  ∀ job ∈ db.jobs, job.id ∉ jobIds → job.CountsGraph db

theorem refreshGraphJobCounts_ok {error : Option String} {jobIds : List String}
    (hids : (db.jobs.map JobRow.id).Nodup) (hcounted : db.CountedBut (jobId :: jobIds))
    (h : refreshGraphJobCounts fence jobId error now db = .ok db') :
    db'.graphItems = db.graphItems ∧ (db'.jobs.map JobRow.id).Nodup ∧ db'.CountedBut jobIds := by
  obtain ⟨changed, hchanged, h⟩ := Fallible.bind_ok.mp h
  cases h
  rw [changeJob_all hids hchanged]
  refine ⟨rfl, nodup_updateRows (fun _ => rfl) hids, fun job hjob hout => ?_⟩
  · rcases mem_updateRows.mp hjob with ⟨hold, hother⟩ | ⟨old, hold, hsame, rfl⟩
    · have hne : job.id ≠ jobId := of_decide_eq_false hother
      obtain ⟨hpending, hsynced, hfailed⟩ := hcounted job hold (List.not_mem_cons_of_ne_of_not_mem hne hout)
      exact ⟨hpending, hsynced, hfailed⟩
    · have hid : old.id = jobId := of_decide_eq_true hsame
      subst hid
      exact ⟨rfl, rfl, rfl⟩

theorem refreshAll_ok {error : Option String} {jobIds : List String} (hids : (db.jobs.map JobRow.id).Nodup)
    (hcounted : db.CountedBut jobIds)
    (h : jobIds.foldlM (fun db jobId => refreshGraphJobCounts none jobId error now db) db = .ok db') :
    db'.graphItems = db.graphItems ∧ (db'.jobs.map JobRow.id).Nodup ∧ db'.CountedBut [] := by
  induction jobIds generalizing db with
  | nil =>
      cases h
      exact ⟨rfl, hids, hcounted⟩
  | cons jobId jobIds ih =>
      rw [List.foldlM_cons] at h
      obtain ⟨next, hnext, h⟩ := Fallible.bind_ok.mp h
      obtain ⟨hitems, hids', hcounted'⟩ := refreshGraphJobCounts_ok hids hcounted hnext
      obtain ⟨hrest, hdone⟩ := ih hids' hcounted' h
      exact ⟨hrest.trans hitems, hdone⟩

/-- Changing the status of items leaves the counts of the jobs they are not of. -/
theorem countedBut_mark {hit : GraphItemRow → Bool} {change : GraphItemRow → GraphItemRow} {jobIds : List String}
    (h : db.GraphSound) (hchange : ∀ row, (change row).jobId = row.jobId)
    (hhit : ∀ row ∈ db.graphItems, hit row = true → row.jobId ∈ jobIds) :
    Database.CountedBut { db with graphItems := updateRows hit change db.graphItems } jobIds := by
  intro job hjob hout
  have hcount : ∀ status, Database.graphCount { db with graphItems := updateRows hit change db.graphItems } job.id status =
      db.graphCount job.id status := by
    intro status
    rw [Database.graphCount, Database.graphCount]
    dsimp only
    rw [filter_updateRows (fun row => by rw [hchange]) fun row hrow hhitRow => ?_]
    rw [decide_eq_false_iff_not]
    rintro hid
    exact hout (hid ▸ hhit row hrow hhitRow)
  obtain ⟨hpending, hsynced, hfailed⟩ := h.counts job hjob
  exact ⟨hpending.trans (hcount _).symm, hsynced.trans (hcount _).symm, hfailed.trans (hcount _).symm⟩

/-- Counting an attempt leaves the counts of the items. -/
theorem countedBut_attempt {hit : JobRow → Bool} {jobIds : List String} (h : db.CountedBut jobIds) :
    Database.CountedBut { db with jobs := updateRows hit JobRow.attemptGraph db.jobs } jobIds := by
  intro job hjob hout
  rcases mem_updateRows.mp hjob with ⟨hold, _⟩ | ⟨old, hold, _, rfl⟩
  · obtain ⟨hpending, hsynced, hfailed⟩ := h job hold hout
    exact ⟨hpending, hsynced, hfailed⟩
  · obtain ⟨hpending, hsynced, hfailed⟩ := h old hold hout
    exact ⟨hpending, hsynced, hfailed⟩

theorem Database.GraphSound.marked {hit : GraphItemRow → Bool} {status : RecordStatus} {error : Option String}
    {incrementAttempts : Bool} (h : db.GraphSound) (hids : (db'.jobs.map JobRow.id).Nodup)
    (hitems : db'.graphItems = updateRows hit (GraphItemRow.mark status error incrementAttempts) db.graphItems)
    (hcounted : db'.CountedBut []) : db'.GraphSound := by
  refine ⟨hids, ?_, ?_, fun job hjob => hcounted job hjob List.not_mem_nil⟩
  · rw [hitems]
    exact nodup_updateRows (fun _ => rfl) h.itemIds
  · rw [hitems]
    exact nodup_updateRows (fun _ => rfl) h.keys

theorem markGraphItems_sound {ids : List String} {status : RecordStatus} {error : Option String}
    {incrementAttempts : Bool} {r : Nat × Database} (h : db.GraphSound)
    (hmark : markGraphItems fence jobId ids status error incrementAttempts now db = .ok r) : r.2.GraphSound := by
  unfold markGraphItems at hmark
  split at hmark
  · cases hmark
    exact h
  · dsimp only at hmark
    obtain ⟨_, _, hmark⟩ := Fallible.bind_ok.mp hmark
    have hmine : ∀ row ∈ db.graphItems, (decide (row.id ∈ ids) && decide (row.jobId = jobId) &&
        db.allows fence jobId now) = true → row.jobId ∈ [jobId] := by
      intro row _ hhit
      simp only [Bool.and_eq_true, decide_eq_true_eq] at hhit
      exact List.mem_singleton.mpr hhit.1.2
    have hcounted := @countedBut_mark _ _ (GraphItemRow.mark status error incrementAttempts) _ h (fun _ => rfl) hmine
    split at hmark
    · have hfinish : ∀ {attempted : Database} {n : Nat}, attempted.graphItems =
            updateRows (fun row => decide (row.id ∈ ids) && decide (row.jobId = jobId) && db.allows fence jobId now)
              (GraphItemRow.mark status error incrementAttempts) db.graphItems →
          (attempted.jobs.map JobRow.id).Nodup → attempted.CountedBut [jobId] →
          (do let marked ← refreshGraphJobCounts fence jobId error now attempted; pure (n, marked)) = Except.ok r →
          r.2.GraphSound := by
        intro attempted n hitems hids hdone hrefresh
        obtain ⟨refreshed, hrefreshed, hrefresh⟩ := Fallible.bind_ok.mp hrefresh
        cases hrefresh
        obtain ⟨hitems', hids', hdone'⟩ := refreshGraphJobCounts_ok hids hdone hrefreshed
        exact h.marked hids' (hitems'.trans hitems) hdone'
      split at hmark
      · rename_i hincrement
        obtain ⟨attempted, hattempted, hmark⟩ := Fallible.bind_ok.mp hmark
        obtain ⟨changed, hchanged, rfl⟩ := Fallible.map_ok.mp hattempted
        refine hfinish ?_ ?_ ?_ hmark
        · rw [changeJob_all (by exact h.jobIds) hchanged, hincrement]
          rfl
        · rw [changeJob_all (by exact h.jobIds) hchanged]
          exact nodup_updateRows (fun _ => rfl) h.jobIds
        · rw [hincrement] at hcounted
          rw [changeJob_all (by exact h.jobIds) hchanged]
          exact countedBut_attempt hcounted
      · rename_i hincrement
        obtain ⟨attempted, hattempted, hmark⟩ := Fallible.bind_ok.mp hmark
        cases hattempted
        rw [Bool.not_eq_true] at hincrement
        rw [hincrement] at hcounted
        refine hfinish ?_ ?_ ?_ hmark
        · rw [hincrement]
          rfl
        · exact h.jobIds
        · exact hcounted
    · rename_i hnone
      cases hmark
      refine h.marked h.jobIds rfl (countedBut_mark h (fun _ => rfl) fun row hrow hhit => ?_)
      rw [Bool.and_eq_true] at hhit
      exact absurd (List.any_eq_true.mpr ⟨row, hrow, hhit.1⟩) hnone

theorem markGraphItemsAnywhere_sound {ids : List String} {status : RecordStatus} {error : Option String}
    {incrementAttempts : Bool} {r : Nat × Database} (h : db.GraphSound)
    (hmark : markGraphItemsAnywhere ids status error incrementAttempts now db = .ok r) : r.2.GraphSound := by
  unfold markGraphItemsAnywhere at hmark
  split at hmark
  · cases hmark
    exact h
  · dsimp only at hmark
    obtain ⟨refreshed, hrefreshed, hmark⟩ := Fallible.bind_ok.mp hmark
    cases hmark
    have hmine : ∀ row ∈ db.graphItems, decide (row.id ∈ ids) = true → row.jobId ∈
        ((db.graphItems.filter fun row => decide (row.id ∈ ids)).map GraphItemRow.jobId).dedup := by
      intro row hrow hhit
      exact List.mem_dedup.mpr (List.mem_map_of_mem (List.mem_filter.mpr ⟨hrow, hhit⟩))
    have hcounted := @countedBut_mark _ _ (GraphItemRow.mark status error incrementAttempts) _ h (fun _ => rfl) hmine
    split at hrefreshed
    · obtain ⟨hitems, hids, hdone⟩ :=
        refreshAll_ok (by exact nodup_updateRows (fun _ => rfl) h.jobIds) (countedBut_attempt hcounted) hrefreshed
      exact h.marked hids hitems hdone
    · obtain ⟨hitems, hids, hdone⟩ := refreshAll_ok (by exact h.jobIds) hcounted hrefreshed
      exact h.marked hids hitems hdone

/-! ## Whole runs -/

variable {P : Platform}

theorem GraphCall.sound {call : GraphCall} (h : db.GraphSound) (hrun : call.run P now db = some db') :
    db'.GraphSound := by
  have hok : ∀ {ε α : Type} {x : Except ε α} {a : α}, x.toOption = some a → x = .ok a := by
    intro ε α x a hx
    cases x with
    | error e => cases hx
    | ok b => cases hx; rfl
  cases call with
  | add fence jobId chunkId items =>
      obtain ⟨prepared, _, hadd⟩ := Option.bind_eq_some_iff.mp hrun
      exact addGraphItems_sound h (hok hadd)
  | mark fence jobId ids status error incrementAttempts =>
      obtain ⟨r, hr, rfl⟩ := Option.map_eq_some_iff.mp hrun
      exact markGraphItems_sound h (hok hr)
  | markAnywhere ids status error incrementAttempts =>
      obtain ⟨r, hr, rfl⟩ := Option.map_eq_some_iff.mp hrun
      exact markGraphItemsAnywhere_sound h (hok hr)

theorem TimedGraphCall.sound (h : db.GraphSound) (timed : TimedGraphCall) : (timed.after P db).GraphSound := by
  unfold TimedGraphCall.after
  split
  · exact h
  · cases hrun : timed.call.run P timed.now db with
    | none => exact h
    | some db' => exact timed.call.sound h hrun

theorem graphStates_sound {calls : List TimedGraphCall} (h : db.GraphSound) :
    ∀ reached ∈ graphStates P db calls, reached.GraphSound := by
  induction calls generalizing db with
  | nil =>
      intro reached hreached
      rw [List.mem_singleton.mp hreached]
      exact h
  | cons timed rest ih =>
      intro reached hreached
      rcases List.mem_cons.mp hreached with rfl | hreached
      · exact h
      · exact ih (timed.sound h) reached hreached

end

/-- A job without graph items. -/
def oneGraphJob : Database := { Database.empty with jobs := [runningJob "job" "project" (some "worker") (some 100)] }

def graphMemories : List (Entries × String) :=
  [([("memory_id", .str "tea")], "first row"), ([("memory_id", .str "tea")], "second row"),
    ([("memory_id", .str "cup")], "third row")]

/-- The items are added, one fails, and they are added again when the lease is over. -/
def graphCalls : List TimedGraphCall :=
  [⟨.add (some "worker") "job" "chunk" graphMemories, 10, false⟩,
    ⟨.mark (some "worker") "job" ["first row"] .failed (some "offline") true, 20, false⟩,
    ⟨.add (some "worker") "job" "chunk" graphMemories, 200, false⟩]

end YiQiao
