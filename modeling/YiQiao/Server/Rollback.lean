import Mathlib.Data.List.Flatten
import Mathlib.Data.List.Pairwise
import YiQiao.Lib.Slices
import YiQiao.Server.Reembed

/-!
# Rolling a run back

The backup of a run has a header and the scanned vectors. A rollback writes them back in batches, each in one
transaction, and a row that is gone fails its batch.
-/

namespace YiQiao

open Lib Fallible Filters

variable {F E V : Type} {dims : Nat}

/-! ## The backup file -/

/-- A line of a backup file. -/
inductive BackupRecord (F : Type) where
  | header (kind : String) (version : Nat) (collection : String)
  | row (id : String) (vector : Option (List F))

/-- The collection of the store; `reembed` refuses one without a name. -/
structure CollectionName where
  text : String
  named : text ≠ ""

/-- A row as the file has it. -/
def fileRow (e : String × Option (Embedding F dims)) : String × Option (List F) := (e.1, e.2.map Subtype.val)

/-- What a run has written to its backup file. -/
def ReembedRun.backupFile (run : ReembedRun (Embedding F dims)) (collection : CollectionName) : List (BackupRecord F) :=
  .header "yiqiao-reembed-backup" 1 collection.text ::
    (run.backup.map fileRow).map fun row => .row row.1 row.2

/-- One row of `_read_backup`, after the rows before it. -/
def readBackupRow (isUuid : String → Bool) (rows : List (String × Option (List F))) :
    BackupRecord F → Except String (List (String × Option (List F)))
  | .header _ _ _ => .error "backup line has no memory id"
  | .row id vector =>
      if id = "" then .error "backup line has no memory id"
      else if !isUuid id then .error "backup line has an invalid memory id"
      else if rows.any fun row => row.1 = id then .error "backup line repeats memory id"
      else .ok (rows ++ [(id, vector)])

/-- `_read_backup`: the collection and the rows. -/
def readBackup (isUuid : String → Bool) :
    List (BackupRecord F) → Except String (String × List (String × Option (List F)))
  | [] => .error "backup file is empty"
  | .row _ _ :: _ => .error "backup header is missing or has an unsupported kind"
  | .header kind version collection :: records =>
      if kind ≠ "yiqiao-reembed-backup" then .error "backup header is missing or has an unsupported kind"
      else if version ≠ 1 then .error "backup has an unsupported version"
      else if collection = "" then .error "backup header has no collection"
      else do
        let rows ← records.foldlM (readBackupRow isUuid) []
        pure (collection, rows)

/-- The check of a row's dimension. -/
def sizedRow (dims : Nat) (row : String × Option (List F)) : Except String (String × Option (Embedding F dims)) :=
  match row.2 with
  | none => .ok (row.1, none)
  | some v => if h : v.length = dims then .ok (row.1, some ⟨v, h⟩)
      else .error "backup vector dimension does not match active store"

/-! ## The rollback -/

structure RollbackRun (V : Type) where
  table : Table V
  /-- The rows of the safety backup. -/
  safety : List (String × Option V)
  restored : Nat
  failed : List (String × String)

/-- The item of a backed-up vector. -/
def rollbackItem (row : String × Option V) : VectorItem V := ⟨row.1, row.2, none⟩

/-- One batch in one transaction. -/
def rollbackBatch [DecidableEq V] (run : RollbackRun V) (batch : List (String × Option V)) : RollbackRun V :=
  match updateVectors run.table (batch.map rollbackItem) with
  | .ok table => { run with table := table, restored := run.restored + batch.length }
  | .error error => { run with failed := run.failed ++ batch.map fun row => (row.1, error) }

/-- `_get_current_vectors` -/
def currentVectors (t : Table V) (rows : List (String × Option V)) : List (String × Option V) :=
  (t.rows.filter fun row => row.id ∈ rows.map Prod.fst).map fun row => (row.id, row.vector)

/-- A batch size the arguments admit. -/
abbrev BatchSize := { n : Nat // 0 < n }

/-- `rollback` with `--apply`. -/
def rollback [DecidableEq F] (isUuid : String → Bool) (collection : CollectionName) (size : BatchSize)
    (t : Table (Embedding F dims)) (file : List (BackupRecord F)) :
    Except String (RollbackRun (Embedding F dims)) := do
  let (name, rows) ← readBackup isUuid file
  if rows.isEmpty then pure ⟨t, [], 0, []⟩
  else if name ≠ collection.text then throw "backup collection does not match the active PGVector collection"
  else
    let rows ← rows.mapM (sizedRow dims)
    pure ((slices size.1 rows).foldl rollbackBatch ⟨t, currentVectors t rows, 0, []⟩)

/-- Every row of the backup that is there has its vector, and nothing else has changed. -/
def Restores (backup : List (String × Option V)) (t t' : Table V) : Prop :=
  (∀ e ∈ backup, ∀ vector, t.vectorOf e.1 = some vector → t'.vectorOf e.1 = some e.2) ∧
    (∀ id, id ∉ backup.map Prod.fst → t'.vectorOf id = t.vectorOf id) ∧ SameRows t t'

/-! ## Reading the backup -/

section

variable {isUuid : String → Bool}

theorem readBackupRows_ok {rows : List (String × Option (List F))} {seen : List (String × Option (List F))}
    (hnodup : ((seen ++ rows).map Prod.fst).Nodup) (hid : ∀ row ∈ rows, row.1 ≠ "" ∧ isUuid row.1 = true) :
    (rows.map fun row => BackupRecord.row row.1 row.2).foldlM (readBackupRow isUuid) seen = .ok (seen ++ rows) := by
  induction rows generalizing seen with
  | nil => simp [pure, Except.pure]
  | cons row rows ih =>
    obtain ⟨⟨hname, huuid⟩, hrest⟩ := List.forall_mem_cons.mp hid
    have hnew : (seen.any fun other => other.1 = row.1) = false := by
      rw [List.any_eq_false]
      intro other hother hsame
      rw [List.map_append] at hnodup
      exact (List.nodup_append.mp hnodup).2.2 other.1 (List.mem_map_of_mem hother) row.1 (by simp)
        (of_decide_eq_true hsame)
    have hread : readBackupRow isUuid seen (.row row.1 row.2) = .ok (seen ++ [row]) := by
      simp [readBackupRow, hname, huuid, hnew]
    have hlater := @ih (seen ++ [row]) (by simpa using hnodup) hrest
    rw [List.map_cons, List.foldlM_cons, hread]
    simpa using hlater

theorem sizedRows_ok (rows : List (String × Option (Embedding F dims))) :
    (rows.map fileRow).mapM (sizedRow dims) = .ok rows := by
  induction rows with
  | nil => rfl
  | cons row rows ih =>
    have hsized : sizedRow dims (fileRow row) = .ok row := by
      obtain ⟨id, vector⟩ := row
      cases vector with
      | none => rfl
      | some v => simp [sizedRow, fileRow, v.2]
    rw [List.map_cons, List.mapM_cons, hsized, ih]
    rfl

end

/-! ## What the batches write -/

/-- All rows of the batch are there. -/
def Present (t : Table V) (batch : List (String × Option V)) : Bool := batch.all fun e => (t.vectorOf e.1).isSome

section

variable {t t' : Table V} {batch : List (String × Option V)} {batches : List (List (String × Option V))}

theorem vectorOf_writeAll_of_notMem {id : String} (h : id ∉ batch.map Prod.fst) :
    (t.writeAll batch).vectorOf id = t.vectorOf id := by
  induction batch generalizing t with
  | nil => rfl
  | cons e batch ih =>
    simp only [List.map_cons, List.mem_cons, not_or] at h
    exact (ih h.2).trans (by simp [Table.vectorOf_setVector, h.1])

theorem vectorOf_writeAll {e : String × Option V} (hnodup : (batch.map Prod.fst).Nodup) (he : e ∈ batch) :
    (t.writeAll batch).vectorOf e.1 = (t.vectorOf e.1).map fun _ => e.2 := by
  induction batch generalizing t with
  | nil => cases he
  | cons first batch ih =>
    obtain ⟨hfirst, hrest⟩ := List.nodup_cons.mp hnodup
    rcases List.mem_cons.mp he with rfl | he
    · exact (vectorOf_writeAll_of_notMem hfirst).trans (by simp [Table.vectorOf_setVector])
    · have hne : e.1 ≠ first.1 := by
        intro hsame
        exact hfirst (hsame ▸ List.mem_map_of_mem he)
      exact (ih hrest he).trans (by simp [Table.vectorOf_setVector, hne])

theorem isSome_vectorOf_writeAll (id : String) :
    ((t.writeAll batch).vectorOf id).isSome = (t.vectorOf id).isSome := by
  induction batch generalizing t with
  | nil => rfl
  | cons e batch ih =>
    refine ih.trans ?_
    rw [Table.vectorOf_setVector]
    split <;> simp

/-- A batch is written if all its rows are there. -/
theorem updateVectors_rollback [DecidableEq V] (t : Table V) (batch : List (String × Option V)) :
    updateVectors t (batch.map rollbackItem) =
      if Present t batch = true then .ok (t.writeAll batch) else .error "ValueError" := by
  induction batch generalizing t with
  | nil => rfl
  | cons e batch ih =>
    have hstep : updateVectors t ((e :: batch).map rollbackItem) =
        updateVector t (rollbackItem e) >>= fun t' => updateVectors t' (batch.map rollbackItem) := by
      rw [updateVectors, List.map_cons, List.foldlM_cons]
      rfl
    have hpresent : Present t (e :: batch) = ((t.vectorOf e.1).isSome && Present t batch) := rfl
    rw [hstep, hpresent]
    cases hget : t.get e.1 with
    | none => simp [updateVector, rollbackItem, hget, Table.vectorOf, bind, Except.bind]
    | some row =>
      have hkept : Present (t.setVector e.1 e.2) batch = Present t batch := by
        apply List.all_congr rfl
        intro e'
        exact @isSome_vectorOf_writeAll V t [e] e'.1
      simp only [updateVector, rollbackItem, hget, Option.all_none, ↓reduceIte, Table.vectorOf, Option.map_some,
        Option.isSome_some, Bool.true_and]
      exact (ih (t.setVector e.1 e.2)).trans (by rw [hkept]; rfl)

theorem sameRows_writeAll : SameRows t (t.writeAll batch) := by
  rw [← replay_written]
  exact sameRows_replay _

theorem present_writeAll {written : List (String × Option V)} : Present (t.writeAll written) batch = Present t batch :=
  List.all_congr rfl fun e => isSome_vectorOf_writeAll e.1

/-- The batches whose rows are all there are written, the others are not. -/
theorem foldl_rollbackBatch [DecidableEq V] (run : RollbackRun V) (batches : List (List (String × Option V))) :
    (batches.foldl rollbackBatch run).table = run.table.writeAll (batches.filter (Present run.table)).flatten := by
  induction batches generalizing run with
  | nil => rfl
  | cons batch batches ih =>
    rw [List.foldl_cons, ih]
    by_cases hpresent : Present run.table batch = true
    · have hbatch : (rollbackBatch run batch).table = run.table.writeAll batch := by
        simp [rollbackBatch, updateVectors_rollback, hpresent]
      rw [hbatch, List.filter_cons_of_pos hpresent, List.flatten_cons, Table.writeAll, Table.writeAll,
        Table.writeAll, List.foldl_append]
      congr 2
      apply List.filter_congr
      intro batch' _
      exact present_writeAll
    · have hbatch : (rollbackBatch run batch).table = run.table := by
        simp [rollbackBatch, updateVectors_rollback, hpresent]
      rw [hbatch, List.filter_cons_of_neg hpresent]

/-- Where a row of a batch is gone, the others of the batch have their backed-up vectors. -/
def Restorable (size : Nat) (backup : List (String × Option V)) (t : Table V) : Prop :=
  ∀ batch ∈ slices size backup, ∀ gone ∈ batch, t.vectorOf gone.1 = none →
    ∀ e ∈ batch, ∀ vector, t.vectorOf e.1 = some vector → vector = e.2

theorem present_eq_false : Present t batch = false ↔ ∃ gone ∈ batch, t.vectorOf gone.1 = none := by
  simp [Present]

theorem restores_iff {backup : List (String × Option V)} {size : Nat} (hsize : 0 < size)
    (hnodup : (backup.map Prod.fst).Nodup) :
    Restores backup t (t.writeAll ((slices size backup).filter (Present t)).flatten) ↔ Restorable size backup t := by
  have hbackup : (slices size backup).flatten = backup := flatten_slices hsize
  generalize hwritten : ((slices size backup).filter (Present t)).flatten = written
  have hsub : written.Sublist backup := by
    rw [← hbackup, ← hwritten]
    exact List.filter_sublist.flatten
  have hwrittenNodup : (written.map Prod.fst).Nodup := hnodup.sublist (hsub.map _)
  -- an entry of a batch that is not written is not written with another batch
  have hkept : ∀ batch ∈ slices size backup, Present t batch = false → ∀ e ∈ batch,
      (t.writeAll written).vectorOf e.1 = t.vectorOf e.1 := by
    intro batch hbatch habsent e he
    apply vectorOf_writeAll_of_notMem
    intro hid
    obtain ⟨e', he', hsame⟩ := List.mem_map.mp hid
    have hmem : e ∈ backup := hbackup ▸ List.mem_flatten_of_mem hbatch he
    obtain rfl := List.inj_on_of_nodup_map hnodup (hsub.subset he') hmem hsame
    rw [← hwritten] at he'
    obtain ⟨batch', hbatch', hin⟩ := List.mem_flatten.mp he'
    obtain ⟨hslice, hpresent⟩ := List.mem_filter.mp hbatch'
    have hdisjoint := (List.nodup_flatten.mp (hbackup.symm ▸ hnodup.of_map)).2
    by_cases hsame : batch = batch'
    · rw [hsame, hpresent] at habsent
      cases habsent
    · have : Std.Symm (@List.Disjoint (String × Option V)) := ⟨fun _ _ h => h.symm⟩
      exact hdisjoint.forall hbatch hslice hsame he hin
  constructor
  · rintro ⟨hrestored, _, _⟩ batch hbatch gone hgone hnone e he vector hvector
    have hmem : e ∈ backup := hbackup ▸ List.mem_flatten_of_mem hbatch he
    have hafter := hrestored e hmem vector hvector
    rw [hkept batch hbatch (present_eq_false.mpr ⟨gone, hgone, hnone⟩) e he, hvector] at hafter
    exact Option.some.inj hafter
  · intro h
    refine ⟨?_, ?_, sameRows_writeAll⟩
    · intro e he vector hvector
      rw [← hbackup] at he
      obtain ⟨batch, hbatch, hin⟩ := List.mem_flatten.mp he
      cases hpresent : Present t batch with
      | true =>
        have hin' : e ∈ written := hwritten ▸ List.mem_flatten_of_mem (List.mem_filter.mpr ⟨hbatch, hpresent⟩) hin
        rw [vectorOf_writeAll hwrittenNodup hin', hvector]
        rfl
      | false =>
        obtain ⟨gone, hgone, hnone⟩ := present_eq_false.mp hpresent
        rw [hkept batch hbatch hpresent e hin, hvector, h batch hbatch gone hgone hnone e hin vector hvector]
    · intro id hid
      apply vectorOf_writeAll_of_notMem
      intro hmem
      exact hid ((hsub.map Prod.fst).subset hmem)

end

/-! ## Rolling back a run -/

section

variable {isUuid : String → Bool} {run : ReembedRun (Embedding F dims)}

/-- A backup that a run could write is read, and its whole batches are written back. -/
theorem rollback_ok [DecidableEq F] (collection : CollectionName) (size : BatchSize) (later : Table (Embedding F dims))
    (hnodup : (run.backup.map Prod.fst).Nodup) (hid : ∀ e ∈ run.backup, e.1 ≠ "" ∧ isUuid e.1 = true) :
    ∃ back, rollback isUuid collection size later (run.backupFile collection) = .ok back ∧
      back.table = later.writeAll ((slices size.1 run.backup).filter (Present later)).flatten := by
  have hread : readBackup isUuid (run.backupFile collection) = .ok (collection.text, run.backup.map fileRow) := by
    have hids : ∀ row ∈ run.backup.map fileRow, row.1 ≠ "" ∧ isUuid row.1 = true := by
      intro row hrow
      obtain ⟨e, he, rfl⟩ := List.mem_map.mp hrow
      exact hid e he
    have hrows := @readBackupRows_ok F isUuid (run.backup.map fileRow) []
      (by simpa [Function.comp_def, fileRow] using hnodup) hids
    rw [ReembedRun.backupFile, readBackup, if_neg (by simp), if_neg (by simp), if_neg collection.named, hrows]
    rfl
  cases hbackup : run.backup with
  | nil =>
    refine ⟨⟨later, [], 0, []⟩, ?_, ?_⟩
    · simp [rollback, hread, hbackup]
    · have hnone : ((slices size.1 ([] : List (String × Option (Embedding F dims)))).filter (Present later)).flatten = [] := by
        apply List.sublist_nil.mp
        simpa [flatten_slices size.2] using (List.filter_sublist (p := Present later)
          (l := slices size.1 [])).flatten
      rw [hnone]
      rfl
  | cons e backup =>
    rw [← hbackup]
    refine ⟨_, ?_, foldl_rollbackBatch ⟨later, currentVectors later run.backup, 0, []⟩ (slices size.1 run.backup)⟩
    have hempty : (run.backup.map fileRow).isEmpty = false := by
      rw [hbackup]
      rfl
    rw [rollback, hread]
    change (if (run.backup.map fileRow).isEmpty = true then _ else _) = _
    rw [hempty, if_neg (by simp), if_neg (by simp), sizedRows_ok]
    rfl

/-- A rollback of a run restores what is there exactly if no row that is gone shares a batch with one whose vector
is another than the backed-up one. -/
theorem rollback_restores_iff {E : Type} [DecidableEq F] (W : ReembedWorld F E dims) (args : ReembedArgs)
    (t later : Table (Embedding F dims)) (collection : CollectionName) (size : BatchSize)
    (huuid : ∀ row ∈ t.rows, isUuid row.id = true) :
    ∃ run back, reembed W args t = some run ∧
      rollback isUuid collection size later (run.backupFile collection) = .ok back ∧
      (Restores run.backup later back.table ↔ Restorable size.1 run.backup later) := by
  obtain ⟨run, rows, hrun, h⟩ := reembed_account W args t
  have hnodup : (run.backup.map Prod.fst).Nodup := by
    rw [h.backup, List.map_map]
    exact h.increasing.imp ne_of_lt
  have hid : ∀ e ∈ run.backup, e.1 ≠ "" ∧ isUuid e.1 = true := by
    intro e he
    rw [h.backup] at he
    obtain ⟨r, hr, rfl⟩ := List.mem_map.mp he
    obtain ⟨row, hrow, hsame, _⟩ := h.scope r hr
    exact ⟨hsame ▸ t.named row hrow, hsame ▸ huuid row hrow⟩
  obtain ⟨back, hback, htable⟩ := rollback_ok collection size later hnodup hid
  refine ⟨run, back, hrun, hback, ?_⟩
  rw [htable]
  exact restores_iff size.2 hnodup

end

/-! ## A deleted row in a batch -/

def firstId : String := "00000000-0000-0000-0000-00000000000a"

def secondId : String := "00000000-0000-0000-0000-00000000000b"

/-- Two memories of a project, embedded with an old model. -/
def oldVectors : Table (Embedding Int 1) where
  rows := [⟨firstId, some ⟨[0], rfl⟩, [("data", .str "tea"), ("project_id", .str "p")]⟩,
    ⟨secondId, some ⟨[0], rfl⟩, [("data", .str "milk"), ("project_id", .str "p")]⟩]
  unique := by decide +kernel
  named := by decide +kernel

/-- The new model's vector of every text is `[1]`; nobody else writes. -/
def newModel : ReembedWorld Int (List Int) 1 where
  platform := .ascii
  embedder := fun _ => ⟨fun texts => .ok (texts.map fun _ => [1]), fun _ _ => .ok [1]⟩
  parseVector := .ok
  before := fun _ => []
  during := fun _ => []

def oldProject : ReembedArgs := ⟨⟨"p", rfl, by simp⟩, none, 0, 2, by decide⟩

theorem scanRows_oldProject (t : Table (Embedding Int 1)) (after : Option String) (limit : Nat) :
    scanRows .ascii t oldProject.filters after limit =
      .ok ((nextRows after limit (t.rows.filter fun row => idMatches .ascii row.payload "project_id" "p")).map
        (scannedRow .ascii)) := by
  have hfilters : oldProject.filters = idFilters [("project_id", "p")] := by with_unfolding_all rfl
  rw [scanRows, hfilters, select_ids (by simp)]
  simp [bind, Except.bind, pure, Except.pure]

/-- The run of the new model. -/
def newVectors : ReembedRun (Embedding Int 1) where
  table := (oldVectors.setVector firstId (some ⟨[1], rfl⟩)).setVector secondId (some ⟨[1], rfl⟩)
  events := [.backedUp firstId (some ⟨[0], rfl⟩), .backedUp secondId (some ⟨[0], rfl⟩),
    .replaced firstId ⟨[1], rfl⟩, .replaced secondId ⟨[1], rfl⟩]
  scanned := 2
  updated := 2
  failed := 0

theorem newModel_run : reembed newModel oldProject oldVectors = some newVectors := by
  have hfirst : scanRows .ascii oldVectors oldProject.filters none 2 =
      .ok [⟨firstId, some ⟨[0], rfl⟩, "tea"⟩, ⟨secondId, some ⟨[0], rfl⟩, "milk"⟩] := by
    rw [scanRows_oldProject]
    with_unfolding_all rfl
  have hsecond : scanRows .ascii newVectors.table oldProject.filters (some secondId) 2 = .ok [] := by
    rw [scanRows_oldProject]
    with_unfolding_all rfl
  have hbatch : reembedBatch newModel 0 ⟨oldVectors, [], 0, 0, 0⟩
      [⟨firstId, some ⟨[0], rfl⟩, "tea"⟩, ⟨secondId, some ⟨[0], rfl⟩, "milk"⟩] = newVectors := by
    with_unfolding_all rfl
  have hstart : newModel.before = fun _ => [] := rfl
  have hnone (run : ReembedRun (Embedding Int 1)) : run.others [] = run := by
    simp [ReembedRun.others, Table.writeAll, writtenEvents]
  change reembedLoop newModel oldProject 3 0 none none ⟨oldVectors, [], 0, 0, 0⟩ = some newVectors
  have hplatform : newModel.platform = .ascii := rfl
  have hsize : oldProject.batchSize = 2 := rfl
  simp [reembedLoop, hstart, hnone, hplatform, hsize, hfirst, hsecond, hbatch]

/-- A rollback of the new model's run on the old table. -/
theorem old_vectors_back : ∃ run back, reembed newModel oldProject oldVectors = some run ∧
    rollback (fun id => id.length = 36) ⟨"memories", by decide⟩ ⟨2, by decide⟩ oldVectors
      (run.backupFile ⟨"memories", by decide⟩) = .ok back ∧
    (Restores run.backup oldVectors back.table ↔ Restorable 2 run.backup oldVectors) :=
  rollback_restores_iff newModel oldProject oldVectors oldVectors ⟨"memories", by decide⟩ ⟨2, by decide⟩
    (by with_unfolding_all decide)

/-- The second memory is deleted, and the first one keeps the new vector. -/
theorem deleted_row_blocks : ¬∀ (args : ReembedArgs) (t : Table (Embedding Int 1)) (collection : CollectionName)
    (size : BatchSize) (deleted : List String) (run : ReembedRun (Embedding Int 1))
    (back : RollbackRun (Embedding Int 1)), reembed newModel args t = some run →
      rollback (fun id => id.length = 36) collection size (deleted.foldl Table.delete run.table)
        (run.backupFile collection) = .ok back →
      Restores run.backup (deleted.foldl Table.delete run.table) back.table := by
  intro h
  have hback : rollback (fun id => id.length = 36) ⟨"memories", by decide⟩ ⟨2, by decide⟩
      ([secondId].foldl Table.delete newVectors.table) (newVectors.backupFile ⟨"memories", by decide⟩) =
      .ok ⟨[secondId].foldl Table.delete newVectors.table, [(firstId, some ⟨[1], rfl⟩)], 0,
        [(firstId, "ValueError"), (secondId, "ValueError")]⟩ := by with_unfolding_all rfl
  obtain ⟨hrestored, _⟩ := h oldProject oldVectors _ _ [secondId] newVectors _ newModel_run hback
  have hleft := hrestored (firstId, some ⟨[0], rfl⟩) (by with_unfolding_all decide) (some ⟨[1], rfl⟩) (by with_unfolding_all rfl)
  revert hleft
  with_unfolding_all decide

end YiQiao
