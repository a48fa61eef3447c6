import YiQiao.Lib.Logs
import YiQiao.Lib.Stable
import YiQiao.Server.Ownership

/-!
# Embedding a project again

The script scans the rows of a scope by their ids, writes the vector of each to a backup, asks the embedder for a batch
and replaces the vectors in one transaction, if none has changed since the scan. Others write vectors meanwhile.
-/

namespace YiQiao

open Lib Fallible Filters

variable {F E V : Type}

/-! ## Vectors of the table -/

/-- A vector of the column's dimension. -/
abbrev Embedding (F : Type) (dims : Nat) := { v : List F // v.length = dims }

namespace Table

def setVector (t : Table V) (id : String) (vector : Option V) : Table V :=
  t.modify id (fun row => { row with vector := vector }) fun _ => rfl

/-- The vectors others write. -/
def writeAll (t : Table V) (writes : List (String × Option V)) : Table V :=
  writes.foldl (fun t w => t.setVector w.1 w.2) t

end Table

/-- An item of `_update_vectors`; re-embedding gives the vector it expects, a rollback none. -/
structure VectorItem (V : Type) where
  id : String
  vector : Option V
  expected : Option (Option V)

/-- One `UPDATE`, which must change one row. -/
def updateVector [DecidableEq V] (t : Table V) (item : VectorItem V) : Except String (Table V) :=
  match t.get item.id with
  | some row =>
      if item.expected.all (· = row.vector) then .ok (t.setVector item.id item.vector) else .error "ValueError"
  | none => .error "ValueError"

/-- `_update_vectors`: all of a batch or nothing. -/
def updateVectors [DecidableEq V] (t : Table V) (items : List (VectorItem V)) : Except String (Table V) :=
  items.foldlM updateVector t

/-! ## The scan -/

structure ScannedRow (V : Type) where
  id : String
  vector : Option V
  text : String

def scannedRow (P : Platform) (row : Row V) : ScannedRow V where
  id := row.id
  vector := row.vector
  text := ((Payload.get row.payload "data").sqlText P).getD ""

/-- `id > after ORDER BY id LIMIT limit`. -/
def nextRows (after : Option String) (limit : Nat) (rows : List (Row V)) : List (Row V) :=
  (ascending Row.id (rows.filter fun row => after.all fun id => decide (id < row.id))).take limit

/-- `_query_rows`: the next rows of the scope after an id. -/
def scanRows (P : Platform) (t : Table V) (filters : Entries) (after : Option String) (limit : Nat) :
    Except PyError (List (ScannedRow V)) := do
  let rows ← Table.select P filters t.rows
  pure ((nextRows after limit rows).map (scannedRow P))

/-! ## The embedder -/

/-- What the embedder answers for one batch: the call for all texts, and the calls for one text each. An exception is
the name of its type. -/
structure BatchEmbedder (E : Type) where
  batch : List String → Except String (List E)
  single : Nat → String → Except String E

/-- What a run meets: the embedder, and the vectors others write before a scan and after it. -/
structure ReembedWorld (F E : Type) (dims : Nat) where
  platform : Platform
  embedder : Nat → BatchEmbedder E
  /-- `_parse_vector` of an embedding. -/
  parseVector : E → Except String (List F)
  before : Nat → List (String × Option (Embedding F dims))
  during : Nat → List (String × Option (Embedding F dims))

variable {dims : Nat}

/-- The vector of an embedding, if it has the dimension. -/
def ReembedWorld.toVector (W : ReembedWorld F E dims) (embedding : E) : Except String (Embedding F dims) := do
  let v ← W.parseVector embedding
  if h : v.length = dims then .ok ⟨v, h⟩ else .error "ValueError"

/-- The embeddings of the rows: those of the batch call, if it gives one a row, or else one by one. -/
def embedTextsOf (B : BatchEmbedder E) (texts : List String) : List (Except String E) :=
  let single := texts.zipIdx.map fun e => B.single e.2 e.1
  match B.batch texts with
  | .ok embeddings => if embeddings.length = texts.length then embeddings.map .ok else single
  | .error _ => single

/-- The results that are there, each with its row. -/
def succeeded {α β : Type} (results : List (α × Except String β)) : List (α × β) :=
  results.filterMap fun e => e.2.toOption.map fun b => (e.1, b)

def failedRows (results : List (ScannedRow V × Except String E)) : List (String × String) :=
  results.filterMap fun e => match e.2 with
    | .ok _ => none
    | .error error => some (e.1.id, error)

/-- `_embed_rows`: the new vectors and the failures. -/
def embedRows (W : ReembedWorld F E dims) (B : BatchEmbedder E) (rows : List (ScannedRow (Embedding F dims))) :
    List (ScannedRow (Embedding F dims) × Embedding F dims) × List (String × String) :=
  let blank := rows.filter fun row => strip row.text = ""
  let rows := rows.filter fun row => strip row.text ≠ ""
  let called := rows.zip (embedTextsOf B (rows.map ScannedRow.text))
  let parsed := (succeeded called).map fun e => (e.1, W.toVector e.2)
  (succeeded parsed, blank.map (fun row => (row.id, "MissingMemoryText")) ++ failedRows called ++ failedRows parsed)

/-! ## The run -/

/-- What happens to the table and to the files, in order. -/
inductive ReembedEvent (V : Type) where
  | written (id : String) (vector : Option V)
  | backedUp (id : String) (vector : Option V)
  | replaced (id : String) (vector : V)
  | failed (id error : String)

structure ReembedRun (V : Type) where
  table : Table V
  events : List (ReembedEvent V)
  scanned : Nat
  updated : Nat
  failed : Nat

def ReembedEvent.backup : ReembedEvent V → Option (String × Option V)
  | .backedUp id vector => some (id, vector)
  | _ => none

def ReembedEvent.failure : ReembedEvent V → Option (String × String)
  | .failed id error => some (id, error)
  | _ => none

def ReembedEvent.replacement : ReembedEvent V → Option (String × V)
  | .replaced id vector => some (id, vector)
  | _ => none

/-- The rows of the backup file. -/
def ReembedRun.backup (run : ReembedRun V) : List (String × Option V) := run.events.filterMap ReembedEvent.backup

/-- The rows of the failure file. -/
def ReembedRun.failures (run : ReembedRun V) : List (String × String) := run.events.filterMap ReembedEvent.failure

def ReembedRun.replacements (run : ReembedRun V) : List (String × V) := run.events.filterMap ReembedEvent.replacement

def ReembedEvent.write : ReembedEvent V → Option (String × Option V)
  | .written id vector => some (id, vector)
  | _ => none

/-- What others wrote. -/
def ReembedRun.writes (run : ReembedRun V) : List (String × Option V) := run.events.filterMap ReembedEvent.write

def writtenEvents (writes : List (String × Option V)) : List (ReembedEvent V) :=
  writes.map fun w => .written w.1 w.2

/-- Others write vectors. -/
def ReembedRun.others (run : ReembedRun V) (writes : List (String × Option V)) : ReembedRun V :=
  { run with
    table := run.table.writeAll writes
    events := run.events ++ writtenEvents writes }

/-- The item of a new vector. -/
def reembedItem (e : ScannedRow V × V) : VectorItem V := ⟨e.1.id, some e.2, some e.1.vector⟩

/-- One transaction; a batch that fails is written to the failure file. -/
def replaceVectors [DecidableEq V] (run : ReembedRun V) (vectors : List (ScannedRow V × V)) : ReembedRun V :=
  match updateVectors run.table (vectors.map reembedItem) with
  | .ok table =>
      { run with
        table := table
        events := run.events ++ vectors.map fun e => .replaced e.1.id e.2
        updated := run.updated + vectors.length }
  | .error error =>
      { run with
        events := run.events ++ vectors.map fun e => .failed e.1.id error
        failed := run.failed + vectors.length }

/-- The rows of a scan go to the backup file. -/
def backUp (run : ReembedRun V) (rows : List (ScannedRow V)) : ReembedRun V :=
  { run with
    events := run.events ++ rows.map fun row => .backedUp row.id row.vector
    scanned := run.scanned + rows.length }

def recordFailures (run : ReembedRun V) (failures : List (String × String)) : ReembedRun V :=
  { run with
    events := run.events ++ failures.map fun e => .failed e.1 e.2
    failed := run.failed + failures.length }

/-- What is done with the rows of one scan. -/
def reembedBatch [DecidableEq F] (W : ReembedWorld F E dims) (i : Nat) (run : ReembedRun (Embedding F dims))
    (rows : List (ScannedRow (Embedding F dims))) : ReembedRun (Embedding F dims) :=
  let run := (backUp run rows).others (W.during i)
  let embedded := embedRows W (W.embedder i) rows
  replaceVectors (recordFailures run embedded.2) embedded.1

/-- The arguments of the script. -/
structure ReembedArgs where
  project : ProjectId
  userId : Option String
  limit : Nat
  batchSize : Nat
  sized : 0 < batchSize

def ReembedArgs.filters (args : ReembedArgs) : Entries := reembedFilters args.project ++ reembedUser args.userId

/-- The loop of `reembed`; a scan that raises ends the run. -/
def reembedLoop [DecidableEq F] (W : ReembedWorld F E dims) (args : ReembedArgs) :
    Nat → Nat → Option String → Option Nat → ReembedRun (Embedding F dims) → Option (ReembedRun (Embedding F dims))
  | 0, _, _, _, _ => none
  | fuel + 1, i, after, remaining, run =>
      if remaining = some 0 then some run
      else
        let run := run.others (W.before i)
        match scanRows W.platform run.table args.filters after ((remaining.map (min args.batchSize)).getD args.batchSize) with
        | .error _ => some run
        | .ok rows => match rows.getLast? with
          | none => some run
          | some last => reembedLoop W args fuel (i + 1) (some last.id) (remaining.map (· - rows.length))
              (reembedBatch W i run rows)

/-- `reembed` with `--apply`; every round scans a row, so the rows bound the rounds. -/
def reembed [DecidableEq F] (W : ReembedWorld F E dims) (args : ReembedArgs) (t : Table (Embedding F dims)) :
    Option (ReembedRun (Embedding F dims)) :=
  reembedLoop W args (t.rows.length + 1) 0 none (if args.limit = 0 then none else some args.limit) ⟨t, [], 0, 0, 0⟩

/-! ## The rows of a scan -/

section

variable {after : Option String} {limit : Nat}

theorem mem_nextRows {rows : List (Row V)} {row : Row V} (h : row ∈ nextRows after limit rows) :
    row ∈ rows ∧ ∀ id ∈ after, id < row.id := by
  have hlater := List.mem_filter.mp (mem_ranked.mp (List.mem_of_mem_take h))
  refine ⟨hlater.1, ?_⟩
  intro id hid
  have hall := hlater.2
  rw [hid] at hall
  exact of_decide_eq_true hall

theorem nextRows_increasing {rows : List (Row V)} (h : (rows.map Row.id).Nodup) :
    ((nextRows after limit rows).map Row.id).Pairwise (· < ·) := by
  have hsorted : (nextRows after limit rows).Pairwise fun a b => a.id ≤ b.id :=
    (List.pairwise_insertionSort _ _).sublist (List.take_sublist _ _)
  have hnodup : ((nextRows after limit rows).map Row.id).Nodup := by
    apply List.Nodup.sublist ((List.take_sublist _ _).map Row.id)
    apply ((ranked_perm _).map Row.id).nodup_iff.mpr
    exact h.sublist (List.filter_sublist.map Row.id)
  exact (List.pairwise_map.mpr hsorted).imp₂ (fun _ _ hle hne => lt_of_le_of_ne hle hne) hnodup

/-- The last of increasing ids is the greatest. -/
theorem le_last_of_increasing {rows : List (ScannedRow V)} {r last : ScannedRow V}
    (h : (rows.map ScannedRow.id).Pairwise (· < ·)) (hlast : rows.getLast? = some last) (hr : r ∈ rows) :
    r.id ≤ last.id := by
  obtain ⟨init, rfl⟩ := List.getLast?_eq_some_iff.mp hlast
  rcases List.mem_append.mp hr with hr | hr
  · rw [List.map_append, List.pairwise_append] at h
    exact le_of_lt (h.2.2 r.id (List.mem_map_of_mem hr) last.id (by simp))
  · rw [List.mem_singleton.mp hr]

theorem scanRows_ok {P : Platform} {t : Table V} {filters : Entries} {rows : List (ScannedRow V)}
    (h : scanRows P t filters after limit = .ok rows) :
    (rows.map ScannedRow.id).Pairwise (· < ·) ∧ (∀ r ∈ rows, ∀ id ∈ after, id < r.id) ∧
      ∀ r ∈ rows, ∃ row ∈ t.rows, r = scannedRow P row ∧ AdmittedBy P filters row.payload := by
  simp only [scanRows, bind_ok, pure_ok] at h
  obtain ⟨selected, hselected, rfl⟩ := h
  simp only [Table.select, bind_ok] at hselected
  obtain ⟨conds, hconds, hselected⟩ := hselected
  split at hselected
  · cases hselected
  · cases hselected
    refine ⟨?_, ?_, ?_⟩
    · rw [List.map_map]
      exact nextRows_increasing (t.unique.sublist (List.filter_sublist.map Row.id))
    · intro r hr
      obtain ⟨row, hrow, rfl⟩ := List.mem_map.mp hr
      exact (mem_nextRows hrow).2
    · intro r hr
      obtain ⟨row, hrow, rfl⟩ := List.mem_map.mp hr
      obtain ⟨hmem, hselects⟩ := List.mem_filter.mp (mem_nextRows hrow).1
      exact ⟨row, hmem, rfl, conds, hconds, hselects⟩

end

/-! ## The vectors of a batch -/

/-- The vector is the embedder's for the text. -/
def EmbeddingOf (W : ReembedWorld F E dims) (B : BatchEmbedder E) (text : String) (v : Embedding F dims) : Prop :=
  ∃ e, W.toVector e = .ok v ∧
    ((∃ (texts : List String) (embeddings : List E) (p : Nat), B.batch texts = .ok embeddings ∧
      embeddings.length = texts.length ∧ texts[p]? = some text ∧ embeddings[p]? = some e) ∨
      ∃ p, B.single p text = .ok e)

section

variable {W : ReembedWorld F E dims} {B : BatchEmbedder E}

theorem length_embedTextsOf (texts : List String) : (embedTextsOf B texts).length = texts.length := by
  unfold embedTextsOf
  dsimp only
  split
  · split
    · rename_i h
      rw [List.length_map, h]
    · simp
  · simp

/-- The results and the failures share the rows. -/
theorem succeeded_failed_perm (results : List (ScannedRow V × Except String E)) :
    ((succeeded results).map (fun e => e.1.id) ++ (failedRows results).map Prod.fst).Perm
      (results.map fun e => e.1.id) := by
  induction results with
  | nil => exact .nil
  | cons e results ih =>
    obtain ⟨row, result⟩ := e
    cases result with
    | ok b => exact ih.cons row.id
    | error error => exact List.perm_middle.trans (ih.cons row.id)

theorem mem_succeeded {α β : Type} {results : List (α × Except String β)} {e : α × β} :
    e ∈ succeeded results ↔ (e.1, Except.ok e.2) ∈ results := by
  obtain ⟨a, b⟩ := e
  simp only [succeeded, List.mem_filterMap, Prod.exists, Option.map_eq_some_iff, Prod.mk.injEq]
  constructor
  · rintro ⟨a', result, hmem, b', hresult, rfl, rfl⟩
    cases result with
    | ok b'' =>
      cases hresult
      exact hmem
    | error error => cases hresult
  · intro hmem
    exact ⟨a, .ok b, hmem, b, rfl, rfl, rfl⟩

/-- Every row of the batch has one new vector or one failure. -/
theorem embedRows_perm (rows : List (ScannedRow (Embedding F dims))) :
    ((embedRows W B rows).1.map (fun e => e.1.id) ++ (embedRows W B rows).2.map Prod.fst).Perm
      (rows.map ScannedRow.id) := by
  have hsplit : ((rows.filter fun row => strip row.text = "").map ScannedRow.id ++
      (rows.filter fun row => strip row.text ≠ "").map ScannedRow.id).Perm (rows.map ScannedRow.id) := by
    rw [← List.map_append]
    apply List.Perm.map
    simpa using List.filter_append_perm (fun row : ScannedRow (Embedding F dims) => strip row.text = "") rows
  generalize hnonblank : rows.filter (fun row => strip row.text ≠ "") = nonblank at hsplit
  generalize hblank : rows.filter (fun row => strip row.text = "") = blank at hsplit
  generalize hcalled : nonblank.zip (embedTextsOf B (nonblank.map ScannedRow.text)) = called
  have hids : (called.map fun e => e.1.id) = nonblank.map ScannedRow.id := by
    have hfst : called.map Prod.fst = nonblank := by
      rw [← hcalled]
      apply List.map_fst_zip
      rw [length_embedTextsOf, List.length_map]
    rw [← hfst, List.map_map]
    rfl
  generalize hparsed : ((succeeded called).map fun e => (e.1, W.toVector e.2)) = parsed
  have hparsedIds : (parsed.map fun e => e.1.id) = (succeeded called).map fun e => e.1.id := by
    rw [← hparsed, List.map_map]
    rfl
  have hresult : embedRows W B rows = (succeeded parsed,
      blank.map (fun row => (row.id, "MissingMemoryText")) ++ failedRows called ++ failedRows parsed) := by
    rw [embedRows, hnonblank, hblank, hcalled, hparsed]
  rw [hresult]
  simp only [List.map_append, List.map_map]
  have hcalls := succeeded_failed_perm called
  have hvectors := succeeded_failed_perm parsed
  rw [hids] at hcalls
  rw [hparsedIds] at hvectors
  have hblankIds : blank.map (Prod.fst ∘ fun row => (row.id, "MissingMemoryText")) = blank.map ScannedRow.id := rfl
  rw [hblankIds]
  apply List.Perm.trans _ hsplit
  apply List.Perm.trans _ (hcalls.append_left _)
  apply List.Perm.trans _ ((hvectors.append_right _).append_left _)
  rw [List.perm_iff_count]
  intro id
  simp only [List.count_append]
  omega

theorem embedTextsOf_ok {texts : List String} {p : Nat} {text : String} {e : E} (htext : texts[p]? = some text)
    (h : (embedTextsOf B texts)[p]? = some (.ok e)) :
    (∃ (texts : List String) (embeddings : List E) (p : Nat), B.batch texts = .ok embeddings ∧
      embeddings.length = texts.length ∧ texts[p]? = some text ∧ embeddings[p]? = some e) ∨
      ∃ p, B.single p text = .ok e := by
  have hsingle : ((texts.zipIdx.map fun e => B.single e.2 e.1)[p]? = some (.ok e)) → ∃ p, B.single p text = .ok e := by
    intro hat
    rw [List.getElem?_map, List.getElem?_zipIdx, htext] at hat
    exact ⟨_, by simpa using hat⟩
  unfold embedTextsOf at h
  cases hbatch : B.batch texts with
  | error error =>
    rw [hbatch] at h
    exact .inr (hsingle h)
  | ok embeddings =>
    rw [hbatch] at h
    dsimp only at h
    split at h
    · rename_i hlength
      rw [List.getElem?_map] at h
      obtain ⟨e', he', hsame⟩ := Option.map_eq_some_iff.mp h
      cases hsame
      exact .inl ⟨texts, embeddings, p, hbatch, hlength, htext, he'⟩
    · exact .inr (hsingle h)

theorem embedRows_embedding {rows : List (ScannedRow (Embedding F dims))}
    {e : ScannedRow (Embedding F dims) × Embedding F dims} (h : e ∈ (embedRows W B rows).1) :
    e.1 ∈ rows ∧ EmbeddingOf W B e.1.text e.2 := by
  obtain ⟨row, v⟩ := e
  obtain ⟨⟨row', embedding⟩, hcalled, hvector⟩ := List.mem_map.mp (mem_succeeded.mp h)
  simp only [Prod.mk.injEq] at hvector
  obtain ⟨rfl, hvector⟩ := hvector
  have hzip := mem_succeeded.mp hcalled
  refine ⟨List.mem_of_mem_filter (List.of_mem_zip hzip).1, embedding, hvector, ?_⟩
  obtain ⟨p, hp⟩ := List.mem_iff_getElem?.mp hzip
  obtain ⟨hrow, hanswer⟩ := List.getElem?_zip_eq_some.mp hp
  have htext : ((rows.filter fun row => strip row.text ≠ "").map ScannedRow.text)[p]? = some row'.text := by
    rw [List.getElem?_map, hrow]
    rfl
  exact embedTextsOf_ok htext hanswer

end

/-! ## The log of a run -/

/-- What an event does to the table. -/
def ReembedEvent.apply (t : Table V) : ReembedEvent V → Table V
  | .written id vector => t.setVector id vector
  | .replaced id vector => t.setVector id (some vector)
  | .backedUp _ _ => t
  | .failed _ _ => t

/-- A backup has the vector of its row, and a replacement finds the vector that was backed up. -/
def RightEvent (seen : List (ReembedEvent V)) (t : Table V) : ReembedEvent V → Prop
  | .backedUp id vector => ∃ row ∈ t.rows, row.id = id ∧ row.vector = vector
  | .replaced id _ => ∃ vector, .backedUp id vector ∈ seen ∧ ∃ row ∈ t.rows, row.id = id ∧ row.vector = vector
  | .written _ _ => True
  | .failed _ _ => True

section

variable {t t' : Table V} {seen : List (ReembedEvent V)}

theorem replay_written (writes : List (String × Option V)) :
    replay ReembedEvent.apply t (writtenEvents writes) = t.writeAll writes := by
  rw [replay, writtenEvents, List.foldl_map]
  rfl

theorem updateVectors_ok [DecidableEq V] {vectors : List (ScannedRow V × V)}
    (h : updateVectors t (vectors.map reembedItem) = .ok t')
    (hseen : ∀ e ∈ vectors, .backedUp e.1.id e.1.vector ∈ seen) :
    t' = replay ReembedEvent.apply t (vectors.map fun e => .replaced e.1.id e.2) ∧
      EachEntry ReembedEvent.apply RightEvent seen t (vectors.map fun e => .replaced e.1.id e.2) := by
  induction vectors generalizing t seen with
  | nil =>
    rw [updateVectors, List.map_nil, List.foldlM_nil, pure_ok] at h
    exact ⟨h.symm, trivial⟩
  | cons e vectors ih =>
    obtain ⟨he, hrest⟩ := List.forall_mem_cons.mp hseen
    rw [updateVectors, List.map_cons, List.foldlM_cons, bind_ok] at h
    obtain ⟨next, hnext, hlater⟩ := h
    unfold updateVector at hnext
    split at hnext
    · rename_i row hget
      obtain ⟨hrow, hid⟩ := Table.get_mem hget
      split at hnext
      · rename_i hexpected
        cases hnext
        have hseen' : ∀ e' ∈ vectors, .backedUp e'.1.id e'.1.vector ∈ seen ++ [.replaced e.1.id e.2] :=
          fun e' he' => List.mem_append_left _ (hrest e' he')
        obtain ⟨htable, hright⟩ := ih hlater hseen'
        refine ⟨htable, ⟨e.1.vector, he, row, hrow, hid, ?_⟩, hright⟩
        exact (by simpa [reembedItem] using hexpected : e.1.vector = row.vector).symm
      · cases hnext
    · cases hnext

/-! ## Vectors by their ids -/

/-- The vector of an id, where there is a row. -/
def Table.vectorOf (t : Table V) (id : String) : Option (Option V) := (t.get id).map Row.vector

theorem Table.vectorOf_setVector (id id' : String) (vector : Option V) :
    (t.setVector id vector).vectorOf id' = if id' = id then (t.vectorOf id').map fun _ => vector else t.vectorOf id' := by
  have hsame : ((fun row : Row V => decide (row.id = id')) ∘
      fun row => if row.id = id then { row with vector := vector } else row) = fun row => decide (row.id = id') := by
    funext row
    by_cases h : row.id = id <;> simp [h]
  simp only [vectorOf, get, setVector, modify, List.find?_map, hsame]
  cases hget : t.rows.find? fun row => row.id = id' with
  | none => simp
  | some row =>
    have hid := (Table.get_mem hget).2
    by_cases h : id' = id <;> simp [h, hid]

/-- A row without a replacement has the vectors of the others' writes. -/
theorem vectorOf_replay {id : String} {events : List (ReembedEvent V)} {t' : Table V}
    (h : id ∉ (events.filterMap ReembedEvent.replacement).map Prod.fst) (hsame : t.vectorOf id = t'.vectorOf id) :
    (replay ReembedEvent.apply t events).vectorOf id =
      (t'.writeAll (events.filterMap ReembedEvent.write)).vectorOf id := by
  induction events generalizing t t' with
  | nil => exact hsame
  | cons e events ih =>
    cases e with
    | written id' vector =>
      apply ih (by simpa [ReembedEvent.replacement] using h)
      simp [ReembedEvent.apply, Table.vectorOf_setVector, hsame]
    | replaced id' vector =>
      simp only [ReembedEvent.replacement, List.filterMap_cons, List.map_cons, List.mem_cons, not_or] at h
      apply ih h.2
      simp [ReembedEvent.apply, Table.vectorOf_setVector, hsame, h.1]
    | backedUp id' vector => exact ih (by simpa [ReembedEvent.replacement] using h) hsame
    | failed id' error => exact ih (by simpa [ReembedEvent.replacement] using h) hsame

/-! ## Rows stay -/

/-- The ids and the payloads are those. -/
def SameRows (t t' : Table V) : Prop :=
  t'.rows.map (fun row => (row.id, row.payload)) = t.rows.map fun row => (row.id, row.payload)

theorem sameRows_setVector (id : String) (vector : Option V) : SameRows t (t.setVector id vector) := by
  simp only [SameRows, Table.setVector, Table.modify, List.map_map]
  apply List.map_congr_left
  intro row _
  by_cases h : row.id = id <;> simp [h]

theorem sameRows_apply (e : ReembedEvent V) : SameRows t (e.apply t) := by
  cases e with
  | written id vector => exact sameRows_setVector id vector
  | replaced id vector => exact sameRows_setVector id (some vector)
  | backedUp id vector => rfl
  | failed id error => rfl

theorem sameRows_replay (events : List (ReembedEvent V)) : SameRows t (replay ReembedEvent.apply t events) := by
  induction events generalizing t with
  | nil => rfl
  | cons e events ih => exact ih.trans (sameRows_apply e)

theorem SameRows.exists (h : SameRows t t') {row : Row V} (hrow : row ∈ t'.rows) :
    ∃ row' ∈ t.rows, row'.id = row.id ∧ row'.payload = row.payload := by
  have hmem : (row.id, row.payload) ∈ t.rows.map fun row => (row.id, row.payload) := h ▸ List.mem_map_of_mem hrow
  obtain ⟨row', hrow', hsame⟩ := List.mem_map.mp hmem
  exact ⟨row', hrow', by simpa using hsame⟩

end

/-! ## The account of a run -/

/-- The rows a run has scanned, with what became of each. -/
structure ReembedAccount (W : ReembedWorld F E dims) (args : ReembedArgs) (t : Table (Embedding F dims))
    (run : ReembedRun (Embedding F dims)) (rows : List (ScannedRow (Embedding F dims))) : Prop where
  /-- Nothing but the events has changed the table. -/
  replayed : run.table = replay ReembedEvent.apply t run.events
  right : EachEntry ReembedEvent.apply RightEvent [] t run.events
  increasing : (rows.map ScannedRow.id).Pairwise (· < ·)
  scope : ∀ r ∈ rows, ∃ row ∈ t.rows, row.id = r.id ∧ AdmittedBy W.platform args.filters row.payload ∧
    r.text = ((Payload.get row.payload "data").sqlText W.platform).getD ""
  backup : run.backup = rows.map fun r => (r.id, r.vector)
  shared : (run.replacements.map Prod.fst ++ run.failures.map Prod.fst).Perm (rows.map ScannedRow.id)
  counted : run.scanned = rows.length ∧ run.updated = run.replacements.length ∧ run.failed = run.failures.length
  embedded : ∀ e ∈ run.replacements, ∃ r ∈ rows, r.id = e.1 ∧ ∃ i, EmbeddingOf W (W.embedder i) r.text e.2

section

variable {W : ReembedWorld F E dims} {args : ReembedArgs} {t : Table (Embedding F dims)}
  {run : ReembedRun (Embedding F dims)} {rows new : List (ScannedRow (Embedding F dims))}

/-- An account with more events and more rows. -/
theorem ReembedAccount.extend (h : ReembedAccount W args t run rows) {run' : ReembedRun (Embedding F dims)}
    (tail : List (ReembedEvent (Embedding F dims))) (hevents : run'.events = run.events ++ tail)
    (htable : run'.table = replay ReembedEvent.apply run.table tail)
    (hright : EachEntry ReembedEvent.apply RightEvent run.events run.table tail)
    (hincreasing : ((rows ++ new).map ScannedRow.id).Pairwise (· < ·))
    (hscope : ∀ r ∈ new, ∃ row ∈ t.rows, row.id = r.id ∧ AdmittedBy W.platform args.filters row.payload ∧
      r.text = ((Payload.get row.payload "data").sqlText W.platform).getD "")
    (hbackup : tail.filterMap ReembedEvent.backup = new.map fun r => (r.id, r.vector))
    (hshared : ((tail.filterMap ReembedEvent.replacement).map Prod.fst ++
      (tail.filterMap ReembedEvent.failure).map Prod.fst).Perm (new.map ScannedRow.id))
    (hcounted : run'.scanned = run.scanned + new.length ∧
      run'.updated = run.updated + (tail.filterMap ReembedEvent.replacement).length ∧
      run'.failed = run.failed + (tail.filterMap ReembedEvent.failure).length)
    (hembedded : ∀ e ∈ tail.filterMap ReembedEvent.replacement, ∃ r ∈ new, r.id = e.1 ∧
      ∃ i, EmbeddingOf W (W.embedder i) r.text e.2) : ReembedAccount W args t run' (rows ++ new) := by
  have hreplacements : run'.replacements = run.replacements ++ tail.filterMap ReembedEvent.replacement := by
    rw [ReembedRun.replacements, hevents, List.filterMap_append]
    rfl
  have hfailures : run'.failures = run.failures ++ tail.filterMap ReembedEvent.failure := by
    rw [ReembedRun.failures, hevents, List.filterMap_append]
    rfl
  constructor
  · rw [hevents, replay_append, ← h.replayed, htable]
  · rw [hevents, eachEntry_append, List.nil_append, ← h.replayed]
    exact ⟨h.right, hright⟩
  · exact hincreasing
  · intro r hr
    rcases List.mem_append.mp hr with hr | hr
    · exact h.scope r hr
    · exact hscope r hr
  · rw [ReembedRun.backup, hevents, List.filterMap_append, hbackup, List.map_append, ← h.backup]
    rfl
  · rw [hreplacements, hfailures, List.map_append, List.map_append, List.map_append]
    apply List.Perm.trans _ (h.shared.append hshared)
    rw [List.perm_iff_count]
    intro id
    simp only [List.count_append]
    omega
  · obtain ⟨hscanned, hupdated, hfailed⟩ := h.counted
    rw [hreplacements, hfailures, List.length_append, List.length_append, List.length_append]
    omega
  · intro e he
    rw [hreplacements] at he
    rcases List.mem_append.mp he with he | he
    · obtain ⟨r, hr, hrest⟩ := h.embedded e he
      exact ⟨r, List.mem_append_left _ hr, hrest⟩
    · obtain ⟨r, hr, hrest⟩ := hembedded e he
      exact ⟨r, List.mem_append_right _ hr, hrest⟩

theorem eachEntry_written {seen : List (ReembedEvent V)} {t : Table V} (writes : List (String × Option V)) :
    EachEntry ReembedEvent.apply RightEvent seen t (writtenEvents writes) := by
  apply EachEntry.of_forall
  intro e he seen t'
  obtain ⟨w, _, rfl⟩ := List.mem_map.mp he
  trivial

theorem eachEntry_failed {α : Type} {seen : List (ReembedEvent V)} {t : Table V} (id error : α → String)
    (failures : List α) :
    EachEntry ReembedEvent.apply RightEvent seen t (failures.map fun e => .failed (id e) (error e)) := by
  apply EachEntry.of_forall
  intro e he seen t'
  obtain ⟨w, _, rfl⟩ := List.mem_map.mp he
  trivial

theorem replay_failed {α : Type} {t : Table V} (id error : α → String) (failures : List α) :
    replay ReembedEvent.apply t (failures.map fun e => .failed (id e) (error e)) = t := by
  apply replay_of_still
  intro e he t'
  obtain ⟨w, _, rfl⟩ := List.mem_map.mp he
  rfl

theorem replay_backedUp {t : Table V} (rows : List (ScannedRow V)) :
    replay ReembedEvent.apply t (rows.map fun r => .backedUp r.id r.vector) = t := by
  apply replay_of_still
  intro e he t'
  obtain ⟨w, _, rfl⟩ := List.mem_map.mp he
  rfl

theorem eachEntry_backedUp {seen : List (ReembedEvent V)} {P : Platform} {t : Table V} {rows : List (ScannedRow V)}
    (h : ∀ r ∈ rows, ∃ row ∈ t.rows, r = scannedRow P row) :
    EachEntry ReembedEvent.apply RightEvent seen t (rows.map fun r => .backedUp r.id r.vector) := by
  apply EachEntry.of_still
  · intro e he t'
    obtain ⟨w, _, rfl⟩ := List.mem_map.mp he
    rfl
  · intro e he seen
    obtain ⟨r, hr, rfl⟩ := List.mem_map.mp he
    obtain ⟨row, hrow, rfl⟩ := h r hr
    exact ⟨row, hrow, rfl, rfl⟩

theorem ReembedAccount.others (h : ReembedAccount W args t run rows) (writes : List (String × Option (Embedding F dims))) :
    ReembedAccount W args t (run.others writes) rows := by
  have hextended : ReembedAccount W args t (run.others writes) (rows ++ []) := by
    apply h.extend (writtenEvents writes) rfl
    · rw [replay_written]
      rfl
    · exact eachEntry_written writes
    · rw [List.append_nil]
      exact h.increasing
    · simp
    · simp [writtenEvents, ReembedEvent.backup]
    · simp [writtenEvents, ReembedEvent.replacement, ReembedEvent.failure]
    · simp [writtenEvents, ReembedEvent.replacement, ReembedEvent.failure, ReembedRun.others]
    · simp [writtenEvents, ReembedEvent.replacement]
  rwa [List.append_nil] at hextended

/-- The events of a batch before its transaction. -/
def batchEvents (W : ReembedWorld F E dims) (i : Nat) (new : List (ScannedRow (Embedding F dims))) :
    List (ReembedEvent (Embedding F dims)) :=
  (new.map fun r => .backedUp r.id r.vector) ++ writtenEvents (W.during i) ++
    (embedRows W (W.embedder i) new).2.map fun e => .failed e.1 e.2

/-- The transaction replaces all vectors or none. -/
theorem reembedBatch_cases [DecidableEq F] (i : Nat) (run : ReembedRun (Embedding F dims))
    (new : List (ScannedRow (Embedding F dims))) :
    (∃ table, updateVectors (run.table.writeAll (W.during i)) ((embedRows W (W.embedder i) new).1.map reembedItem) =
      .ok table ∧ reembedBatch W i run new =
        ⟨table, run.events ++ (batchEvents W i new ++ (embedRows W (W.embedder i) new).1.map fun e =>
          .replaced e.1.id e.2), run.scanned + new.length, run.updated + (embedRows W (W.embedder i) new).1.length,
          run.failed + (embedRows W (W.embedder i) new).2.length⟩) ∨
    ∃ error, reembedBatch W i run new =
        ⟨run.table.writeAll (W.during i), run.events ++ (batchEvents W i new ++
          (embedRows W (W.embedder i) new).1.map fun e => .failed e.1.id error), run.scanned + new.length, run.updated,
          run.failed + (embedRows W (W.embedder i) new).2.length + (embedRows W (W.embedder i) new).1.length⟩ := by
  unfold reembedBatch replaceVectors
  dsimp only [recordFailures, ReembedRun.others, backUp]
  cases hupdate : updateVectors (run.table.writeAll (W.during i)) ((embedRows W (W.embedder i) new).1.map reembedItem) with
  | ok table =>
    refine .inl ⟨table, rfl, ?_⟩
    simp [batchEvents, List.append_assoc]
  | error error =>
    refine .inr ⟨error, ?_⟩
    simp [batchEvents, List.append_assoc]

theorem batchEvents_backup (i : Nat) (new : List (ScannedRow (Embedding F dims))) :
    (batchEvents W i new).filterMap ReembedEvent.backup = new.map fun r => (r.id, r.vector) := by
  simp [batchEvents, writtenEvents, ReembedEvent.backup, Function.comp_def]

theorem batchEvents_failure (i : Nat) (new : List (ScannedRow (Embedding F dims))) :
    (batchEvents W i new).filterMap ReembedEvent.failure = (embedRows W (W.embedder i) new).2 := by
  simp [batchEvents, writtenEvents, ReembedEvent.failure, Function.comp_def]

theorem batchEvents_replacement (i : Nat) (new : List (ScannedRow (Embedding F dims))) :
    (batchEvents W i new).filterMap ReembedEvent.replacement = [] := by
  simp [batchEvents, writtenEvents, ReembedEvent.replacement, Function.comp_def]

theorem replay_batchEvents (i : Nat) (new : List (ScannedRow (Embedding F dims))) {t : Table (Embedding F dims)} :
    replay ReembedEvent.apply t (batchEvents W i new) = t.writeAll (W.during i) := by
  rw [batchEvents, replay_append, replay_append, replay_backedUp, replay_written, replay_failed]

/-- One batch accounts for the rows of its scan. -/
theorem ReembedAccount.batch [DecidableEq F] (h : ReembedAccount W args t run rows) {after : Option String}
    {limit : Nat} (i : Nat) (hscan : scanRows W.platform run.table args.filters after limit = .ok new)
    (hbefore : ∀ r ∈ rows, ∀ r' ∈ new, r.id < r'.id) :
    ReembedAccount W args t (reembedBatch W i run new) (rows ++ new) := by
  obtain ⟨hincreasing, _, hfound⟩ := scanRows_ok hscan
  have hall : ((rows ++ new).map ScannedRow.id).Pairwise (· < ·) := by
    rw [List.map_append, List.pairwise_append]
    refine ⟨h.increasing, hincreasing, ?_⟩
    intro a ha b hb
    obtain ⟨r, hr, rfl⟩ := List.mem_map.mp ha
    obtain ⟨r', hr', rfl⟩ := List.mem_map.mp hb
    exact hbefore r hr r' hr'
  have hscope : ∀ r ∈ new, ∃ row ∈ t.rows, row.id = r.id ∧ AdmittedBy W.platform args.filters row.payload ∧
      r.text = ((Payload.get row.payload "data").sqlText W.platform).getD "" := by
    intro r hr
    obtain ⟨row, hrow, rfl, hadmitted⟩ := hfound r hr
    rw [h.replayed] at hrow
    obtain ⟨row', hrow', hid, hpayload⟩ := (sameRows_replay run.events).exists hrow
    exact ⟨row', hrow', hid, hpayload ▸ hadmitted, by rw [hpayload]; rfl⟩
  have hstart : EachEntry ReembedEvent.apply RightEvent run.events run.table (batchEvents W i new) := by
    rw [batchEvents, eachEntry_append, eachEntry_append]
    refine ⟨⟨eachEntry_backedUp (P := W.platform) fun r hr => ?_, eachEntry_written _⟩, eachEntry_failed Prod.fst Prod.snd _⟩
    obtain ⟨row, hrow, hrest⟩ := hfound r hr
    exact ⟨row, hrow, hrest.1⟩
  have hshared := embedRows_perm (W := W) (B := W.embedder i) new
  rcases reembedBatch_cases (W := W) i run new with ⟨table, hupdate, hbatch⟩ | ⟨error, hbatch⟩
  · have hseen : ∀ e ∈ (embedRows W (W.embedder i) new).1,
        .backedUp e.1.id e.1.vector ∈ run.events ++ batchEvents W i new := by
      intro e he
      apply List.mem_append_right
      apply List.mem_append_left
      apply List.mem_append_left
      exact List.mem_map.mpr ⟨e.1, (embedRows_embedding he).1, rfl⟩
    obtain ⟨htable, hreplaced⟩ := updateVectors_ok hupdate hseen
    rw [hbatch]
    apply h.extend (batchEvents W i new ++ _) rfl
    · rw [replay_append, replay_batchEvents]
      exact htable
    · rw [eachEntry_append, replay_batchEvents]
      exact ⟨hstart, hreplaced⟩
    · exact hall
    · exact hscope
    · simp [batchEvents_backup, ReembedEvent.backup]
    · simpa [batchEvents_replacement, batchEvents_failure, ReembedEvent.replacement, ReembedEvent.failure,
        Function.comp_def] using hshared
    · simp [batchEvents_replacement, batchEvents_failure, ReembedEvent.replacement, ReembedEvent.failure,
        Function.comp_def]
    · intro e he
      rw [List.filterMap_append, batchEvents_replacement, List.nil_append] at he
      obtain ⟨event, hevent, hmade⟩ := List.mem_filterMap.mp he
      obtain ⟨e', he', rfl⟩ := List.mem_map.mp hevent
      cases hmade
      obtain ⟨hmem, hembedding⟩ := embedRows_embedding he'
      exact ⟨e'.1, hmem, rfl, i, hembedding⟩
  · rw [hbatch]
    apply h.extend (batchEvents W i new ++ _) rfl
    · rw [replay_append, replay_batchEvents, replay_failed]
    · rw [eachEntry_append]
      exact ⟨hstart, eachEntry_failed (fun e : ScannedRow (Embedding F dims) × Embedding F dims => e.1.id) (fun _ => error) _⟩
    · exact hall
    · exact hscope
    · simp [batchEvents_backup, ReembedEvent.backup]
    · simpa [batchEvents_replacement, batchEvents_failure, ReembedEvent.replacement, ReembedEvent.failure,
        Function.comp_def] using List.perm_append_comm.trans hshared
    · simp [batchEvents_replacement, batchEvents_failure, ReembedEvent.replacement, ReembedEvent.failure,
        Function.comp_def, Nat.add_assoc]
    · simp [batchEvents_replacement, ReembedEvent.replacement]

/-! ## The loop -/

theorem ReembedAccount.start : ReembedAccount W args t ⟨t, [], 0, 0, 0⟩ [] := by
  constructor <;> simp [EachEntry, ReembedRun.backup, ReembedRun.replacements, ReembedRun.failures]

theorem ReembedAccount.length_le (h : ReembedAccount W args t run rows) : rows.length ≤ t.rows.length := by
  have hnodup : (rows.map ScannedRow.id).Nodup := h.increasing.imp ne_of_lt
  have hsub : rows.map ScannedRow.id ⊆ t.rows.map Row.id := by
    intro id hid
    obtain ⟨r, hr, rfl⟩ := List.mem_map.mp hid
    obtain ⟨row, hrow, hid, _⟩ := h.scope r hr
    exact List.mem_map.mpr ⟨row, hrow, hid⟩
  simpa using (List.subperm_of_subset hnodup hsub).length_le

/-- Every round scans a row, so the loop ends, and each batch accounts for its rows. -/
theorem reembedLoop_account [DecidableEq F] (fuel i : Nat) (after : Option String) (remaining : Option Nat)
    (h : ReembedAccount W args t run rows) (hafter : ∀ r ∈ rows, ∃ id ∈ after, r.id ≤ id)
    (hfuel : t.rows.length < rows.length + fuel) :
    ∃ run' rows', reembedLoop W args fuel i after remaining run = some run' ∧ ReembedAccount W args t run' rows' := by
  induction fuel generalizing i after remaining run rows with
  | zero =>
    have hlength := h.length_le
    omega
  | succ fuel ih =>
    unfold reembedLoop
    have hwritten := h.others (W.before i)
    split
    · exact ⟨run, rows, rfl, h⟩
    · dsimp only
      split
      · exact ⟨_, rows, rfl, hwritten⟩
      · rename_i new hscan
        obtain ⟨hincreasing, hlater, _⟩ := scanRows_ok hscan
        split
        · exact ⟨_, rows, rfl, hwritten⟩
        · rename_i last hlast
          have hmem : last ∈ new := List.mem_of_getLast? hlast
          have hbefore : ∀ r ∈ rows, ∀ r' ∈ new, r.id < r'.id := by
            intro r hr r' hr'
            obtain ⟨id, hid, hle⟩ := hafter r hr
            exact lt_of_le_of_lt hle (hlater r' hr' id hid)
          apply ih (i + 1) (some last.id) _ (hwritten.batch i hscan hbefore)
          · intro r hr
            refine ⟨last.id, rfl, ?_⟩
            rcases List.mem_append.mp hr with hr | hr
            · exact le_of_lt (hbefore r hr last hmem)
            · exact le_last_of_increasing hincreasing hlast hr
          · have hpositive := List.length_pos_of_mem hmem
            rw [List.length_append]
            omega

theorem reembed_account [DecidableEq F] (W : ReembedWorld F E dims) (args : ReembedArgs) (t : Table (Embedding F dims)) :
    ∃ run rows, reembed W args t = some run ∧ ReembedAccount W args t run rows :=
  reembedLoop_account (t.rows.length + 1) 0 none (if args.limit = 0 then none else some args.limit)
    ReembedAccount.start (by simp) (by simp)

end

end YiQiao
