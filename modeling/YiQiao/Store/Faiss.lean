import Mathlib.Data.List.Basic
import YiQiao.Equality
import YiQiao.Lib.Effect
import YiQiao.Lib.TopK

/-!
# The local store

`FAISS` keeps the vectors in a flat index, the payloads in `docstore`, and `index_to_id` between the positions of the
one and the ids of the other. It writes all three to the disk after every change, and reads them again when it is
opened.
-/

namespace YiQiao

open Lib

variable {V S α : Type}

inductive DistanceStrategy where
  | euclidean | innerProduct | cosine
  deriving DecidableEq, Repr

/-- What the library of the index does, and how the store is set up. -/
structure FaissEngine (V S : Type) where
  strategy : DistanceStrategy
  normalizeL2 : Bool
  /-- The vector has the dimension of the index. -/
  fits : V → Bool
  /-- `faiss.normalize_L2` on one vector. -/
  normalized : V → V
  /-- The first row of `index.search`: the nearest positions, `none` for `-1`, and their raw scores. -/
  nearest : List V → List V → Nat → Except PyError (List (Option Nat × S))
  /-- `1.0 / (1.0 + raw_score)` in floating point. -/
  closeness : S → S
  /-- What the index raises for a matrix or a position that it cannot take. -/
  fault : PyError

/-- The files of a collection: the index, and the rest as JSON. -/
structure FaissFiles (V : Type) where
  vectors : List V
  json : Value

structure FaissStore (V : Type) where
  index : Option (List V)
  docstore : List (String × Payload)
  indexToId : List (Nat × String)
  files : Option (FaissFiles V)

abbrev FaissOp (V α : Type) := Effect PyError (FaissStore V) α

/-- `OutputData`. -/
structure FaissRow (S : Type) where
  id : String
  score : Option S
  payload : Payload

namespace FaissEngine

variable (E : FaissEngine V S)

/-- `_should_normalize`. -/
def shouldNormalize : Bool :=
  match E.strategy with
  | .cosine => true
  | .euclidean => E.normalizeL2
  | .innerProduct => false

/-- The vectors as a matrix that the index takes. -/
def matrix (vectors : List V) : Except PyError (List V) :=
  if vectors.isEmpty || !vectors.all E.fits then .error E.fault
  else .ok (if E.shouldNormalize then vectors.map E.normalized else vectors)

/-- The score of a result. -/
def similarity (raw : S) : S :=
  match E.strategy with
  | .euclidean => E.closeness raw
  | _ => raw

end FaissEngine

namespace FaissStore

/-! ## Files -/

/-- The data `_save` writes as JSON. -/
def toJson (s : FaissStore V) : Value :=
  .dict [("docstore", .dict (s.docstore.map fun e => (e.1, .dict e.2))),
    ("index_to_id", .dict (s.indexToId.map fun e => (e.1.repr, .str e.2)))]

/-- `_save`. -/
def save : FaissOp V Unit :=
  Effect.modify fun s => match s.index with
    | none => s
    | some index => { s with files := some ⟨index, s.toJson⟩ }

/-- The docstore of the data. -/
def readDocstore (d : Entries) : Option (List (String × Payload)) :=
  d.mapM fun e => match e.2 with
    | .dict payload => some (e.1, payload)
    | _ => none

/-- `int` on a key, where it is one that `str` wrote. -/
def readIndex (key : String) : Option Nat :=
  if key.toList.isEmpty || !key.toList.all Char.isDigit then none else some (Nat.ofDigitChars 10 key.toList 0)

/-- The positions of the data. -/
def readPositions (d : Entries) : Option (List (Nat × String)) :=
  d.mapM fun e => match readIndex e.1, e.2 with
    | some i, .str id => some (i, id)
    | _, _ => none

/-- What `_load` makes of the data, where it has the form in which it was written. -/
def readJson : Value → Option (List (String × Payload) × List (Nat × String))
  | .dict data => do
      let docstore ← match (data.lookup "docstore").getD (.dict []) with
        | .dict d => readDocstore d
        | _ => none
      let positions ← match (data.lookup "index_to_id").getD (.dict []) with
        | .dict d => readPositions d
        | _ => none
      some (docstore, positions)
  | _ => none

/-- `create_col`. -/
def createCol : FaissOp V Unit := do
  Effect.modify fun s => { s with index := some [] }
  save

/-- A new process opens the store: it loads the files, or makes a new collection where there are none. -/
def reopen : FaissOp V Unit := do
  let files ← Effect.read FaissStore.files
  match files with
  | none => do
      Effect.modify fun s => { s with docstore := [], indexToId := [] }
      createCol
  | some files => Effect.modify fun s => match readJson files.json with
    | some (docstore, positions) =>
        { s with index := some files.vectors, docstore := docstore, indexToId := positions }
    | none => { s with index := some files.vectors, docstore := [], indexToId := [] }

/-- The store before it is opened for the first time. -/
def blank : FaissStore V := ⟨none, [], [], none⟩

/-- `delete_col`. -/
def deleteCol : FaissOp V Unit := Effect.modify fun _ => blank

/-- `reset`. -/
def reset : FaissOp V Unit := do
  deleteCol
  createCol

/-! ## Writing -/

/-- The index, where `create_col` was called. -/
def needIndex : FaissOp V (List V) := do
  match ← Effect.read FaissStore.index with
  | none => Effect.raise (.valueError "Collection not initialized. Call create_col first.")
  | some index => pure index

/-- `insert` with the ids given. -/
def insert (E : FaissEngine V S) (vectors : List V) (payloads : Option (List Payload)) (ids : List String) :
    FaissOp V Unit := do
  let index ← needIndex
  let payloads := payloads.getD (vectors.map fun _ => [])
  if vectors.length ≠ ids.length ∨ vectors.length ≠ payloads.length then
    Effect.raise (.valueError "Vectors, payloads, and IDs must have the same length")
  else do
    let added ← Effect.lift (E.matrix vectors)
    Effect.modify fun s => { s with
      index := some (index ++ added)
      docstore := Dict.update s.docstore (ids.zip payloads)
      indexToId := Dict.update s.indexToId ((ids.zipIdx s.indexToId.length).map Prod.swap) }
    save

/-- `index.reconstruct`. -/
def reconstruct (E : FaissEngine V S) (index : List V) (i : Nat) : Except PyError V :=
  match index[i]? with
  | some v => .ok v
  | none => .error E.fault

/-- The positions but one, in order. -/
def remaining (positions : List (Nat × String)) (i : Nat) : List (Nat × String) :=
  (ranked (fun a b => a.1 ≤ b.1) positions).filter fun e => e.1 ≠ i

/-- `delete`: the index is built anew from the vectors that remain. -/
def delete (E : FaissEngine V S) (id : String) : FaissOp V Unit := do
  let index ← needIndex
  let positions ← Effect.read FaissStore.indexToId
  match positions.find? fun e => e.2 = id with
  | none => pure ()
  | some e => do
      let rest := remaining positions e.1
      let vectors ← Effect.lift (rest.mapM fun e => reconstruct E index e.1)
      Effect.modify fun s => { s with
        index := some vectors
        docstore := Dict.erase id s.docstore
        indexToId := rest.zipIdx.map fun e => (e.2, e.1.2) }
      save

/-- The store with a payload under an id, where one is given. -/
def putPayload (id : String) (payload : Option Payload) (s : FaissStore V) : FaissStore V :=
  match payload with
  | none => s
  | some payload => { s with docstore := Dict.set id payload s.docstore }

/-- `update`: a new vector is inserted after the old one was deleted. -/
def update (E : FaissEngine V S) (id : String) (vector : Option V) (payload : Option Payload) : FaissOp V Unit := do
  let _ ← needIndex
  let docstore ← Effect.read FaissStore.docstore
  match docstore.lookup id with
  | none => Effect.raise (.valueError s!"Vector {id} not found")
  | some stored => do
      Effect.modify (putPayload id payload)
      match vector with
      | none => save
      | some vector => do
          delete E id
          insert E [vector] (some [payload.getD stored]) [id]

/-! ## Reading -/

/-- `get`. -/
def get (id : String) : FaissOp V (Option (FaissRow S)) := do
  let _ ← needIndex
  let docstore ← Effect.read FaissStore.docstore
  pure ((docstore.lookup id).map fun payload => ⟨id, none, payload⟩)

/-- `_apply_filters`. -/
def applyFilters (payload : Payload) (filters : Entries) : Bool :=
  filters.isEmpty || payload.isEmpty || filters.all fun e => match payload.lookup e.1, e.2 with
    | none, _ => false
    | some stored, .list options => options.any fun v => decide (stored.Equal v)
    | some stored, v => decide (stored.Equal v)

/-- The loop of `list` with its counter; without a limit the first comparison raises. -/
def listFrom (limit : Option Int) : Nat → List α → Except PyError (List α)
  | _, [] => .ok []
  | count, row :: rows => match limit with
    | none => .error .typeError
    | some k => if k ≤ count + 1 then .ok [row] else do pure (row :: (← listFrom limit (count + 1) rows))

/-- `list`; a store without an index lists nothing. -/
def list (filters : Entries) (limit : Option Int) : FaissOp V (List (FaissRow S)) := do
  match ← Effect.read FaissStore.index with
  | none => pure []
  | some _ => do
      let docstore ← Effect.read FaissStore.docstore
      let rows ← Effect.lift (listFrom limit 0 (docstore.filter fun e => applyFilters e.2 filters))
      pure (rows.map fun e => ⟨e.1, none, e.2⟩)

/-- `_parse_output`. -/
def parseOutput (E : FaissEngine V S) (s : FaissStore V) (found : List (Option Nat × S)) (limit : Nat) :
    List (FaissRow S) :=
  (found.take limit).filterMap fun hit => do
    let i ← hit.1
    let id ← s.indexToId.lookup i
    let payload ← s.docstore.lookup id
    some ⟨id, some (E.similarity hit.2), payload⟩

/-- `search`: twice as many are fetched where they are filtered. -/
def search (E : FaissEngine V S) (vector : V) (limit : Nat) (filters : Entries) : FaissOp V (List (FaissRow S)) := do
  let index ← needIndex
  let query ← Effect.lift (E.matrix [vector])
  let fetch := if filters.isEmpty then limit else limit * 2
  let found ← Effect.lift (E.nearest index query fetch)
  let rows ← Effect.read fun s => parseOutput E s found fetch
  if filters.isEmpty then pure rows
  else pure ((rows.filter fun row => applyFilters row.payload filters).take limit)

end FaissStore

end YiQiao
