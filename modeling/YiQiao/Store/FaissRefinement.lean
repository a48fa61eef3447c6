import Mathlib.Data.List.Nodup
import Mathlib.Data.List.Sort
import YiQiao.Lib.Fallible
import YiQiao.Lib.Machines
import YiQiao.Store.Faiss

/-!
# The local store is a list of entries

Index, docstore and positions of a local store are three views of one list of entries, in the order of their insertion.
As long as only new ids are inserted, the store answers every request as that list does, also after it was closed and
opened again.
-/

namespace YiQiao

open Lib

variable {V S : Type}

/-! ## Entries -/

structure FaissEntry (V : Type) where
  id : String
  vector : V
  payload : Payload

inductive FaissRequest (V : Type) where
  | insert (vectors : List V) (payloads : Option (List Payload)) (ids : List String)
  | delete (id : String)
  | update (id : String) (vector : Option V) (payload : Option Payload)
  | get (id : String)
  | list (filters : Entries) (limit : Option Int)
  | search (vector : V) (limit : Nat) (filters : Entries)
  | reset
  | reopen

inductive FaissAnswer (S : Type) where
  | done
  | row (row : Option (FaissRow S))
  | rows (rows : List (FaissRow S))

abbrev FaissReply (S : Type) := Except PyError (FaissAnswer S)

/-- The store of a new collection. -/
def FaissStore.opened : FaissStore V := (FaissStore.reopen.run blank).2

/-- What an operation answers, and what it leaves. -/
def FaissStore.perform {α : Type} (x : FaissOp V α) (answer : α → FaissAnswer S) (s : FaissStore V) :
    FaissReply S × FaissStore V := ((x.run s).1.map answer, (x.run s).2)

section

variable (E : FaissEngine V S)

/-- The store answers a request. -/
def FaissStore.step (s : FaissStore V) : FaissRequest V → FaissReply S × FaissStore V
  | .insert vectors payloads ids => s.perform (insert E vectors payloads ids) fun _ => .done
  | .delete id => s.perform (delete E id) fun _ => .done
  | .update id vector payload => s.perform (update E id vector payload) fun _ => .done
  | .get id => s.perform (get id) .row
  | .list filters limit => s.perform (list filters limit) .rows
  | .search vector limit filters => s.perform (search E vector limit filters) .rows
  | .reset => s.perform reset fun _ => .done
  | .reopen => s.perform reopen fun _ => .done

end

/-! ## What the store is for -/

namespace FaissEntry

/-- New entries, of as many ids as vectors and payloads. -/
def ofParts : List String → List V → List Payload → List (FaissEntry V)
  | id :: ids, vector :: vectors, payload :: payloads => ⟨id, vector, payload⟩ :: ofParts ids vectors payloads
  | _, _, _ => []

/-- The entries but the one with the id. -/
def without (id : String) (entries : List (FaissEntry V)) : List (FaissEntry V) := entries.filter fun e => e.id ≠ id

/-- The entries with a new payload under an id. -/
def reworded (id : String) (payload : Payload) (entries : List (FaissEntry V)) : List (FaissEntry V) :=
  entries.map fun e => if e.id = id then { e with payload := payload } else e

/-- The entries a filter admits. -/
def admitted (filters : Entries) (entries : List (FaissEntry V)) : List (FaissEntry V) :=
  entries.filter fun e => FaissStore.applyFilters e.payload filters

def row (score : Option S) (e : FaissEntry V) : FaissRow S := ⟨e.id, score, e.payload⟩

/-- What a search keeps of what it found. -/
def selected (limit : Nat) (filters : Entries) (found : List (FaissRow S)) : List (FaissRow S) :=
  if filters.isEmpty then found else (found.filter fun row => FaissStore.applyFilters row.payload filters).take limit

/-- Without a limit any entry is one too many; with one, at least one entry is listed. -/
def listed (limit : Option Int) (entries : List (FaissEntry V)) : Except PyError (List (FaissEntry V)) :=
  match limit with
  | none => if entries.isEmpty then .ok [] else .error .typeError
  | some k => .ok (entries.take (max 1 k).toNat)

variable (E : FaissEngine V S)

/-- The entries that are nearest to a vector. -/
def nearest (query : V) (fetch : Nat) (entries : List (FaissEntry V)) : Except PyError (List (FaissRow S)) := do
  let found ← E.nearest (entries.map vector) (← E.matrix [query]) fetch
  pure ((found.take fetch).filterMap fun hit => hit.1.bind fun i => entries[i]?.map (row (some (E.similarity hit.2))))

/-- The list of entries answers a request. An entry with a new vector goes to the end; if the vector does not fit, the
entry is lost. -/
def step (entries : List (FaissEntry V)) : FaissRequest V → FaissReply S × List (FaissEntry V)
  | .insert vectors payloads ids =>
      let payloads := payloads.getD (vectors.map fun _ => [])
      if vectors.length ≠ ids.length ∨ vectors.length ≠ payloads.length then
        (.error (.valueError "Vectors, payloads, and IDs must have the same length"), entries)
      else match E.matrix vectors with
        | .error e => (.error e, entries)
        | .ok added => (.ok .done, entries ++ ofParts ids added payloads)
  | .delete id => (.ok .done, without id entries)
  | .update id vector payload => match entries.find? fun e => e.id = id with
      | none => (.error (.valueError s!"Vector {id} not found"), entries)
      | some entry =>
          let payload := payload.getD entry.payload
          match vector with
          | none => (.ok .done, reworded id payload entries)
          | some vector => match E.matrix [vector] with
              | .error e => (.error e, without id entries)
              | .ok added => (.ok .done, without id entries ++ ofParts [id] added [payload])
  | .get id => (.ok (.row ((entries.find? fun e => e.id = id).map (row none))), entries)
  | .list filters limit => ((listed limit (admitted filters entries)).map fun es => .rows (es.map (row none)), entries)
  | .search vector limit filters =>
      ((nearest E vector (if filters.isEmpty then limit else limit * 2) entries).map fun found =>
        .rows (selected limit filters found), entries)
  | .reset => (.ok .done, [])
  | .reopen => (.ok .done, entries)

/-- Only new ids are inserted. -/
def Fresh (entries : List (FaissEntry V)) : FaissRequest V → Prop
  | .insert _ _ ids => (entries.map FaissEntry.id ++ ids).Nodup
  | _ => True

end FaissEntry

/-! ## The views -/

namespace FaissEntry

def docstore (entries : List (FaissEntry V)) : List (String × Payload) := entries.map fun e => (e.id, e.payload)

def positions (entries : List (FaissEntry V)) : List (Nat × String) := entries.zipIdx.map fun e => (e.2, e.1.id)

/-- The store of some entries, with whatever files. -/
def store (files : Option (FaissFiles V)) (entries : List (FaissEntry V)) : FaissStore V :=
  ⟨some (entries.map vector), docstore entries, positions entries, files⟩

/-- The store of some entries after it was saved. -/
def saved (entries : List (FaissEntry V)) : FaissStore V :=
  store (some ⟨entries.map vector, (store none entries).toJson⟩) entries

/-- The store stands for the entries. -/
structure StandsFor (s : FaissStore V) (entries : List (FaissEntry V)) : Prop where
  eq : s = saved entries
  unique : (entries.map FaissEntry.id).Nodup

variable {entries : List (FaissEntry V)} {files : Option (FaissFiles V)} {e : FaissEntry V} {id : String} {i : Nat}

theorem lookup_docstore : (docstore entries).lookup id = (entries.find? fun e => e.id = id).map FaissEntry.payload := by
  induction entries with
  | nil => rfl
  | cons e entries ih =>
    rw [docstore, List.map_cons, List.lookup_cons, List.find?_cons]
    by_cases h : e.id = id
    · simp [h]
    · have hb : (id == e.id) = false := by simpa using fun he : id = e.id => h he.symm
      simp only [hb, h, decide_false]
      exact ih

theorem mem_positions : (i, id) ∈ positions entries ↔ ∃ e, entries[i]? = some e ∧ e.id = id := by
  simp only [positions, List.mem_map, Prod.mk.injEq, Prod.exists]
  constructor
  · rintro ⟨e, j, hmem, rfl, rfl⟩
    exact ⟨e, List.mem_zipIdx_iff_getElem?.mp hmem, rfl⟩
  · rintro ⟨e, hget, rfl⟩
    exact ⟨e, i, List.mem_zipIdx_iff_getElem?.mpr hget, rfl, rfl⟩

theorem positions_keys : (positions entries).map Prod.fst = List.range entries.length := by
  rw [positions, List.map_map, List.range_eq_range']
  exact List.zipIdx_map_snd 0 entries

theorem positions_unique (entries : List (FaissEntry V)) : Dict.Unique (positions entries) := by
  rw [Dict.Unique, positions_keys]
  exact List.nodup_range

theorem lookup_positions : (positions entries).lookup i = entries[i]?.map FaissEntry.id := by
  apply Option.ext
  intro id
  rw [← Dict.mem_iff_lookup (positions_unique entries), mem_positions, Option.map_eq_some_iff]

theorem index_of_id {j : Nat} {e' : FaissEntry V} (hunique : (entries.map FaissEntry.id).Nodup)
    (hj : entries[j]? = some e') (hi : entries[i]? = some e) (hid : e'.id = e.id) : j = i := by
  have hlength : j < (entries.map FaissEntry.id).length := by
    rw [List.length_map]
    exact (List.getElem?_eq_some_iff.mp hj).1
  apply (List.getElem?_inj hlength hunique).mp
  rw [List.getElem?_map, List.getElem?_map, hj, hi]
  exact congrArg some hid

theorem find_of_get (hunique : (entries.map FaissEntry.id).Nodup) (h : entries[i]? = some e) :
    (entries.find? fun e' => e'.id = e.id) = some e := by
  cases hfind : entries.find? fun e' => e'.id = e.id with
  | none => simpa using List.find?_eq_none.mp hfind e (List.mem_of_getElem? h)
  | some e' =>
    have hid : e'.id = e.id := by simpa using List.find?_some hfind
    rw [List.inj_on_of_nodup_map hunique (List.mem_of_find?_eq_some hfind) (List.mem_of_getElem? h) hid]

/-! ## Inserting -/

theorem ofParts_views {ids : List String} {vectors : List V} {payloads : List Payload}
    (hids : vectors.length = ids.length) (hpayloads : vectors.length = payloads.length) :
    (ofParts ids vectors payloads).map FaissEntry.id = ids ∧ (ofParts ids vectors payloads).map vector = vectors ∧
      docstore (ofParts ids vectors payloads) = ids.zip payloads := by
  induction vectors generalizing ids payloads with
  | nil =>
    cases List.length_eq_zero_iff.mp hids.symm
    cases List.length_eq_zero_iff.mp hpayloads.symm
    exact ⟨rfl, rfl, rfl⟩
  | cons v vectors ih =>
    cases ids with
    | nil => cases hids
    | cons id ids =>
      cases payloads with
      | nil => cases hpayloads
      | cons payload payloads =>
        obtain ⟨hid, hvector, hdocstore⟩ := ih (Nat.succ.inj hids) (Nat.succ.inj hpayloads)
        refine ⟨congrArg (id :: ·) hid, congrArg (v :: ·) hvector, congrArg ((id, payload) :: ·) hdocstore⟩

theorem docstore_append (entries new : List (FaissEntry V)) :
    docstore (entries ++ new) = docstore entries ++ docstore new := List.map_append

theorem positions_append (entries new : List (FaissEntry V)) :
    positions (entries ++ new) = positions entries ++
      ((new.map FaissEntry.id).zipIdx (positions entries).length).map Prod.swap := by
  rw [positions, List.zipIdx_append, List.map_append, positions, List.length_map, List.length_zipIdx, List.zipIdx_map,
    List.map_map, Nat.zero_add]
  rfl

theorem docstore_keys (entries : List (FaissEntry V)) :
    (docstore entries).map Prod.fst = entries.map FaissEntry.id := by
  rw [docstore, List.map_map]
  rfl

theorem docstore_unique : Dict.Unique (docstore entries) ↔ (entries.map FaissEntry.id).Nodup := by
  rw [Dict.Unique, docstore_keys]

theorem needIndex_run :
    (FaissStore.needIndex).run (store files entries) = (.ok (entries.map vector), store files entries) := rfl

section

variable {E : FaissEngine V S} {vectors added : List V} {payloads : Option (List Payload)} {ids : List String}

theorem matrix_length (hmatrix : E.matrix vectors = .ok added) : added.length = vectors.length := by
  unfold FaissEngine.matrix at hmatrix
  split at hmatrix
  · cases hmatrix
  · cases hmatrix
    split <;> simp

/-- What is inserted has an id, a vector and a payload each. -/
theorem inserted_views {payloads : List Payload} (hmatrix : E.matrix vectors = .ok added)
    (hlengths : ¬ (vectors.length ≠ ids.length ∨ vectors.length ≠ payloads.length)) :
    (ofParts ids added payloads).map FaissEntry.id = ids ∧ (ofParts ids added payloads).map vector = added ∧
      docstore (ofParts ids added payloads) = ids.zip payloads := by
  obtain ⟨hids, hpayloads⟩ : vectors.length = ids.length ∧ vectors.length = payloads.length := by
    simpa [not_or] using hlengths
  have hlength := matrix_length hmatrix
  exact ofParts_views (hlength.trans hids) (hlength.trans hpayloads)

/-- An insertion is decided by the lengths and by the index. -/
theorem insert_run (hfresh : (entries.map FaissEntry.id ++ ids).Nodup) :
    (FaissStore.insert E vectors payloads ids).run (store files entries) =
      if vectors.length ≠ ids.length ∨ vectors.length ≠ (payloads.getD (vectors.map fun _ => [])).length then
        (.error (.valueError "Vectors, payloads, and IDs must have the same length"), store files entries)
      else match E.matrix vectors with
        | .error e => (.error e, store files entries)
        | .ok added => (.ok (), saved (entries ++ ofParts ids added (payloads.getD (vectors.map fun _ => [])))) := by
  rw [FaissStore.insert, Effect.run_bind, needIndex_run]
  dsimp only
  generalize payloads.getD (vectors.map fun _ => []) = payloads
  split
  · rfl
  · rename_i hlengths
    rw [Effect.run_bind, Effect.run_lift]
    cases hmatrix : E.matrix vectors with
    | error e => rfl
    | ok added =>
      obtain ⟨hid, hvector, hdocstore⟩ := inserted_views hmatrix hlengths
      have hdocs : Dict.update (docstore entries) (ids.zip payloads) =
          docstore (entries ++ ofParts ids added payloads) := by
        rw [docstore_append, ← hdocstore]
        apply Dict.update_of_fresh
        rw [← docstore_append, docstore_unique, List.map_append, hid]
        exact hfresh
      have hpositions : Dict.update (positions entries) ((ids.zipIdx (positions entries).length).map Prod.swap) =
          positions (entries ++ ofParts ids added payloads) := by
        rw [positions_append, hid]
        apply Dict.update_of_fresh
        have hunique := positions_unique (entries ++ ofParts ids added payloads)
        rwa [positions_append, hid] at hunique
      dsimp only
      rw [Effect.run_bind_modify]
      have hstate : FaissStore.mk (some (entries.map vector ++ added))
          (Dict.update (docstore entries) (ids.zip payloads))
          (Dict.update (positions entries) ((ids.zipIdx (positions entries).length).map Prod.swap)) files =
            store files (entries ++ ofParts ids added payloads) := by
        rw [hdocs, hpositions, store, List.map_append, hvector]
      exact congrArg FaissStore.save.run hstate

end

/-! ## Deleting -/

theorem remaining_positions (hunique : (entries.map FaissEntry.id).Nodup) (h : entries[i]? = some e) :
    FaissStore.remaining (positions entries) i =
      (entries.zipIdx.filter fun x => x.1.id ≠ e.id).map fun x => (x.2, x.1.id) := by
  have hsorted : (positions entries).Pairwise fun a b => a.1 ≤ b.1 := by
    have hkeys : ((positions entries).map Prod.fst).Pairwise (· ≤ ·) := by
      rw [positions_keys]
      exact List.pairwise_le_range
    exact List.pairwise_map.mp hkeys
  rw [FaissStore.remaining, ranked, hsorted.insertionSort_eq, positions, List.filter_map]
  congr 1
  apply List.filter_congr
  rintro ⟨e', j⟩ hmem
  have hget : entries[j]? = some e' := List.mem_zipIdx_iff_getElem?.mp hmem
  have hiff : j = i ↔ e'.id = e.id := by
    constructor
    · rintro rfl
      cases hget.symm.trans h
      rfl
    · intro hid
      exact index_of_id hunique hget h hid
  simp [hiff]

theorem zipIdx_without (id : String) (entries : List (FaissEntry V)) :
    (entries.zipIdx.filter fun x => x.1.id ≠ id).map Prod.fst = without id entries := by
  rw [without, ← List.zipIdx_map_fst 0 entries, List.filter_map, List.zipIdx_map_fst]
  rfl

theorem find_positions (h : id ∈ entries.map FaissEntry.id) :
    ∃ i e, ((positions entries).find? fun p => p.2 = id) = some (i, id) ∧ entries[i]? = some e ∧ e.id = id := by
  cases hfind : (positions entries).find? fun p => p.2 = id with
  | none =>
    obtain ⟨e, he, rfl⟩ := List.mem_map.mp h
    obtain ⟨i, hi⟩ := List.getElem?_of_mem he
    simpa using List.find?_eq_none.mp hfind (i, e.id) (mem_positions.mpr ⟨e, hi, rfl⟩)
  | some position =>
    obtain ⟨i, id'⟩ := position
    have hid : id' = id := by simpa using List.find?_some hfind
    subst hid
    obtain ⟨e, he⟩ := mem_positions.mp (List.mem_of_find?_eq_some hfind)
    exact ⟨i, e, rfl, he⟩

theorem delete_missing {E : FaissEngine V S} (h : id ∉ entries.map FaissEntry.id) :
    (FaissStore.delete E id).run (store files entries) = (.ok (), store files entries) := by
  have hfind : ((store files entries).indexToId.find? fun e => e.2 = id) = none := by
    rw [List.find?_eq_none]
    rintro ⟨i, id'⟩ hmem hid
    obtain ⟨e, he, rfl⟩ := mem_positions.mp hmem
    exact h (List.mem_map.mpr ⟨e, List.mem_of_getElem? he, by simpa using hid⟩)
  rw [FaissStore.delete, Effect.run_bind, needIndex_run]
  dsimp only
  rw [Effect.run_bind_read, hfind]
  rfl

/-- A deletion takes the entry out of all three views. -/
theorem delete_run {E : FaissEngine V S} (hunique : (entries.map FaissEntry.id).Nodup)
    (h : id ∈ entries.map FaissEntry.id) :
    (FaissStore.delete E id).run (store files entries) = (.ok (), saved (without id entries)) := by
  obtain ⟨i, e, hfind, hget, rfl⟩ := find_positions h
  rw [FaissStore.delete, Effect.run_bind, needIndex_run]
  dsimp only
  have hposition : ((store files entries).indexToId.find? fun p => p.2 = e.id) = some (i, e.id) := hfind
  rw [Effect.run_bind_read, hposition]
  dsimp only
  have hrest : FaissStore.remaining (store files entries).indexToId i =
      (entries.zipIdx.filter fun x => x.1.id ≠ e.id).map fun x => (x.2, x.1.id) := remaining_positions hunique hget
  rw [hrest]
  have hvectors : ((entries.zipIdx.filter fun x => x.1.id ≠ e.id).map fun x => (x.2, x.1.id)).mapM
      (fun x => FaissStore.reconstruct E (entries.map vector) x.1) = .ok ((without e.id entries).map vector) := by
    rw [List.mapM_map, ← zipIdx_without, List.map_map]
    apply Fallible.mapM_eq_map
    rintro ⟨e', j⟩ hmem
    have hget' : entries[j]? = some e' := List.mem_zipIdx_iff_getElem?.mp (List.mem_of_mem_filter hmem)
    simp [FaissStore.reconstruct, hget']
  rw [Effect.run_bind, Effect.run_lift, hvectors]
  dsimp only
  rw [Effect.run_bind_modify]
  have hpositions : ((entries.zipIdx.filter fun x => x.1.id ≠ e.id).map fun x => (x.2, x.1.id)).zipIdx.map
      (fun x => (x.2, x.1.2)) = positions (without e.id entries) := by
    rw [positions, ← zipIdx_without, List.zipIdx_map, List.zipIdx_map, List.map_map, List.map_map]
    rfl
  have hdocs : Dict.erase e.id (docstore entries) = docstore (without e.id entries) := by
    rw [Dict.erase, docstore, List.filter_map]
    rfl
  have hstate : FaissStore.mk (some ((without e.id entries).map vector)) (Dict.erase e.id (docstore entries))
      (((entries.zipIdx.filter fun x => x.1.id ≠ e.id).map fun x => (x.2, x.1.id)).zipIdx.map fun x => (x.2, x.1.2))
        files = store files (without e.id entries) := by
    rw [hpositions, hdocs, store]
  exact congrArg FaissStore.save.run hstate

theorem without_unique (hunique : (entries.map FaissEntry.id).Nodup) : ((without id entries).map FaissEntry.id).Nodup :=
  hunique.sublist (List.filter_sublist.map _)

theorem fresh_after_without (hunique : (entries.map FaissEntry.id).Nodup) :
    ((without id entries).map FaissEntry.id ++ [id]).Nodup := by
  rw [List.nodup_append]
  refine ⟨without_unique hunique, List.nodup_singleton _, ?_⟩
  rintro id' hid' _ hlast rfl
  cases List.mem_singleton.mp hlast
  obtain ⟨e, he, hsame⟩ := List.mem_map.mp hid'
  simpa [hsame] using (List.mem_filter.mp he).2

theorem without_of_absent (h : id ∉ entries.map FaissEntry.id) : without id entries = entries := by
  refine List.filter_eq_self.mpr fun e he => ?_
  have hid : e.id ≠ id := by
    rintro rfl
    exact h (List.mem_map_of_mem he)
  simpa using hid

/-! ## Updating -/

section

variable {payload : Payload}

theorem reworded_ids : (reworded id payload entries).map FaissEntry.id = entries.map FaissEntry.id := by
  rw [reworded, List.map_map]
  refine List.map_congr_left fun e _ => ?_
  by_cases h : e.id = id <;> simp [h]

theorem reworded_vectors : (reworded id payload entries).map vector = entries.map vector := by
  rw [reworded, List.map_map]
  refine List.map_congr_left fun e _ => ?_
  by_cases h : e.id = id <;> simp [h]

theorem positions_of_ids {other : List (FaissEntry V)} (h : other.map FaissEntry.id = entries.map FaissEntry.id) :
    positions other = positions entries := by
  have hpositions : ∀ es : List (FaissEntry V),
      positions es = (es.map FaissEntry.id).zipIdx.map fun x => (x.2, x.1) := by
    intro es
    rw [positions, List.zipIdx_map, List.map_map]
    rfl
  rw [hpositions, hpositions, h]

theorem without_reworded : without id (reworded id payload entries) = without id entries := by
  induction entries with
  | nil => rfl
  | cons e entries ih =>
    simp only [without, reworded, ne_eq, decide_not] at ih
    by_cases h : e.id = id <;> simp [without, reworded, h, ih]

/-- A payload in the docstore is a payload of the entries. -/
theorem set_docstore (hunique : (entries.map FaissEntry.id).Nodup) (h : id ∈ entries.map FaissEntry.id) :
    Dict.set id payload (docstore entries) = docstore (reworded id payload entries) := by
  have hkey : id ∈ (docstore entries).map Prod.fst := by rwa [docstore_keys]
  rw [Dict.set_of_mem (docstore_unique.mpr hunique) hkey, docstore, docstore, reworded, List.map_map, List.map_map]
  refine List.map_congr_left fun e _ => ?_
  by_cases hid : e.id = id <;> simp [hid]

theorem reworded_same (hunique : (entries.map FaissEntry.id).Nodup) (h : e ∈ entries) :
    reworded e.id e.payload entries = entries := by
  have hsame : ∀ e' ∈ entries, (if e'.id = e.id then { e' with payload := e.payload } else e') = e' := by
    intro e' he'
    split
    · rename_i hid
      cases List.inj_on_of_nodup_map hunique he' h hid
      rfl
    · rfl
  rw [reworded, List.map_congr_left hsame, List.map_id']

end

/-- What `update` has done before it looks at the vector. -/
theorem putPayload_store {payload : Option Payload} (hunique : (entries.map FaissEntry.id).Nodup) (h : e ∈ entries) :
    FaissStore.putPayload e.id payload (store files entries) =
      store files (reworded e.id (payload.getD e.payload) entries) := by
  cases payload with
  | none => rw [Option.getD_none, reworded_same hunique h, FaissStore.putPayload]
  | some payload =>
    have hdocs : Dict.set e.id payload (docstore entries) = docstore (reworded e.id payload entries) :=
      set_docstore hunique (List.mem_map_of_mem h)
    rw [Option.getD_some, store, store, reworded_vectors, positions_of_ids reworded_ids, ← hdocs]
    rfl

theorem update_missing {E : FaissEngine V S} {vector : Option V} {payload : Option Payload}
    (h : (entries.find? fun e => e.id = id) = none) :
    (FaissStore.update E id vector payload).run (store files entries) =
      (.error (.valueError s!"Vector {id} not found"), store files entries) := by
  have hlookup : (store files entries).docstore.lookup id = none := by
    show (docstore entries).lookup id = none
    rw [lookup_docstore, h, Option.map_none]
  rw [FaissStore.update, Effect.run_bind, needIndex_run]
  dsimp only
  rw [Effect.run_bind_read, hlookup]
  rfl

theorem update_found {E : FaissEngine V S} {vector : Option V} {payload : Option Payload}
    (hunique : (entries.map FaissEntry.id).Nodup) (h : (entries.find? fun e => e.id = id) = some e) :
    (FaissStore.update E id vector payload).run (store files entries) = match vector with
      | none => (.ok (), saved (reworded id (payload.getD e.payload) entries))
      | some vector => match E.matrix [vector] with
        | .error e => (.error e, saved (without id entries))
        | .ok added => (.ok (), saved (without id entries ++ ofParts [id] added [payload.getD e.payload])) := by
  have he : e ∈ entries := List.mem_of_find?_eq_some h
  have hid : e.id = id := by simpa using List.find?_some h
  subst hid
  have hlookup : (store files entries).docstore.lookup e.id = some e.payload := by
    show (docstore entries).lookup e.id = some e.payload
    rw [lookup_docstore, h, Option.map_some]
  rw [FaissStore.update, Effect.run_bind, needIndex_run]
  dsimp only
  rw [Effect.run_bind_read, hlookup]
  dsimp only
  rw [Effect.run_bind_modify, putPayload_store hunique he]
  cases vector with
  | none => rfl
  | some vector =>
    have hreworded : ((reworded e.id (payload.getD e.payload) entries).map FaissEntry.id).Nodup := by rwa [reworded_ids]
    have hmem : e.id ∈ (reworded e.id (payload.getD e.payload) entries).map FaissEntry.id := by
      rw [reworded_ids]
      exact List.mem_map_of_mem he
    dsimp only
    rw [Effect.run_bind, delete_run hreworded hmem, without_reworded]
    dsimp only
    rw [saved, insert_run (fresh_after_without hunique)]
    rfl

/-! ## Files -/

theorem readDocstore_toJson (docs : List (String × Payload)) :
    FaissStore.readDocstore (docs.map fun e => (e.1, .dict e.2)) = some docs := by
  rw [FaissStore.readDocstore, Fallible.mapM_some, List.forall₂_map_left_iff, List.forall₂_same]
  intro e _
  rfl

theorem readIndex_repr (i : Nat) : FaissStore.readIndex i.repr = some i := by
  have hdigits : ∀ c ∈ Nat.toDigits 10 i, c.isDigit = true :=
    fun _ hc => Nat.isDigit_of_mem_toDigits (by simp) (by simp) hc
  simpa [FaissStore.readIndex] using hdigits

theorem readPositions_toJson (places : List (Nat × String)) :
    FaissStore.readPositions (places.map fun e => (e.1.repr, .str e.2)) = some places := by
  rw [FaissStore.readPositions, Fallible.mapM_some, List.forall₂_map_left_iff, List.forall₂_same]
  rintro ⟨i, id⟩ _
  simp [readIndex_repr]

/-- What was written is read again. -/
theorem readJson_toJson (s : FaissStore V) : FaissStore.readJson s.toJson = some (s.docstore, s.indexToId) := by
  have hdocs := readDocstore_toJson s.docstore
  have hplaces := readPositions_toJson s.indexToId
  simp [FaissStore.toJson, FaissStore.readJson, List.lookup_cons, hdocs, hplaces]

theorem reopen_run : (FaissStore.reopen).run (saved entries) = (.ok (), saved entries) := by
  have hread : FaissStore.readJson (store none entries).toJson = some (docstore entries, positions entries) :=
    readJson_toJson _
  have hfiles : (saved entries).files = some ⟨entries.map vector, (store none entries).toJson⟩ := rfl
  rw [FaissStore.reopen, Effect.run_bind_read, hfiles]
  dsimp only
  rw [hread]
  rfl

/-! ## Reading -/

theorem admitted_docstore (filters : Entries) :
    (docstore entries).filter (fun e => FaissStore.applyFilters e.2 filters) = docstore (admitted filters entries) := by
  rw [docstore, List.filter_map]
  rfl

theorem listFrom_some {α : Type} (k : Int) (count : Nat) (rows : List α) :
    FaissStore.listFrom (some k) count rows = .ok (rows.take (max 1 (k - count)).toNat) := by
  induction rows generalizing count with
  | nil => rw [List.take_nil]; rfl
  | cons row rows ih =>
    rw [FaissStore.listFrom]
    split
    · have hone : (max 1 (k - count)).toNat = 1 := by omega
      rw [hone]
      rfl
    · have hmore : (max 1 (k - count)).toNat = (max 1 (k - (count + 1 : Nat))).toNat + 1 := by omega
      rw [ih, hmore, List.take_succ_cons]
      rfl

theorem list_run {S : Type} {filters : Entries} {limit : Option Int} :
    (FaissStore.list filters limit : FaissOp V (List (FaissRow S))).run (store files entries) =
      ((listed limit (admitted filters entries)).map (List.map (row none)), store files entries) := by
  have hindex : (store files entries).index = some (entries.map vector) := rfl
  rw [FaissStore.list, Effect.run_bind_read, hindex]
  dsimp only
  rw [Effect.run_bind_read, Effect.run_bind, Effect.run_lift]
  have hrows : ((store files entries).docstore.filter fun e => FaissStore.applyFilters e.2 filters) =
      docstore (admitted filters entries) := admitted_docstore filters
  rw [hrows]
  generalize admitted filters entries = admitted
  cases limit with
  | none => cases admitted <;> rfl
  | some k =>
    rw [listFrom_some]
    simp [listed, docstore, ← List.map_take, Except.map, row]

section

variable {E : FaissEngine V S}

theorem parseOutput_store (hunique : (entries.map FaissEntry.id).Nodup) (found : List (Option Nat × S)) (limit : Nat) :
    FaissStore.parseOutput E (store files entries) found limit = (found.take limit).filterMap fun hit =>
      hit.1.bind fun i => entries[i]?.map (row (some (E.similarity hit.2))) := by
  rw [FaissStore.parseOutput]
  apply List.filterMap_congr
  rintro ⟨position, raw⟩ _
  cases position with
  | none => rfl
  | some i =>
    show ((positions entries).lookup i).bind (fun id => ((docstore entries).lookup id).bind fun payload =>
      some ⟨id, some (E.similarity raw), payload⟩) = entries[i]?.map (row (some (E.similarity raw)))
    rw [lookup_positions]
    cases hget : entries[i]? with
    | none => rfl
    | some e =>
      show ((docstore entries).lookup e.id).bind _ = _
      rw [lookup_docstore, find_of_get hunique hget]
      rfl

/-- A search finds the entries that are nearest. -/
theorem search_run {query : V} {limit : Nat} {filters : Entries} (hunique : (entries.map FaissEntry.id).Nodup) :
    (FaissStore.search E query limit filters).run (store files entries) =
      ((nearest E query (if filters.isEmpty then limit else limit * 2) entries).map (selected limit filters),
        store files entries) := by
  rw [FaissStore.search, Effect.run_bind, needIndex_run]
  dsimp only
  generalize (if filters.isEmpty then limit else limit * 2) = fetch
  rw [nearest, Effect.run_bind, Effect.run_lift]
  cases E.matrix [query] with
  | error e => rfl
  | ok query =>
    dsimp only
    rw [Effect.run_bind, Effect.run_lift]
    show _ = (Except.map _ (E.nearest (entries.map vector) query fetch >>= _), _)
    cases E.nearest (entries.map vector) query fetch with
    | error e => rfl
    | ok found =>
      dsimp only
      rw [Effect.run_bind_read, parseOutput_store hunique]
      dsimp only [Except.map, selected]
      split <;> rfl

/-! ## The refinement -/

theorem stands_opened : StandsFor (FaissStore.opened : FaissStore V) [] := ⟨rfl, List.nodup_nil⟩

/-- To this request the store of the entries answers as they do. -/
def Simulates (E : FaissEngine V S) (request : FaissRequest V) (entries : List (FaissEntry V)) : Prop :=
  (FaissStore.step E (saved entries) request).1 = (FaissEntry.step E entries request).1 ∧
    StandsFor (FaissStore.step E (saved entries) request).2 (FaissEntry.step E entries request).2

theorem insert_refines {vectors : List V} {payloads : Option (List Payload)} {ids : List String}
    (hunique : (entries.map FaissEntry.id).Nodup) (hfresh : (entries.map FaissEntry.id ++ ids).Nodup) :
    Simulates E (.insert vectors payloads ids) entries := by
  have hrun : (FaissStore.insert E vectors payloads ids).run (saved entries) = _ := insert_run hfresh
  rw [Simulates, FaissStore.step, FaissStore.perform, hrun]
  simp only [FaissEntry.step]
  generalize payloads.getD (vectors.map fun _ => []) = payloads
  split
  · exact ⟨rfl, rfl, hunique⟩
  · rename_i hlengths
    cases hmatrix : E.matrix vectors with
    | error e => exact ⟨rfl, rfl, hunique⟩
    | ok added =>
      refine ⟨rfl, rfl, ?_⟩
      rw [List.map_append, (inserted_views hmatrix hlengths).1]
      exact hfresh

theorem delete_refines (hunique : (entries.map FaissEntry.id).Nodup) : Simulates E (.delete id) entries := by
  by_cases hid : id ∈ entries.map FaissEntry.id
  · have hrun : (FaissStore.delete E id).run (saved entries) = _ := delete_run hunique hid
    rw [Simulates, FaissStore.step, FaissStore.perform, hrun]
    exact ⟨rfl, rfl, without_unique hunique⟩
  · have hrun : (FaissStore.delete E id).run (saved entries) = _ := delete_missing hid
    rw [Simulates, FaissStore.step, FaissStore.perform, hrun]
    simp only [FaissEntry.step, without_of_absent hid]
    exact ⟨rfl, rfl, hunique⟩

theorem update_refines {query : Option V} {payload : Option Payload} (hunique : (entries.map FaissEntry.id).Nodup) :
    Simulates E (.update id query payload) entries := by
  cases hfind : entries.find? fun e => e.id = id with
  | none =>
    have hrun : (FaissStore.update E id query payload).run (saved entries) = _ := update_missing hfind
    rw [Simulates, FaissStore.step, FaissStore.perform, hrun]
    simp only [FaissEntry.step, hfind]
    exact ⟨rfl, rfl, hunique⟩
  | some e =>
    have hrun : (FaissStore.update E id query payload).run (saved entries) = _ := update_found hunique hfind
    rw [Simulates, FaissStore.step, FaissStore.perform, hrun]
    simp only [FaissEntry.step, hfind]
    cases query with
    | none => exact ⟨rfl, rfl, reworded_ids.symm ▸ hunique⟩
    | some query =>
      dsimp only
      cases hmatrix : E.matrix [query] with
      | error e => exact ⟨rfl, rfl, without_unique hunique⟩
      | ok added =>
        obtain ⟨v, rfl⟩ := List.length_eq_one_iff.mp (matrix_length hmatrix)
        refine ⟨rfl, rfl, ?_⟩
        rw [List.map_append]
        exact fresh_after_without hunique

theorem get_refines (hunique : (entries.map FaissEntry.id).Nodup) : Simulates E (.get id) entries := by
  have hlookup : (docstore entries).lookup id = (entries.find? fun e => e.id = id).map FaissEntry.payload :=
    lookup_docstore
  rw [Simulates]
  refine ⟨?_, rfl, hunique⟩
  show Except.ok (FaissAnswer.row (((docstore entries).lookup id).map fun payload => ⟨id, none, payload⟩)) = _
  rw [hlookup]
  cases hfind : entries.find? fun e => e.id = id with
  | none => simp only [FaissEntry.step, hfind, Option.map_none]
  | some e =>
    have hid : e.id = id := by simpa using List.find?_some hfind
    simp only [FaissEntry.step, hfind, Option.map_some, row, hid]

/-- The store answers as the list of its entries does. -/
theorem step_refines : Refines (FaissStore.step E) (FaissEntry.step E) Fresh StandsFor := by
  rintro s entries request ⟨rfl, hunique⟩ hfresh
  cases request with
  | insert vectors payloads ids => exact insert_refines hunique hfresh
  | delete id => exact delete_refines hunique
  | update id query payload => exact update_refines hunique
  | get id => exact get_refines hunique
  | list filters limit =>
    have hrun : (FaissStore.list filters limit : FaissOp V (List (FaissRow S))).run (saved entries) = _ := list_run
    rw [FaissStore.step, FaissStore.perform, hrun]
    refine ⟨?_, rfl, hunique⟩
    simp only [FaissEntry.step]
    cases listed limit (admitted filters entries) <;> rfl
  | search query limit filters =>
    have hrun : (FaissStore.search E query limit filters).run (saved entries) = _ := search_run hunique
    rw [FaissStore.step, FaissStore.perform, hrun]
    refine ⟨?_, rfl, hunique⟩
    simp only [FaissEntry.step]
    cases nearest E query (if filters.isEmpty then limit else limit * 2) entries <;> rfl
  | reset => exact ⟨rfl, rfl, List.nodup_nil⟩
  | reopen =>
    rw [FaissStore.step, FaissStore.perform, reopen_run]
    exact ⟨rfl, rfl, hunique⟩

end

/-- Vectors of one dimension with their products, as a flat index finds them. -/
def lineEngine : FaissEngine Nat Nat where
  strategy := .innerProduct
  normalizeL2 := false
  fits _ := true
  normalized v := v
  nearest index query fetch := .ok (query.flatMap fun q =>
    topK (fun a b => b.2 ≤ a.2) fetch (index.zipIdx.map fun v => (some v.2, v.1 * q)) ++
      List.replicate (fetch - index.length) (none, 0))
  closeness raw := 1 / (1 + raw)
  fault := .valueError "not enough values to unpack (expected 2, got 1)"

def lineRequests : List (FaissRequest Nat) :=
  [.insert [3, 5] none ["milk", "tea"], .update "milk" (some 7) none, .delete "tea", .reopen, .search 2 1 [],
    .insert [4] none ["tea"]]

end FaissEntry

end YiQiao
