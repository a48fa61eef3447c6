import Mathlib.Algebra.Field.Rat
import Mathlib.Algebra.Order.Ring.Unbundled.Rat
import YiQiao.Filter.Conditions
import YiQiao.Lib.Fallible
import YiQiao.Lib.TopK

/-!
# The PGVector store

A collection is a table of rows with a UUID, an embedding that may be NULL, and a `jsonb` payload.
Every statement runs in a transaction of its own. Rows stand in table order, and an `ORDER BY` keeps
that order among ties.
-/

namespace YiQiao

open Lib Filters

variable {V S : Type}

/-- Scores are ordered, and their operations obey no other law, as in floating point. -/
class Score (S : Type) extends LinearOrder S, Zero S, One S, Add S, Sub S, Mul S, Div S where
  zero_le_one : (0 : S) ≤ 1

instance : Score ℚ where
  zero_le_one := by decide

structure Row (V : Type) where
  id : String
  vector : Option V
  payload : Payload

/-- A collection: the primary key is unique, and no UUID is the empty text. -/
structure Table (V : Type) where
  rows : List (Row V)
  unique : (rows.map Row.id).Nodup
  named : ∀ row ∈ rows, row.id ≠ ""

/-- A row as a ranked query returns it. -/
structure Hit (V S : Type) where
  row : Row V
  score : S

namespace Table

def empty : Table V := ⟨[], List.nodup_nil, by simp⟩

/-! ## Writing -/

/-- `INSERT`, all rows or none. -/
def insert (t : Table V) (rows : List (Row V)) : Except PyError (Table V) :=
  if h : ((t.rows ++ rows).map Row.id).Nodup ∧ ∀ row ∈ t.rows ++ rows, row.id ≠ "" then
    .ok ⟨t.rows ++ rows, h.1, h.2⟩
  else .error .databaseError

def get (t : Table V) (id : String) : Option (Row V) := t.rows.find? fun row => row.id = id

def delete (t : Table V) (id : String) : Table V where
  rows := t.rows.filter fun row => row.id ≠ id
  unique := t.unique.sublist (List.filter_sublist.map _)
  named := fun row hrow => t.named row (List.mem_of_mem_filter hrow)

theorem rows_insert {t t' : Table V} {rows : List (Row V)} (h : t.insert rows = .ok t') :
    t'.rows = t.rows ++ rows := by
  unfold insert at h
  split at h
  · cases h
    rfl
  · cases h

/-- A row is named in a selection of its table exactly when it was selected. -/
theorem id_mem_filter {t : Table V} {p : Row V → Bool} {row : Row V} (h : row ∈ t.rows) :
    row.id ∈ (t.rows.filter p).map Row.id ↔ p row = true := by
  constructor
  · intro hid
    obtain ⟨row', hrow', hid⟩ := List.mem_map.mp hid
    obtain ⟨hmem, hp⟩ := List.mem_filter.mp hrow'
    rwa [← List.inj_on_of_nodup_map t.unique hmem h hid]
  · exact fun hp => List.mem_map_of_mem (List.mem_filter.mpr ⟨h, hp⟩)

theorem get_of_mem (t : Table V) {row : Row V} (h : row ∈ t.rows) : t.get row.id = some row := by
  obtain ⟨row', hget⟩ : ∃ row', t.get row.id = some row' := by
    refine Option.ne_none_iff_exists'.mp fun hnone => ?_
    simpa using List.find?_eq_none.mp hnone row h
  have hid : row'.id = row.id := by simpa using List.find?_some hget
  rw [hget, List.inj_on_of_nodup_map t.unique (List.mem_of_find?_eq_some hget) h hid]

theorem rows_delete (t : Table V) (id : String) :
    (t.delete id).rows = t.rows.filter fun row => row.id ≠ id := rfl

/-- `payload.get("embedding_status") == "pending"`. -/
def isPending (payload : Payload) : Bool :=
  match payload.lookup "embedding_status" with
  | some (.str s) => s == "pending"
  | _ => false

/-- The columns after `PGVector.update`: without a new vector, a pending payload clears the old one. -/
def updateRow (vector : Option V) (payload : Option Payload) (row : Row V) : Row V where
  id := row.id
  vector := match vector, payload with
    | some v, _ => some v
    | none, some p => if isPending p then none else row.vector
    | none, none => row.vector
  payload := payload.getD row.payload

/-- One row rewritten in place. -/
def modify (t : Table V) (id : String) (f : Row V → Row V) (hf : ∀ row, (f row).id = row.id) :
    Table V where
  rows := t.rows.map fun row => if row.id = id then f row else row
  unique := by
    have hid : (t.rows.map fun row => if row.id = id then f row else row).map Row.id =
        t.rows.map Row.id := by
      rw [List.map_map]
      refine List.map_congr_left fun row _ => ?_
      by_cases h : row.id = id <;> simp [h, hf]
    exact hid ▸ t.unique
  named := by
    intro row hrow
    obtain ⟨old, hold, rfl⟩ := List.mem_map.mp hrow
    by_cases h : old.id = id
    · simpa [h, hf] using fun he => t.named old hold (h.trans he)
    · simpa [h] using t.named old hold

def update (t : Table V) (id : String) (vector : Option V) (payload : Option Payload) : Table V :=
  t.modify id (updateRow vector payload) fun _ => rfl

theorem rows_update (t : Table V) (id : String) (vector : Option V) (payload : Option Payload) :
    (t.update id vector payload).rows =
      t.rows.map fun row => if row.id = id then updateRow vector payload row else row := rfl

theorem ids_update (t : Table V) (id : String) (vector : Option V) (payload : Option Payload) :
    (t.update id vector payload).rows.map Row.id = t.rows.map Row.id := by
  rw [rows_update, List.map_map]
  refine List.map_congr_left fun row _ => ?_
  by_cases h : row.id = id <;> simp [h, updateRow]

theorem get_mem {t : Table V} {id : String} {row : Row V} (h : t.get id = some row) :
    row ∈ t.rows ∧ row.id = id :=
  ⟨List.mem_of_find?_eq_some h, by simpa using List.find?_some h⟩

/-- Rows of one id are one row. -/
theorem eq_of_id {t : Table V} {row row' : Row V} (h : row ∈ t.rows) (h' : row' ∈ t.rows)
    (hid : row.id = row'.id) : row = row' := List.inj_on_of_nodup_map t.unique h h' hid

/-! ## Reading -/

/-- The rows a `WHERE` clause admits. A failing cast fails the statement. -/
def select (P : Platform) (filters : Entries) (rows : List (Row V)) : Except PyError (List (Row V)) := do
  let conds ← buildFilterConditions P filters
  if rows.any fun row => (Kleene.Expr.atomsList conds).any (Test.fails P row.payload) then
    .error .databaseError
  else pure (rows.filter fun row => selects P conds row.payload)

def list (P : Platform) (t : Table V) (filters : Entries) (limit : Nat) :
    Except PyError (List (Row V)) := do
  let rows ← select P filters t.rows
  pure (rows.take limit)

/-- The rows with a vector, nearest first. -/
def search [Score S] (P : Platform) (distance : V → V → S) (t : Table V) (vector : V)
    (limit : Nat) (filters : Entries) : Except PyError (List (Hit V S)) := do
  let rows ← select P filters (t.rows.filter fun row => row.vector.isSome)
  let measured := rows.filterMap fun row => row.vector.map fun v => (row, distance v vector)
  pure ((topK (fun a b => a.2 ≤ b.2) limit measured).map fun m => ⟨m.1, max 0 (1 - m.2)⟩)

/-- The rank of a row whose lemmatized text matches. -/
def textMatch (P : Platform) (textRank : String → String → Option S) (query : String) (row : Row V) :
    Option S :=
  (row.payload.text P "text_lemmatized").bind (textRank query)

/-- The rows whose lemmatized text matches, best first; `none` when the statement fails. -/
def keywordSearch [Score S] (P : Platform) (textRank : String → String → Option S) (t : Table V) (query : String)
    (limit : Nat) (filters : Entries) : Option (List (Hit V S)) :=
  match select P filters (t.rows.filter fun row => (textMatch P textRank query row).isSome) with
  | .error _ => none
  | .ok rows =>
      some (topK (fun a b => b.score ≤ a.score) limit
        (rows.filterMap fun row => (textMatch P textRank query row).map fun score => ⟨row, score⟩))

/-! ## What a query returns -/

variable {P : Platform} {filters : Entries} {t : Table V}

theorem mem_select {rows out : List (Row V)} (h : select P filters rows = .ok out) {row : Row V}
    (hrow : row ∈ out) :
    row ∈ rows ∧ ∃ conds, buildFilterConditions P filters = .ok conds ∧
      selects P conds row.payload = true := by
  simp only [select, Fallible.bind_ok] at h
  obtain ⟨conds, hconds, h⟩ := h
  split at h
  · cases h
  · rw [Fallible.pure_ok] at h
    rw [← h, List.mem_filter] at hrow
    exact ⟨hrow.1, conds, hconds, hrow.2⟩

/-- A row that a ranked or listed answer over `filters` may contain. -/
def Admits (P : Platform) (t : Table V) (filters : Entries) (row : Row V) : Prop :=
  row ∈ t.rows ∧ ∃ conds, buildFilterConditions P filters = .ok conds ∧
    selects P conds row.payload = true

theorem select_builds {rows out : List (Row V)} (h : select P filters rows = .ok out) :
    ∃ conds, buildFilterConditions P filters = .ok conds := by
  simp only [select, Fallible.bind_ok] at h
  obtain ⟨conds, hconds, _⟩ := h
  exact ⟨conds, hconds⟩

theorem select_sublist {rows out : List (Row V)} (h : select P filters rows = .ok out) :
    out.Sublist rows := by
  simp only [select, Fallible.bind_ok] at h
  obtain ⟨conds, _, h⟩ := h
  split at h
  · cases h
  · rw [Fallible.pure_ok] at h
    exact h ▸ List.filter_sublist

theorem list_nodup {limit : Nat} {out : List (Row V)} (h : t.list P filters limit = .ok out) :
    (out.map Row.id).Nodup := by
  simp only [list, Fallible.bind_ok, Fallible.pure_ok] at h
  obtain ⟨rows, hrows, rfl⟩ := h
  exact t.unique.sublist (((List.take_sublist _ _).trans (select_sublist hrows)).map _)

theorem mem_list {limit : Nat} {out : List (Row V)} (h : t.list P filters limit = .ok out)
    {row : Row V} (hrow : row ∈ out) : t.Admits P filters row := by
  simp only [list, Fallible.bind_ok, Fallible.pure_ok] at h
  obtain ⟨rows, hrows, rfl⟩ := h
  exact mem_select hrows (List.mem_of_mem_take hrow)

theorem mem_search [Score S] {distance : V → V → S} {vector : V} {limit : Nat}
    {out : List (Hit V S)} (h : t.search P distance vector limit filters = .ok out) {hit : Hit V S}
    (hhit : hit ∈ out) : t.Admits P filters hit.row := by
  simp only [search, Fallible.bind_ok, Fallible.pure_ok] at h
  obtain ⟨rows, hrows, rfl⟩ := h
  obtain ⟨m, hm, rfl⟩ := List.mem_map.mp hhit
  obtain ⟨row, hrow, hmap⟩ := List.mem_filterMap.mp (mem_of_mem_topK hm)
  obtain ⟨v, _, rfl⟩ := Option.map_eq_some_iff.mp hmap
  obtain ⟨hmem, hsel⟩ := mem_select hrows hrow
  exact ⟨List.mem_of_mem_filter hmem, hsel⟩

theorem mem_keywordSearch [Score S] {textRank : String → String → Option S} {query : String} {limit : Nat}
    {out : List (Hit V S)} (h : t.keywordSearch P textRank query limit filters = some out)
    {hit : Hit V S} (hhit : hit ∈ out) : t.Admits P filters hit.row := by
  unfold keywordSearch at h
  split at h
  · cases h
  · rename_i rows hrows
    cases h
    obtain ⟨row, hrow, hmap⟩ := List.mem_filterMap.mp (mem_of_mem_topK hhit)
    obtain ⟨score, _, rfl⟩ := Option.map_eq_some_iff.mp hmap
    obtain ⟨hmem, hsel⟩ := mem_select hrows hrow
    exact ⟨List.mem_of_mem_filter hmem, hsel⟩

end Table

end YiQiao
