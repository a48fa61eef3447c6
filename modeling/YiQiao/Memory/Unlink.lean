import YiQiao.Memory.Write

/-!
# Unlinking memories

What becomes of each entity record when memories go one after another. A record goes with the last memory it links,
unless it could not be rewritten when an earlier one went.
-/

namespace YiQiao

open Lib Filters

variable {V S : Type} {P : Platform} {O : Providers V}

/-! ## One record -/

/-- The record after `relinkEntity`. -/
def relinkRow (O : Providers V) (remaining : List Value) (row : Row V) : Row V :=
  match row.payload.lookup "data" with
  | some (.str text) =>
      if text = "" then row
      else match O.embed .update text with
        | none => row
        | some v => Table.updateRow (some v) (some (Dict.set "linked_memory_ids" (.list remaining) row.payload)) row
  | _ => row

/-- The record after `unlinkEntity`, if it is still there. -/
def unlinkRow (O : Providers V) (memoryId : String) (row : Row V) : Option (Row V) :=
  match linkedIds row.payload with
  | some linked =>
      let remaining := linked.filter fun v => !v.isText memoryId
      if linked.any (Value.isText memoryId) then
        if remaining.isEmpty then none else some (relinkRow O remaining row)
      else some row
  | none => some row

/-- The record has a text that can be embedded. -/
def relinkable (O : Providers V) (row : Row V) : Bool :=
  match row.payload.lookup "data" with
  | some (.str text) => text ≠ "" && (O.embed .update text).isSome
  | _ => false

theorem relinkRow_of_relinkable {row : Row V} {remaining : List Value} (h : relinkable O row = true) :
    ∃ v, relinkRow O remaining row =
      ⟨row.id, some v, Dict.set "linked_memory_ids" (.list remaining) row.payload⟩ := by
  unfold relinkable at h
  unfold relinkRow
  split at h
  · rename_i text hdata
    rw [Bool.and_eq_true, decide_eq_true_eq] at h
    obtain ⟨hne, hembed⟩ := h
    obtain ⟨v, hv⟩ := Option.isSome_iff_exists.mp hembed
    exact ⟨v, by simp [hne, hv, Table.updateRow]⟩
  · cases h

theorem relinkRow_of_not {row : Row V} {remaining : List Value} (h : relinkable O row = false) :
    relinkRow O remaining row = row := by
  unfold relinkable at h
  unfold relinkRow
  split at h
  · rename_i text hdata
    by_cases hne : text = ""
    · simp [hne]
    · cases hembed : O.embed .update text with
      | none => simp
      | some v => simp [hne, hembed] at h
  · rfl

/-- Two records that a relink may make of one another. -/
structure SameEntity (row row' : Row V) : Prop where
  id : row'.id = row.id
  lookup : ∀ key, key ≠ "linked_memory_ids" → row'.payload.lookup key = row.payload.lookup key

theorem SameEntity.refl (row : Row V) : SameEntity row row := ⟨rfl, fun _ _ => rfl⟩

theorem relinkRow_same (row : Row V) (remaining : List Value) : SameEntity row (relinkRow O remaining row) := by
  cases h : relinkable O row with
  | false =>
      rw [relinkRow_of_not h]
      exact .refl row
  | true =>
      obtain ⟨v, hv⟩ := @relinkRow_of_relinkable _ _ _ remaining h
      rw [hv]
      exact ⟨rfl, fun key hkey => Dict.lookup_set_of_ne hkey _ _⟩

theorem unlinkRow_same {row row' : Row V} {memoryId : String} (h : unlinkRow O memoryId row = some row') :
    SameEntity row row' := by
  unfold unlinkRow at h
  split at h
  · dsimp only at h
    split at h
    · split at h
      · cases h
      · cases h
        exact relinkRow_same _ _
    · cases h
      exact .refl row
  · cases h
    exact .refl row

theorem SameEntity.relinkable {row row' : Row V} (h : SameEntity row row') : relinkable O row' = relinkable O row := by
  unfold YiQiao.relinkable
  rw [h.lookup "data" (by decide)]

theorem SameEntity.idMatches {row row' : Row V} (h : SameEntity row row') {key : String}
    (hkey : key ≠ "linked_memory_ids") (value : String) :
    idMatches P row'.payload key value = idMatches P row.payload key value := by
  have htext : row'.payload.text P key = row.payload.text P key := by
    rw [Payload.text, Payload.text, h.lookup key hkey]
  rw [YiQiao.idMatches, YiQiao.idMatches, htext, h.lookup key hkey]

/-! ## One memory -/

/-- One step of the loop rewrites or deletes its own record. -/
theorem unlinkEntity_rows {t : Table V} {row : Row V} (hrow : row ∈ t.rows) (memoryId : String) :
    (unlinkEntity O memoryId t row).rows =
      t.rows.filterMap fun e => if e.id = row.id then unlinkRow O memoryId e else some e := by
  have hsame : ∀ e ∈ t.rows, e.id = row.id → e = row := fun e he hid => Table.eq_of_id he hrow hid
  have hkeep : ∀ f : Row V → Row V, (∀ e ∈ t.rows, e.id = row.id → unlinkRow O memoryId e = some (f e)) →
      t.rows.filterMap (fun e => if e.id = row.id then unlinkRow O memoryId e else some e) =
        t.rows.map fun e => if e.id = row.id then f e else e := by
    intro f hf
    rw [← List.filterMap_eq_map]
    refine List.filterMap_congr fun e he => ?_
    by_cases hid : e.id = row.id
    · simp [hid, hf e he hid]
    · simp [hid]
  have hself : ∀ e : Row V, (if e.id = row.id then e else e) = e := fun e => ite_self e
  cases hlinked : linkedIds row.payload with
  | none =>
      rw [hkeep id fun e he hid => by rw [hsame e he hid, unlinkRow, hlinked]; rfl]
      simp [unlinkEntity, hlinked]
  | some linked =>
      cases hany : linked.any (Value.isText memoryId) with
      | false =>
          rw [hkeep id fun e he hid => by rw [hsame e he hid, unlinkRow, hlinked]; simp [hany]]
          simp [unlinkEntity, hlinked, hany]
      | true =>
          cases hempty : (linked.filter fun v => !v.isText memoryId).isEmpty with
          | true =>
              have hgone : ∀ e ∈ t.rows, e.id = row.id → unlinkRow O memoryId e = none := fun e he hid => by
                rw [hsame e he hid, unlinkRow, hlinked]
                simp only [hany, hempty, if_true]
              have hdelete : unlinkEntity O memoryId t row = t.delete row.id := by
                rw [unlinkEntity, hlinked]
                simp only [hany, hempty, if_true]
              rw [hdelete, Table.rows_delete, ← List.filterMap_eq_filter]
              refine List.filterMap_congr fun e he => ?_
              by_cases hid : e.id = row.id
              · simp [hid, hgone e he hid, Option.guard]
              · simp [hid, Option.guard]
          | false =>
              have hrelink : unlinkEntity O memoryId t row =
                  relinkEntity O row (linked.filter fun v => !v.isText memoryId) t := by
                rw [unlinkEntity, hlinked]
                simp only [hany, hempty, if_true, Bool.false_eq_true, if_false]
              rw [hrelink, hkeep (relinkRow O (linked.filter fun v => !v.isText memoryId)) fun e he hid => by
                rw [hsame e he hid, unlinkRow, hlinked]
                simp only [hany, hempty, if_true, Bool.false_eq_true, if_false]]
              generalize linked.filter (fun v => !v.isText memoryId) = remaining
              have hmap : ∀ f : Row V → Row V, f row = relinkRow O remaining row →
                  (t.rows.map fun e => if e.id = row.id then f e else e) =
                    t.rows.map fun e => if e.id = row.id then relinkRow O remaining e else e := by
                intro f hf
                refine List.map_congr_left fun e he => ?_
                by_cases hid : e.id = row.id
                · rw [if_pos hid, if_pos hid, hsame e he hid, hf]
                · rw [if_neg hid, if_neg hid]
              unfold relinkEntity
              split
              · rename_i text hdata
                by_cases hne : text = ""
                · rw [if_pos hne, ← hmap id (by simp [relinkRow, hdata, hne])]
                  simp
                · rw [if_neg hne]
                  cases hembed : O.embed .update text with
                  | none =>
                      rw [← hmap id (by simp [relinkRow, hdata, hembed])]
                      simp
                  | some v =>
                      rw [Table.rows_update, ← hmap]
                      simp [relinkRow, hdata, hne, hembed]
              · rename_i hdata
                rw [← hmap id (by
                  rw [relinkRow]
                  split
                  · rename_i text htext
                    exact absurd htext (hdata text)
                  · rfl)]
                simp

/-- The loop rewrites or deletes the records it goes through. -/
theorem unlinkEntities_rows {memoryId : String} {selected : List (Row V)} : ∀ {t : Table V},
    (∀ row ∈ selected, row ∈ t.rows) → (selected.map Row.id).Nodup →
    (selected.foldl (unlinkEntity O memoryId) t).rows =
      t.rows.filterMap fun e => if e.id ∈ selected.map Row.id then unlinkRow O memoryId e else some e := by
  induction selected with
  | nil =>
      intro t _ _
      simp
  | cons row selected ih =>
      intro t hmem hnodup
      obtain ⟨hfresh, hnodup⟩ := List.nodup_cons.mp hnodup
      have hstep := unlinkEntity_rows (O := O) (hmem row List.mem_cons_self) memoryId
      have hrest : ∀ other ∈ selected, other ∈ (unlinkEntity O memoryId t row).rows := by
        intro other hother
        rw [hstep, List.mem_filterMap]
        refine ⟨other, hmem other (List.mem_cons_of_mem _ hother), if_neg fun hid => hfresh ?_⟩
        exact hid ▸ List.mem_map_of_mem hother
      rw [List.foldl_cons, ih hrest hnodup, hstep, List.filterMap_filterMap]
      refine List.filterMap_congr fun e he => ?_
      by_cases hid : e.id = row.id
      · -- the rest of the loop leaves the record alone
        rw [if_pos hid, List.map_cons, if_pos (hid ▸ List.mem_cons_self)]
        cases hout : unlinkRow O memoryId e with
        | none => rfl
        | some e' =>
            have hid' : e'.id = row.id := (unlinkRow_same hout).id.trans hid
            rw [Option.bind_some, if_neg (hid' ▸ hfresh)]
      · rw [if_neg hid, Option.bind_some, List.map_cons]
        simp only [List.mem_cons, hid, false_or]

/-- The identifiers of a memory that are texts. -/
def linkIds (payload : Payload) : List (String × String) :=
  scopeIds.filterMap fun key => match Payload.get payload key with
    | .str s => if s = "" then none else some (key, s)
    | _ => none

/-- The identifiers that scope the links of a memory are texts. -/
def TextIds (payload : Payload) : Prop :=
  ∀ key ∈ scopeIds, (Payload.get payload key).truthy = true → ∃ s, Payload.get payload key = .str s

/-- The record carries the identifiers of a memory. -/
def sharesScope (P : Platform) (row e : Row V) : Bool :=
  (linkIds row.payload).all fun i => idMatches P e.payload i.1 i.2

theorem linkIds_keys (payload : Payload) : ∀ i ∈ linkIds payload, i.1 ∈ scopeIds := by
  intro i hi
  obtain ⟨key, hkey, hi⟩ := List.mem_filterMap.mp hi
  split at hi
  · split at hi
    · cases hi
    · cases hi
      exact hkey
  · cases hi

theorem sessionFilters_sessionScope {payload : Payload} (h : TextIds payload) :
    sessionFilters (sessionScope payload) = idFilters (linkIds payload) := by
  have hall : ∀ e ∈ sessionScope payload, e.1 ∈ scopeIds ∧ e.2.truthy = true := by
    intro e he
    obtain ⟨key, hkey, he⟩ := List.mem_filterMap.mp he
    dsimp only at he
    split at he
    · cases he
      exact ⟨hkey, ‹_›⟩
    · cases he
  have hkeep : sessionFilters (sessionScope payload) = sessionScope payload := by
    refine List.filter_eq_self.mpr fun e he => ?_
    rw [Bool.and_eq_true, decide_eq_true_eq]
    exact hall e he
  rw [hkeep, idFilters, linkIds, List.map_filterMap, sessionScope]
  refine List.filterMap_congr fun key hkey => ?_
  cases hvalue : Payload.get payload key with
  | str s =>
      by_cases hs : s = ""
      · simp [hs, Value.truthy]
      · simp [hs, Value.truthy]
  | null => rfl
  | _ =>
      -- only a text may be truthy
      have htext := h key hkey
      rw [hvalue] at htext
      dsimp only
      split
      · obtain ⟨s, hs⟩ := htext ‹_›
        cases hs
      · rfl

/-- What the loss of a memory makes of a record. -/
def unlinkStep (P : Platform) (O : Providers V) (row e : Row V) : Option (Row V) :=
  if sharesScope P row e then unlinkRow O row.id e else some e

/-- The scan for the links of a memory reads all records of its scope. -/
structure Scanned (P : Platform) (row : Row V) (entities : List (Row V)) : Prop where
  texts : TextIds row.payload
  fits : (entities.filter (sharesScope P row)).length ≤ entityScanLimit

theorem unlinkMemory_rows {t : Table V} {row : Row V} (h : Scanned P row t.rows) :
    (unlinkMemory P O row.id (sessionScope row.payload) t).rows = t.rows.filterMap (unlinkStep P O row) := by
  have hkeys : ∀ i ∈ linkIds row.payload, i.1 ≠ "$or" ∧ i.1 ≠ "$not" := fun i hi =>
    (by decide : ∀ key ∈ scopeIds, key ≠ "$or" ∧ key ≠ "$not") i.1 (linkIds_keys _ i hi)
  have hlist : t.list P (sessionFilters (sessionScope row.payload)) entityScanLimit =
      .ok (t.rows.filter (sharesScope P row)) := by
    have hselect : Table.select P (idFilters (linkIds row.payload)) t.rows =
        .ok (t.rows.filter (sharesScope P row)) := select_ids hkeys t.rows
    rw [sessionFilters_sessionScope h.texts, Table.list, hselect]
    change Except.ok _ = _
    rw [List.take_of_length_le h.fits]
  have hnodup : ((t.rows.filter (sharesScope P row)).map Row.id).Nodup :=
    t.unique.sublist (List.filter_sublist.map _)
  rw [unlinkMemory, hlist]
  dsimp only
  rw [unlinkEntities_rows (fun e he => (List.mem_filter.mp he).1) hnodup]
  refine List.filterMap_congr fun e he => ?_
  simp only [Table.id_mem_filter he, unlinkStep]

/-! ## Many memories -/

/-- What the loss of memories makes of a record. -/
def unlinkAll (P : Platform) (O : Providers V) : List (Row V) → Row V → Option (Row V)
  | [], e => some e
  | row :: rows, e => (unlinkStep P O row e).bind (unlinkAll P O rows)

theorem unlinkStep_same {row e e' : Row V} (h : unlinkStep P O row e = some e') : SameEntity e e' := by
  unfold unlinkStep at h
  split at h
  · exact unlinkRow_same h
  · cases h
    exact .refl e

theorem SameEntity.trans {a b c : Row V} (h : SameEntity a b) (h' : SameEntity b c) : SameEntity a c :=
  ⟨h'.id.trans h.id, fun key hkey => (h'.lookup key hkey).trans (h.lookup key hkey)⟩

theorem unlinkAll_same {rows : List (Row V)} {e e' : Row V} (h : unlinkAll P O rows e = some e') :
    SameEntity e e' := by
  induction rows generalizing e with
  | nil =>
      cases h
      exact .refl _
  | cons row rows ih =>
      obtain ⟨e₁, hstep, hrest⟩ := Option.bind_eq_some_iff.mp h
      exact (unlinkStep_same hstep).trans (ih hrest)

theorem SameEntity.sharesScope {e e' : Row V} (h : SameEntity e e') (row : Row V) :
    sharesScope P row e' = sharesScope P row e := by
  unfold YiQiao.sharesScope
  have hkeys : ∀ key ∈ scopeIds, key ≠ "linked_memory_ids" := by decide
  rw [Bool.eq_iff_iff, List.all_eq_true, List.all_eq_true]
  refine forall₂_congr fun i hi => ?_
  rw [h.idMatches (hkeys i.1 (linkIds_keys _ i hi)) i.2]

theorem Scanned.after {row : Row V} {entities : List (Row V)} (h : Scanned P row entities) (gone : Row V) :
    Scanned P row (entities.filterMap (unlinkStep P O gone)) := by
  refine ⟨h.texts, le_trans ?_ h.fits⟩
  rw [← List.countP_eq_length_filter, ← List.countP_eq_length_filter]
  clear h
  induction entities with
  | nil => exact Nat.le_refl _
  | cons e entities ih =>
      rw [List.filterMap_cons, List.countP_cons]
      split
      · exact Nat.le_trans ih (Nat.le_add_right _ _)
      · rename_i e' hstep
        rw [List.countP_cons, (unlinkStep_same hstep).sharesScope]
        exact Nat.add_le_add_right ih _

/-- The entity collection after the loss of memories. -/
def unlinkMemories (P : Platform) (O : Providers V) (rows : List (Row V)) (entities : Table V) : Table V :=
  rows.foldl (fun t row => unlinkMemory P O row.id (sessionScope row.payload) t) entities

theorem unlinkMemories_rows {rows : List (Row V)} : ∀ {t : Table V}, (∀ row ∈ rows, Scanned P row t.rows) →
    (unlinkMemories P O rows t).rows = t.rows.filterMap (unlinkAll P O rows) := by
  induction rows with
  | nil =>
      intro t _
      simp [unlinkMemories, unlinkAll]
  | cons row rows ih =>
      intro t h
      have hstep := unlinkMemory_rows (O := O) (h row List.mem_cons_self)
      have hrest : ∀ other ∈ rows,
          Scanned P other (unlinkMemory P O row.id (sessionScope row.payload) t).rows := by
        intro other hother
        rw [hstep]
        exact (h other (List.mem_cons_of_mem _ hother)).after row
      rw [unlinkMemories, List.foldl_cons, ← unlinkMemories, ih hrest, hstep, List.filterMap_filterMap]
      rfl

/-! ## Records that go -/

/-- The record links some memories, all of them lost from its scope: the record could be rewritten each time, or it
links one memory only. -/
def Orphaned (P : Platform) (O : Providers V) (rows : List (Row V)) (e : Row V) : Prop :=
  ∃ linked, linkedIds e.payload = some linked ∧ linked ≠ [] ∧
    (relinkable O e = true ∧ (∀ v ∈ linked, ∃ row ∈ rows, sharesScope P row e = true ∧ v.isText row.id = true) ∨
      ∃ row ∈ rows, sharesScope P row e = true ∧ ∀ v ∈ linked, v.isText row.id = true)

theorem Orphaned.cons {row e : Row V} {rows : List (Row V)} (h : Orphaned P O rows e) :
    Orphaned P O (row :: rows) e := by
  obtain ⟨linked, hlinked, hne, ⟨hrelink, hall⟩ | ⟨other, hother, hrest⟩⟩ := h
  · refine ⟨linked, hlinked, hne, .inl ⟨hrelink, fun v hv => ?_⟩⟩
    obtain ⟨other, hother, hrest⟩ := hall v hv
    exact ⟨other, List.mem_cons_of_mem _ hother, hrest⟩
  · exact ⟨linked, hlinked, hne, .inr ⟨other, List.mem_cons_of_mem _ hother, hrest⟩⟩

/-- A memory that a record does not link in its scope does not matter to it. -/
theorem orphaned_missed {row e : Row V} {rows : List (Row V)} {linked : List Value}
    (hlinked : linkedIds e.payload = some linked)
    (h : ∀ v ∈ linked, sharesScope P row e = true → ¬ v.isText row.id = true) :
    Orphaned P O (row :: rows) e ↔ Orphaned P O rows e := by
  refine ⟨?_, .cons⟩
  rintro ⟨linked', hlinked', hne, hlost⟩
  cases hlinked.symm.trans hlinked'
  rcases hlost with ⟨hrelink, hall⟩ | ⟨other, hother, hshares, hall⟩
  · refine ⟨linked, hlinked, hne, .inl ⟨hrelink, fun v hv => ?_⟩⟩
    obtain ⟨other, hother, hshares, htext⟩ := hall v hv
    rcases List.mem_cons.mp hother with rfl | hother
    · exact absurd htext (h v hv hshares)
    · exact ⟨other, hother, hshares, htext⟩
  · rcases List.mem_cons.mp hother with rfl | hother
    · obtain ⟨v, hv⟩ := List.exists_mem_of_ne_nil linked hne
      exact absurd (hall v hv) (h v hv hshares)
    · exact ⟨linked, hlinked, hne, .inr ⟨other, hother, hshares, hall⟩⟩

/-- A record without links is never orphaned. -/
theorem not_orphaned {rows : List (Row V)} {e : Row V} (h : linkedIds e.payload = none) : ¬ Orphaned P O rows e := by
  rintro ⟨linked, hlinked, _⟩
  rw [h] at hlinked
  cases hlinked

/-- A record that was rewritten waits for the memories it still links. -/
theorem orphaned_relinked {row e : Row V} {rows : List (Row V)} {linked : List Value}
    (hlinked : linkedIds e.payload = some linked) (hshares : sharesScope P row e = true)
    (hrelink : relinkable O e = true) (hleft : (linked.filter fun v => !v.isText row.id).isEmpty = false) :
    Orphaned P O rows (relinkRow O (linked.filter fun v => !v.isText row.id) e) ↔ Orphaned P O (row :: rows) e := by
  have hsame := relinkRow_same (O := O) e (linked.filter fun v => !v.isText row.id)
  have hremaining : linkedIds (relinkRow O (linked.filter fun v => !v.isText row.id) e).payload =
      some (linked.filter fun v => !v.isText row.id) := by
    obtain ⟨v, hv⟩ := @relinkRow_of_relinkable _ _ _ (linked.filter fun v => !v.isText row.id) hrelink
    rw [hv, linkedIds, Dict.lookup_set]
    rfl
  constructor
  · rintro ⟨linked', hlinked', hne, h⟩
    cases hremaining.symm.trans hlinked'
    have hall : ∀ v ∈ linked.filter fun v => !v.isText row.id,
        ∃ other ∈ rows, sharesScope P other e = true ∧ v.isText other.id = true := by
      intro v hv
      rcases h with ⟨_, hall⟩ | ⟨other, hother, hother', hall⟩
      · obtain ⟨other, hother, hother', htext⟩ := hall v hv
        exact ⟨other, hother, hsame.sharesScope other ▸ hother', htext⟩
      · exact ⟨other, hother, hsame.sharesScope other ▸ hother', hall v hv⟩
    refine ⟨linked, hlinked, fun hnil => hne (by rw [hnil]; rfl), .inl ⟨hrelink, fun v hv => ?_⟩⟩
    cases htext : v.isText row.id with
    | true => exact ⟨row, List.mem_cons_self, hshares, htext⟩
    | false =>
        obtain ⟨other, hother, hrest⟩ := hall v (List.mem_filter.mpr ⟨hv, by rw [htext]; rfl⟩)
        exact ⟨other, List.mem_cons_of_mem _ hother, hrest⟩
  · rintro ⟨linked', hlinked', hne, h⟩
    cases hlinked.symm.trans hlinked'
    have hne' : linked.filter (fun v => !v.isText row.id) ≠ [] := by
      intro hnil
      rw [hnil] at hleft
      cases hleft
    refine ⟨_, hremaining, hne', .inl ⟨hsame.relinkable.trans hrelink, fun v hv => ?_⟩⟩
    obtain ⟨hv, hother⟩ := List.mem_filter.mp hv
    obtain ⟨other, hmem, hother', htext⟩ :
        ∃ other ∈ row :: rows, sharesScope P other e = true ∧ v.isText other.id = true := by
      rcases h with ⟨_, hall⟩ | ⟨other, hmem, hother', hall⟩
      · exact hall v hv
      · exact ⟨other, hmem, hother', hall v hv⟩
    rcases List.mem_cons.mp hmem with rfl | hmem
    · simp [htext] at hother
    · exact ⟨other, hmem, (hsame.sharesScope other).trans hother', htext⟩

/-- A record goes exactly when it is orphaned. -/
theorem unlinkAll_none {rows : List (Row V)} {e : Row V} : unlinkAll P O rows e = none ↔ Orphaned P O rows e := by
  induction rows generalizing e with
  | nil =>
      refine ⟨fun h => (Option.some_ne_none e h).elim, ?_⟩
      rintro ⟨linked, _, hne, ⟨_, hall⟩ | ⟨row, hrow, _⟩⟩
      · obtain ⟨v, hv⟩ := List.exists_mem_of_ne_nil linked hne
        obtain ⟨row, hrow, _⟩ := hall v hv
        cases hrow
      · cases hrow
  | cons row rows ih =>
      cases hlinked : linkedIds e.payload with
      | none =>
          have hstep : unlinkStep P O row e = some e := by simp [unlinkStep, unlinkRow, hlinked]
          rw [unlinkAll, hstep, Option.bind_some, ih]
          exact iff_of_false (not_orphaned hlinked) (not_orphaned hlinked)
      | some linked =>
          cases hshares : sharesScope P row e with
          | false =>
              have hstep : unlinkStep P O row e = some e := by simp [unlinkStep, hshares]
              rw [unlinkAll, hstep, Option.bind_some, ih]
              exact (orphaned_missed hlinked fun _ _ h => by rw [hshares] at h; cases h).symm
          | true =>
              rw [unlinkAll, unlinkStep, hshares, if_pos rfl, unlinkRow, hlinked]
              dsimp only
              cases hany : linked.any (Value.isText row.id) with
              | false =>
                  rw [if_neg (by simp), Option.bind_some, ih]
                  exact (orphaned_missed hlinked fun v hv _ => by simpa using List.any_eq_false.mp hany v hv).symm
              | true =>
                  rw [if_pos rfl]
                  cases hleft : (linked.filter fun v => !v.isText row.id).isEmpty with
                  | true =>
                      -- the last memory it links is lost
                      rw [if_pos rfl, Option.bind_none, eq_self_iff_true, true_iff]
                      have hall : ∀ v ∈ linked, v.isText row.id = true := by
                        simpa using List.isEmpty_iff.mp hleft
                      refine ⟨linked, hlinked, ?_, .inr ⟨row, List.mem_cons_self, hshares, hall⟩⟩
                      rintro rfl
                      cases hany
                  | false =>
                      rw [if_neg (by simp), Option.bind_some, ih]
                      cases hrelink : relinkable O e with
                      | true => exact orphaned_relinked hlinked hshares hrelink hleft
                      | false =>
                          rw [relinkRow_of_not hrelink]
                          constructor
                          · rintro ⟨linked', hlinked', hne, ⟨hrelink', _⟩ | ⟨other, hother, hrest⟩⟩
                            · rw [hrelink] at hrelink'
                              cases hrelink'
                            · exact ⟨linked', hlinked', hne, .inr ⟨other, List.mem_cons_of_mem _ hother, hrest⟩⟩
                          · rintro ⟨linked', hlinked', hne, ⟨hrelink', _⟩ | ⟨other, hother, hother', hall⟩⟩
                            · rw [hrelink] at hrelink'
                              cases hrelink'
                            · cases hlinked.symm.trans hlinked'
                              rcases List.mem_cons.mp hother with rfl | hother
                              · -- more than this memory is linked
                                have hempty : (linked.filter fun v => !v.isText other.id) = [] := by
                                  simpa using hall
                                rw [hempty] at hleft
                                cases hleft
                              · exact ⟨linked, hlinked, hne, .inr ⟨other, hother, hother', hall⟩⟩

end YiQiao
