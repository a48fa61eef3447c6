import YiQiao.Memory.Chronicle

/-!
# What adding returns

An `add` that returns names in its results the rows it has appended, each once and in order. The payload of a new or a
rewritten row has each key once.
-/

namespace YiQiao

open Lib

variable {V S : Type}

/-- Rows with these ids were appended. -/
def Appended (ids : List String) (s s' : MemoryState V) : Prop :=
  ∃ rows, s'.memories.rows = s.memories.rows ++ rows ∧ rows.map Row.id = ids

section

variable {s s' s'' : MemoryState V} {ids ids' : List String}

theorem Appended.of_same (h : SameMemories s s') : Appended [] s s' :=
  ⟨[], by rw [h, List.append_nil], rfl⟩

theorem Appended.trans (h : Appended ids s s') (h' : Appended ids' s' s'') : Appended (ids ++ ids') s s'' := by
  obtain ⟨rows, hrows, rfl⟩ := h
  obtain ⟨rows', hrows', rfl⟩ := h'
  exact ⟨rows ++ rows', by rw [hrows', hrows, List.append_assoc], List.map_append⟩

theorem Appended.then_same (h : Appended ids s s') (hsame : SameMemories s' s'') : Appended ids s s'' := by
  simpa using h.trans (.of_same hsame)

/-- A batch insert that returned appended its rows, and one that raised none. -/
theorem insertMemories_appended {rows : List (Row V)} {r : Except PyError Unit}
    (h : (insertMemories rows).run s = (r, s')) :
    (∀ u, r = .ok u → Appended (rows.map Row.id) s s') ∧ ∀ e, r = .error e → SameMemories s s' := by
  simp only [insertMemories, Effect.run_bind_read] at h
  cases ht : s.memories.insert rows with
  | error e =>
      rw [ht] at h
      cases h
      refine ⟨fun u hu => ?_, fun _ _ => rfl⟩
      cases hu
  | ok t =>
      rw [ht] at h
      cases h
      refine ⟨fun _ _ => ⟨rows, Table.rows_insert ht, rfl⟩, fun e he => ?_⟩
      cases he

theorem createMemory_appended {W : Writer V S} {now data id : String} {vector : Option V} {metadata : Entries}
    {skip : Bool} {created : Option String}
    (h : (createMemory W now data vector metadata id skip).run s = (.ok created, s')) :
    Appended created.toList s s' := by
  simp only [createMemory, getMemory, Effect.run_bind_read] at h
  split at h
  · cases h
    exact .of_same rfl
  · obtain ⟨inserted, s₁, hinserted, hfinish⟩ := Effect.bind_ok.mp h
    have hrun : (insertMemories [⟨id, vector, createdPayload W now data metadata⟩]).run s = (inserted, s₁) := by
      cases hinserted
      rfl
    obtain ⟨hok, herror⟩ := insertMemories_appended hrun
    cases inserted with
    | ok u =>
        simp only [finishCreate, Effect.bind_ok] at hfinish
        obtain ⟨_, s₂, hhistory, hpure⟩ := hfinish
        cases hpure
        exact (hok u rfl).then_same ((addHistory_within _).of_ok hhistory)
    | error e =>
        simp only [finishCreate, getMemory, Effect.run_bind_read] at hfinish
        split at hfinish
        · cases hfinish
          exact .of_same (herror e rfl)
        · cases hfinish

theorem insertEach_appended {rows persisted : List (Row V)} (h : (insertEach rows).run s = (.ok persisted, s')) :
    Appended (persisted.map Row.id) s s' := by
  refine Effect.loop_ok (I := fun _ done t => Appended (done.map Row.id) s t) h (.of_same rfl) ?_
  intro done row rest c t c' t' _ hI hstep
  obtain ⟨r, t₁, hr, hrest⟩ := Effect.bind_ok.mp hstep
  have hrun : (insertMemories [row]).run t = (r, t₁) := by
    cases hr
    rfl
  obtain ⟨hok, herror⟩ := insertMemories_appended hrun
  cases r with
  | ok u =>
      cases hrest
      rw [List.map_append]
      exact hI.trans (hok u rfl)
  | error e =>
      cases hrest
      exact hI.then_same (herror e rfl)

theorem persistRows_appended {rows persisted : List (Row V)} (h : (persistRows rows).run s = (.ok persisted, s')) :
    Appended (persisted.map Row.id) s s' := by
  obtain ⟨r, s₁, hr, hrest⟩ := Effect.bind_ok.mp h
  have hrun : (insertMemories rows).run s = (r, s₁) := by
    cases hr
    rfl
  obtain ⟨hok, herror⟩ := insertMemories_appended hrun
  cases r with
  | ok u =>
      cases hrest
      exact hok u rfl
  | error e =>
      obtain ⟨rows', hrows', hids⟩ := insertEach_appended hrest
      exact ⟨rows', by rw [hrows', herror e rfl], hids⟩

theorem addRawMessages_appended {W : Writer V S} {O : Providers V} {messages : List Entries} {metadata : Entries}
    {scope : ScopeIds} {pre : Nat → Except PyError Unit} {unavailable : Bool} {results : List AddedMemory}
    (h : (addRawMessages W O messages metadata scope pre unavailable).run s = (.ok results, s')) :
    Appended (results.map AddedMemory.id) s s' := by
  simp only [addRawMessages, Effect.run_bind_read, Effect.bind_ok, Effect.lift_ok] at h
  obtain ⟨texts, _, ⟨_, rfl⟩, _, _, ⟨_, rfl⟩, hloop⟩ := h
  refine Effect.loop_ok (I := fun _ (added : List AddedMemory) t => Appended (added.map AddedMemory.id) s t) hloop
    (.of_same rfl) ?_
  intro done selected rest added t added' t' _ hI hstep
  obtain ⟨created, t₁, hcreate, hrest⟩ := Effect.bind_ok.mp hstep
  have hcreated := createMemory_appended hcreate
  cases created with
  | none =>
      cases hrest
      simpa using hI.trans hcreated
  | some id =>
      cases hrest
      rw [List.map_append]
      exact hI.trans hcreated

theorem createProceduralMemory_appended {W : Writer V S} {O : Providers V} {messages : List Value} {metadata : Entries}
    {prompt : Option String} {pre : Nat → Except PyError Unit} {results : List AddedMemory}
    (h : (createProceduralMemory W O messages metadata prompt pre).run s = (.ok results, s')) :
    Appended (results.map AddedMemory.id) s s' := by
  rw [createProceduralMemory] at h
  cases hsummary : O.summarize messages prompt with
  | none => rw [hsummary] at h; cases h
  | some text =>
      rw [hsummary] at h
      simp only [Effect.bind_ok, Effect.lift_ok] at h
      obtain ⟨_, _, ⟨_, rfl⟩, h⟩ := h
      cases hvector : O.embed .add text with
      | none => rw [hvector] at h; cases h
      | some vector =>
          rw [hvector] at h
          simp only [Effect.bind_ok] at h
          obtain ⟨id, s₁, hid, created, s₂, hcreate, hpure⟩ := h
          cases hpure
          have hsame : SameMemories s s₁ := (drawId_within W).of_ok hid
          have hids : (created.toList.map fun id => (⟨id, text, .null, .null, [], none, none⟩ : AddedMemory)).map
              AddedMemory.id = created.toList := by
            rw [List.map_map]
            exact List.map_id _
          rw [hids]
          obtain ⟨rows, hrows, hrowIds⟩ := createMemory_appended hcreate
          exact ⟨rows, by rw [hrows, hsame], hrowIds⟩

theorem finishAdd_appended [Score S] {W : Writer V S} {O : Providers V} {messages : List Entries} {scope : ScopeIds}
    {persisted : List (Row V)} {results : List AddedMemory}
    (h : (finishAdd W O messages scope persisted).run s = (.ok results, s')) :
    results.map AddedMemory.id = persisted.map Row.id ∧ SameMemories s s' := by
  refine ⟨?_, (finishAdd_within W O messages scope persisted).of_ok h⟩
  rw [finishAdd] at h
  split at h
  · rename_i hempty
    rw [List.isEmpty_iff] at hempty
    obtain ⟨_, _, _, hpure⟩ := Effect.bind_ok.mp h
    cases hpure
    rw [hempty]
    rfl
  · simp only [Effect.bind_ok] at h
    obtain ⟨_, _, _, _, _, _, _, _, _, hpure⟩ := h
    cases hpure
    rw [List.map_map]
    rfl

theorem addToVectorStore_appended [Score S] {W : Writer V S} {O : Providers V} {messages : List Entries}
    {metadata : Entries} {scope : ScopeIds} {infer : Bool} {prompt : Option String}
    {pre : Nat → Except PyError Unit} {results : List AddedMemory}
    (h : (addToVectorStore W O messages metadata scope infer prompt pre).run s = (.ok results, s')) :
    Appended (results.map AddedMemory.id) s s' := by
  rw [addToVectorStore] at h
  split at h
  · exact addRawMessages_appended h
  · cases hvector : O.embed .search (parseMessages W.platform messages) with
    | none =>
        rw [hvector] at h
        exact addRawMessages_appended h
    | some vector =>
        rw [hvector] at h
        simp only [Effect.run_bind_read, Effect.bind_ok, Effect.lift_ok] at h
        obtain ⟨hits, _, ⟨_, rfl⟩, extracted, s₁, hextract, h⟩ := h
        have hsame : SameMemories s s₁ := (extractMemories_within _ _ _ _ _ _).of_ok hextract
        rw [addExtracted] at h
        simp only [Effect.run_bind_read, Effect.bind_ok, Effect.lift_ok] at h
        obtain ⟨_, _, ⟨_, rfl⟩, h⟩ := h
        split at h
        · obtain ⟨_, s₂, hsave, hpure⟩ := Effect.bind_ok.mp h
          cases hpure
          have hsaved : SameMemories s₁ s' := (saveMessages_within _ _ _).of_ok hsave
          exact .of_same (hsaved.trans hsame)
        · obtain ⟨persisted, s₂, hpersist, hfinish⟩ := Effect.bind_ok.mp h
          obtain ⟨hids, hfinished⟩ := finishAdd_appended hfinish
          rw [hids]
          obtain ⟨rows, hrows, hrowIds⟩ := persistRows_appended hpersist
          exact ⟨rows, by rw [hfinished, hrows, hsame], hrowIds⟩

/-- The results of an `add` name the rows it appended. -/
theorem add_appended [Score S] {W : Writer V S} {O : Providers V} {request : AddRequest} {results : List AddedMemory}
    (h : (add W O request).run s = (.ok results, s')) : Appended (results.map AddedMemory.id) s s' := by
  simp only [add, Effect.bind_ok, Effect.lift_ok] at h
  obtain ⟨⟨metadata, scope, messages⟩, _, ⟨_, rfl⟩, h⟩ := h
  split at h
  · exact createProceduralMemory_appended h
  · simp only [Effect.bind_ok, Effect.lift_ok] at h
    obtain ⟨parsed, _, ⟨_, rfl⟩, h⟩ := h
    exact addToVectorStore_appended h

/-- The appended rows have what all new rows have. -/
theorem Appended.grown {P : Row V → Prop} (h : Appended ids s s') (hgrows : Grows P s s') :
    ∃ rows, s'.memories.rows = s.memories.rows ++ rows ∧ rows.map Row.id = ids ∧ ∀ row ∈ rows, P row := by
  obtain ⟨rows, hrows, hids⟩ := h
  obtain ⟨rows', hrows', hall⟩ := hgrows
  have hsame : rows = rows' := List.append_cancel_left (hrows.symm.trans hrows')
  exact ⟨rows, hrows, hids, hsame ▸ hall⟩

end

/-! ## Keys of payloads -/

theorem texts_wf (texts : List String) : (Value.list (texts.map .str)).WF := by
  change Value.WFList (texts.map .str)
  induction texts with
  | nil => trivial
  | cons text texts ih => exact ⟨trivial, ih⟩

section

variable {W : Writer V S} {O : Providers V} {now text : String} {metadata memory p : Entries}

theorem unique_ite {c : Prop} [Decidable c] {p q : Entries} (hp : Dict.Unique p) (hq : Dict.Unique q) :
    Dict.Unique (if c then p else q) := by
  split
  · exact hp
  · exact hq

theorem unique_stampCreation (h : Dict.Unique p) : Dict.Unique (stampCreation now p) := by
  unfold stampCreation
  exact (unique_ite h (h.set _ _)).set _ _

theorem unique_createdPayload (h : Dict.Unique p) : Dict.Unique (createdPayload W now text p) :=
  unique_stampCreation ((h.erase _).update _)

theorem unique_rawMetadata {pending : Bool} (h : Dict.Unique metadata) :
    Dict.Unique (rawMetadata W metadata memory pending) := by
  have hsorted : ∀ categories, Dict.Unique (replaceCategories categories (Dict.erase "_allowed_categories" metadata)) :=
    fun _ => unique_ite ((h.erase _).erase _) ((h.erase _).set _ _)
  have hspoken : ∀ categories, Dict.Unique (withActor memory (Dict.set "role" (Payload.get memory "role")
      (replaceCategories categories (Dict.erase "_allowed_categories" metadata)))) :=
    fun categories => unique_ite (((hsorted categories).set _ _).set _ _) ((hsorted categories).set _ _)
  exact unique_ite ((hspoken _).set _ _) (hspoken _)

theorem unique_extractedPayload {embedded : Bool} (h : Dict.Unique metadata) :
    Dict.Unique (extractedPayload W now metadata memory embedded) := by
  have hstamped : ∀ fields, Dict.Unique (stampCreation now
      (Dict.update (Dict.erase "_allowed_categories" metadata) fields)) :=
    fun fields => unique_stampCreation ((h.erase _).update fields)
  have hattributed : ∀ fields, Dict.Unique (withAttribution memory (stampCreation now
      (Dict.update (Dict.erase "_allowed_categories" metadata) fields))) :=
    fun fields => unique_ite ((hstamped fields).set _ _) (hstamped fields)
  have hsorted : ∀ categories fields, Dict.Unique (withCategories categories (withAttribution memory (stampCreation now
      (Dict.update (Dict.erase "_allowed_categories" metadata) fields)))) :=
    fun _ fields => unique_ite (hattributed fields) ((hattributed fields).set _ _)
  exact unique_ite ((hsorted _ _).erase _) ((hsorted _ _).set _ _)

theorem unique_updatedPayload {metadata : Option Entries} {embedded : Bool} {old : Payload} (h : Dict.Unique old) :
    Dict.Unique (updatedPayload W now text metadata embedded old) := by
  have hkept : Dict.Unique (keepActor old (Dict.update (Dict.erase "_allowed_categories"
      (Dict.update old (metadata.getD []))) (updatedFields W now text old))) := by
    unfold keepActor
    split
    · exact (((h.update _).erase _).update _).set _ _
    · exact ((h.update _).erase _).update _
  exact unique_ite (hkept.erase _) (unique_ite (hkept.set _ _) (hkept.erase _))

theorem prepareAdd_unique {request : AddRequest} {scope : ScopeIds} {messages : List Value}
    (h : prepareAdd W request = .ok (metadata, scope, messages)) : Dict.Unique metadata := by
  obtain ⟨stored, date, rfl, hbuild⟩ := prepareAdd_builds h
  have htemplate : Dict.Unique ((request.metadata.map Object.entries).getD []) := by
    cases request.metadata with
    | none => exact List.nodup_nil
    | some object => exact object.wf.1
  have hstored : Dict.Unique stored := by
    simp only [buildFiltersAndMetadata, Fallible.bind_ok] at hbuild
    obtain ⟨_, _, hbuild⟩ := hbuild
    split at hbuild
    · cases hbuild
      exact htemplate.update _
    · cases hbuild
  unfold withExpiration
  split
  · exact hstored
  · exact hstored.set _ _

theorem add_unique [Score S] {request : AddRequest} :
    Effect.Within (Grows fun row => Dict.Unique row.payload) (add W O request) := by
  refine .bindLift fun prepared hprepared => ?_
  obtain ⟨metadata, scope, messages⟩ := prepared
  have hunique := prepareAdd_unique hprepared
  dsimp only
  split
  · exact createProceduralMemory_within fun _ _ _ _ => unique_createdPayload (hunique.set _ _)
  · refine .bind (.lift _) fun parsed => addToVectorStore_within ?_ ?_
    · intro message text unavailable
      exact unique_createdPayload (unique_rawMetadata hunique)
    · intro texts memory
      exact unique_extractedPayload hunique

end

/-! ## Updates that return -/

section

variable {W : Writer V S} {O : Providers V} {request : UpdateRequest} {s s' : MemoryState V}

/-- An update that returned has rewritten its row. -/
theorem update_ok [Score S] (h : (update W O request).run s = (.ok (), s')) :
    ∃ row text metadata, Rewritten W O request s s' row text metadata := by
  rcases update_memories W O request s with _ | hrewritten
  · unfold update at h
    split at h
    · cases h
    · simp only [updateMemory, getMemory, Effect.run_bind_read, Effect.bind_ok, Effect.lift_ok] at h
      obtain ⟨metadata, _, ⟨hmetadata, rfl⟩, h⟩ := h
      cases hrow : s.memories.get request.memoryId with
      | none => rw [hrow] at h; cases h
      | some row =>
          rw [hrow] at h
          simp only [Effect.bind_ok, Effect.lift_ok] at h
          obtain ⟨text, _, ⟨htext, rfl⟩, h⟩ := h
          have hmemories := rewriteMemory_memories W O row text (request.data.bind (O.embed .update)) metadata s
          rw [h] at hmemories
          exact ⟨row, text, metadata, hrow, htext, hmetadata, hmemories⟩
  · rwa [h] at hrewritten

end

end YiQiao
