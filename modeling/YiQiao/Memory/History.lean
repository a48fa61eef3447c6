import YiQiao.Lib.Logs
import YiQiao.Memory.Chronicle
import YiQiao.Memory.DeleteAll
import YiQiao.Memory.Duplicates

/-!
# Histories

The history tells what became of the text of every memory. Read from its first entry on, it leads to the texts that are
stored, and every entry says rightly what stood there before it.
-/

namespace YiQiao

open Lib Filters

variable {V S : Type}

/-! ## Entries -/

/-- The texts of the memories. -/
def memoryTexts (s : MemoryState V) : List (String × Value) :=
  s.memories.rows.map fun row => (row.id, Payload.get row.payload "data")

/-- What an entry makes of the texts. -/
def HistoryRecord.retell (texts : List (String × Value)) (r : HistoryRecord) : List (String × Value) :=
  if r.isDeleted then Dict.erase r.memoryId texts else Dict.set r.memoryId r.newMemory texts

/-- The entry names an event, and says what stood there before it. -/
inductive RightEntry (texts : List (String × Value)) (r : HistoryRecord) : Prop where
  | added (hevent : r.event = "ADD") (hdeleted : r.isDeleted = false) (hold : r.oldMemory = .null)
      (hnew : texts.lookup r.memoryId = none)
  | updated (hevent : r.event = "UPDATE") (hdeleted : r.isDeleted = false)
      (hold : texts.lookup r.memoryId = some r.oldMemory)
  | deleted (hevent : r.event = "DELETE") (hdeleted : r.isDeleted = true) (hnew : r.newMemory = .null)
      (hold : texts.lookup r.memoryId = some r.oldMemory)

/-- The history of a change leads from the texts before it to those after it. -/
def Narrates (log : List HistoryRecord) (s s' : MemoryState V) : Prop :=
  s'.history = s.history ++ log ∧ memoryTexts s' = replay HistoryRecord.retell (memoryTexts s) log ∧
    EachEntry HistoryRecord.retell (fun _ => RightEntry) [] (memoryTexts s) log

/-! ## What can be recorded -/

/-- The columns of an entry that come out of a payload, but for the texts. -/
def recordedKeys : List String := ["created_at", "updated_at", "actor_id", "role", "project_id"]

def Bindable (v : Value) : Prop := v.bind = .ok ()

def FieldsBind (p : Entries) : Prop := ∀ key ∈ recordedKeys, Bindable (Payload.get p key)

/-- A payload with a text, all of whose columns can be recorded. -/
structure Documented (p : Payload) : Prop where
  text : ∃ text, p.lookup "data" = some (.str text)
  fields : FieldsBind p

/-- From documented memories, the history tells the change, and the memories stay documented. -/
def Retells (s s' : MemoryState V) : Prop :=
  (∀ row ∈ s.memories.rows, Documented row.payload) →
    (∀ row ∈ s'.memories.rows, Documented row.payload) ∧ ∃ log, Narrates log s s'

section

variable {p e : Entries} {key text : String} {v : Value}

theorem bindable_str : Bindable (.str text) := rfl

theorem FieldsBind.set (hp : FieldsBind p) (h : key ∈ recordedKeys → Bindable v) : FieldsBind (Dict.set key v p) := by
  intro k hk
  rw [Payload.get, Dict.lookup_set]
  split
  · rename_i heq
    exact h (heq ▸ hk)
  · exact hp k hk

theorem FieldsBind.erase (hp : FieldsBind p) : FieldsBind (Dict.erase key p) := by
  intro k hk
  rw [Payload.get, Dict.lookup_erase]
  split
  · rfl
  · exact hp k hk

theorem FieldsBind.update (hp : FieldsBind p) (h : ∀ entry ∈ e, entry.1 ∈ recordedKeys → Bindable entry.2) :
    FieldsBind (Dict.update p e) := by
  induction e generalizing p with
  | nil => exact hp
  | cons entry e ih =>
    obtain ⟨hentry, hrest⟩ := List.forall_mem_cons.mp h
    exact ih (hp.set hentry) hrest

theorem FieldsBind.ite {q : Entries} {c : Prop} [Decidable c] (hp : FieldsBind p) (hq : FieldsBind q) :
    FieldsBind (if c then p else q) := by
  split
  · exact hp
  · exact hq

end

/-! ## Telling -/

section

variable {s s' s'' : MemoryState V} {log more : List HistoryRecord}

theorem Narrates.refl : Narrates [] s s := ⟨(List.append_nil _).symm, rfl, trivial⟩

theorem Narrates.trans (h : Narrates log s s') (h' : Narrates more s' s'') : Narrates (log ++ more) s s'' := by
  obtain ⟨hhistory, htexts, hright⟩ := h
  obtain ⟨hhistory', htexts', hright'⟩ := h'
  refine ⟨by rw [hhistory', hhistory, List.append_assoc], by rw [htexts', htexts, replay_append], ?_⟩
  rw [eachEntry_append, ← htexts]
  exact ⟨hright, hright'.of_seen⟩

instance : Std.Refl (Retells (V := V)) := ⟨fun _ h => ⟨h, [], .refl⟩⟩

instance : IsTrans (MemoryState V) Retells := ⟨by
  intro s₁ s₂ s₃ h h' hdocumented
  obtain ⟨hdocumented₂, log, hlog⟩ := h hdocumented
  obtain ⟨hdocumented₃, more, hmore⟩ := h' hdocumented₂
  exact ⟨hdocumented₃, log ++ more, hlog.trans hmore⟩⟩

/-- Neither a memory nor the history is touched. -/
def Untold (s s' : MemoryState V) : Prop := s'.memories = s.memories ∧ s'.history = s.history

instance : Std.Refl (Untold (V := V)) := ⟨fun _ => ⟨rfl, rfl⟩⟩

instance : IsTrans (MemoryState V) Untold := ⟨fun _ _ _ h h' => ⟨h'.1.trans h.1, h'.2.trans h.2⟩⟩

theorem retells_of_rows (hrows : s'.memories.rows = s.memories.rows) (hhistory : s'.history = s.history) :
    Retells s s' := by
  intro hdocumented
  refine ⟨by rwa [hrows], [], by rw [hhistory, List.append_nil], ?_, trivial⟩
  rw [memoryTexts, hrows]
  rfl

theorem Untold.retells (h : Untold s s') : Retells s s' := retells_of_rows (by rw [h.1]) h.2

theorem retells_of_untold {α : Type} {x : Op V α} (h : Effect.Within Untold x) : Effect.Within Retells x :=
  fun s => (h s).retells

end

/-! ## The payloads -/

section

variable {W : Writer V S} {now text : String} {metadata memory old : Entries}

theorem FieldsBind.stamped {p : Payload} (h : FieldsBind p) : FieldsBind (stampCreation now p) := by
  have hstamped : FieldsBind (if (p.lookup "created_at").isSome then p else Dict.set "created_at" (.str now) p) :=
    h.ite (h.set fun _ => bindable_str)
  exact hstamped.set fun _ => hstamped "created_at" (by decide)

theorem FieldsBind.texts {p : Payload} {hash : String} (h : FieldsBind p) :
    FieldsBind (Dict.update (Dict.erase "_allowed_categories" p)
      [("data", .str text), ("text_lemmatized", .str (W.lemmatize text)), ("hash", .str hash)]) := by
  refine h.erase.update fun entry hentry hkey => ?_
  simp only [List.mem_cons, List.not_mem_nil, or_false] at hentry
  rcases hentry with rfl | rfl | rfl <;> rfl

theorem FieldsBind.derived {p : Payload} (h : FieldsBind p) : FieldsBind (Dict.update p (derivedTextPayload W text)) := by
  refine h.update fun entry hentry hkey => ?_
  simp only [derivedTextPayload, List.mem_cons, List.not_mem_nil, or_false] at hentry
  rcases hentry with rfl | rfl | rfl <;> rfl

theorem FieldsBind.pending {p : Payload} (h : FieldsBind p) : FieldsBind (markPending p) :=
  h.set fun hkey => absurd hkey (by decide)

theorem createdPayload_documented (h : FieldsBind metadata) : Documented (createdPayload W now text metadata) where
  text := ⟨text, (textFields_of_agrees (createdPayload_agrees text (Agrees.refl _))).1⟩
  fields := h.erase.derived.stamped

theorem extractedPayload_documented (h : FieldsBind metadata) (embedded : Bool) :
    Documented (extractedPayload W now metadata memory embedded) where
  text := ⟨extractedText memory, (textFields_of_agrees (extractedPayload_agrees embedded)).1⟩
  fields := by
    have hattributed : FieldsBind (withAttribution memory (stampCreation now (Dict.update
        (Dict.erase "_allowed_categories" metadata) [("data", .str (extractedText memory)),
          ("text_lemmatized", .str (W.lemmatize (extractedText memory))),
          ("hash", .str (W.contentHash (extractedText memory)))]))) :=
      (h.texts.stamped.set fun hkey => absurd hkey (by decide)).ite h.texts.stamped
    have hsorted : FieldsBind (withCategories (categoriesOf W memory (allowedCategories W metadata)) _) :=
      hattributed.ite (hattributed.set fun hkey => absurd hkey (by decide))
    exact hsorted.erase.ite hsorted.pending

/-- The name and the role of a message can be recorded. -/
def Spoken (message : Entries) : Prop := Bindable (actorName message) ∧ Bindable (Payload.get message "role")

theorem rawMetadata_bind {message : Entries} {pending : Bool} (h : FieldsBind metadata) (hmessage : Spoken message) :
    FieldsBind (rawMetadata W metadata message pending) := by
  have hsorted : FieldsBind (replaceCategories (categoriesOf W (Dict.erase "_allowed_categories" metadata)
      (allowedCategories W metadata)) (Dict.erase "_allowed_categories" metadata)) :=
    h.erase.erase.ite (h.erase.set fun hkey => absurd hkey (by decide))
  have hrole : FieldsBind (Dict.set "role" (Payload.get message "role") _) := hsorted.set fun _ => hmessage.2
  have hspoken : FieldsBind (withActor message _) := (hrole.set fun _ => hmessage.1).ite hrole
  exact hspoken.pending.ite hspoken

theorem FieldsBind.kept {p : Payload} (h : FieldsBind p) (hold : FieldsBind old) : FieldsBind (keepActor old p) := by
  unfold keepActor
  split
  · rename_i actor hactor
    refine h.set fun _ => ?_
    have hbind := hold "actor_id" (by decide)
    rwa [Payload.get, hactor] at hbind
  · exact h

theorem FieldsBind.settled {p : Payload} {embedded changed pending : Bool} (h : FieldsBind p) :
    FieldsBind (settleStatus embedded changed pending p) := h.erase.ite (h.pending.ite h.erase)

/-- The metadata of an update can be recorded. -/
def MetadataBinds (metadata : Option Entries) : Prop :=
  ∀ entry ∈ metadata.getD [], entry.1 ∈ recordedKeys → Bindable entry.2

theorem updatedPayload_documented {metadata : Option Entries} {embedded : Bool} (hold : FieldsBind old)
    (hmetadata : MetadataBinds metadata) : Documented (updatedPayload W now text metadata embedded old) where
  text := ⟨text, (textFields_of_agrees updatedPayload_agrees).1⟩
  fields := by
    rw [updatedPayload_eq]
    refine FieldsBind.settled (FieldsBind.kept ?_ hold)
    have hmerged : FieldsBind (Dict.erase "_allowed_categories" _) := (hold.update hmetadata).erase
    exact (hmerged.derived.set fun _ => hold "created_at" (by decide)).set fun _ => bindable_str

end

/-! ## What is not told -/

theorem removeMemoryFromEntityStore_untold (P : Platform) (O : Providers V) (id : String) (filters : Entries) :
    Effect.Within Untold (removeMemoryFromEntityStore P O id filters) := by
  refine .modify fun s => ?_
  split <;> exact ⟨rfl, rfl⟩

theorem insertEntity_untold (W : Writer V S) (vector : V) (payload : Payload) (s : MemoryState V) :
    Untold s (insertEntity W vector payload s) := by
  unfold insertEntity
  split <;> exact ⟨rfl, rfl⟩

theorem upsertEntity_untold [Score S] (W : Writer V S) (O : Providers V) (memoryId : String) (filters : Entries)
    (s : MemoryState V) (entity : String × String) : Untold s (upsertEntity W O memoryId filters s entity) := by
  unfold upsertEntity
  split
  · exact ⟨rfl, rfl⟩
  · dsimp only
    split
    · exact ⟨rfl, rfl⟩
    · split
      · exact ⟨rfl, rfl⟩
      · split
        · exact ⟨rfl, rfl⟩
        · obtain ⟨hmemories, hhistory⟩ := insertEntity_untold W _ _ { s with entityStoreOpen := true }
          exact ⟨hmemories, hhistory⟩

theorem linkEntitiesForMemory_untold [Score S] (W : Writer V S) (O : Providers V) (memoryId text : String)
    (filters : Entries) : Effect.Within Untold (linkEntitiesForMemory W O memoryId text filters) := by
  refine .modify fun s => ?_
  induction distinctEntities W (W.extractEntities text) generalizing s with
  | nil => exact ⟨rfl, rfl⟩
  | cons entity entities ih => exact IsTrans.trans _ _ _ (upsertEntity_untold W O memoryId filters s entity) (ih _)

theorem relinkMemory_untold [Score S] (W : Writer V S) (O : Providers V) (id data : String) (payload : Payload) :
    Effect.Within Untold (relinkMemory W O id data payload) :=
  .bind (removeMemoryFromEntityStore_untold _ _ _ _) fun _ => linkEntitiesForMemory_untold _ _ _ _ _

theorem linkMatches_untold (W : Writer V S) (filters : Entries)
    (matched : List ((BatchEntity × V) × Option (Row V))) (s : MemoryState V) : Untold s (linkMatches W filters matched s) := by
  unfold linkMatches
  dsimp only
  split <;> exact ⟨rfl, rfl⟩

theorem linkBatch_untold [Score S] (W : Writer V S) (O : Providers V) (filters : Entries) (rows : List (Row V))
    (s : MemoryState V) : Untold s (linkBatch W O filters rows s) := by
  unfold linkBatch
  dsimp only
  split
  · exact ⟨rfl, rfl⟩
  · split
    · obtain ⟨hmemories, hhistory⟩ := linkMatches_untold W filters _ { s with entityStoreOpen := true }
      exact ⟨hmemories, hhistory⟩
    · exact ⟨rfl, rfl⟩

theorem saveMessages_untold (now : String) (messages : List Entries) (scope : String) :
    Effect.Within Untold (saveMessages now messages scope : Op V Unit) := by
  refine .bind (.read _) fun saved => .bind (.lift _) fun _ => ?_
  split
  · exact .pure _
  · exact .modify fun _ => ⟨rfl, rfl⟩

theorem extractMemories_untold (W : Writer V S) (O : Providers V) (messages : List Entries) (scope : ScopeIds)
    (prompt : Option String) (existing : List (Row V)) :
    Effect.Within Untold (extractMemories W O messages scope prompt existing) := by
  refine .bind (.read _) fun last => ?_
  dsimp only
  split
  · exact .raise _
  · exact .lift _

theorem drawId_untold (W : Writer V S) : Effect.Within Untold (drawId W : Op V String) :=
  .bind (.read _) fun _ => .bind (.modify fun _ => ⟨rfl, rfl⟩) fun _ => .pure _

/-! ## What is told -/

theorem bindAll_ok {values : List Value} (h : ∀ v ∈ values, Bindable v) : bindAll values = .ok () := by
  induction values with
  | nil => rfl
  | cons v values ih =>
    obtain ⟨hv, hvalues⟩ := List.forall_mem_cons.mp h
    have hrest : bindAll values = .ok () := ih hvalues
    show (do v.bind; bindAll values) = _
    rw [show v.bind = .ok () from hv, hrest]
    rfl

theorem addHistory_run {r : HistoryRecord} (h : bindAll r.parameters = .ok ()) (s : MemoryState V) :
    (addHistory r).run s = (.ok (), { s with history := s.history ++ [r] }) := by
  rw [addHistory, Effect.run_bind, Effect.run_lift, h]
  rfl

section

variable {s s' : MemoryState V} {rows : List (Row V)} {row : Row V} {id : String}

theorem memoryTexts_unique (s : MemoryState V) : Dict.Unique (memoryTexts s) := by
  rw [Dict.Unique, memoryTexts, List.map_map]
  exact s.memories.unique

theorem lookup_memoryTexts (h : row ∈ s.memories.rows) :
    (memoryTexts s).lookup row.id = some (Payload.get row.payload "data") :=
  (Dict.mem_iff_lookup (memoryTexts_unique s)).mp (List.mem_map_of_mem h)

theorem Documented.get_text {p : Payload} (h : Documented p) : Bindable (Payload.get p "data") := by
  obtain ⟨text, htext⟩ := h.text
  rw [Payload.get, htext]
  exact bindable_str

/-- Entries of added rows tell that the rows were appended. -/
theorem narrates_added (record : Row V → HistoryRecord)
    (hrecord : ∀ row ∈ rows, (record row).memoryId = row.id ∧ (record row).newMemory = Payload.get row.payload "data" ∧
      (record row).event = "ADD" ∧ (record row).isDeleted = false ∧ (record row).oldMemory = .null)
    (hrows : s'.memories.rows = s.memories.rows ++ rows) (hhistory : s'.history = s.history ++ rows.map record) :
    Narrates (rows.map record) s s' := by
  refine ⟨hhistory, ?_⟩
  have htexts : memoryTexts s' = memoryTexts s ++ rows.map fun row => (row.id, Payload.get row.payload "data") := by
    rw [memoryTexts, hrows, List.map_append]
    rfl
  have hunique := memoryTexts_unique s'
  rw [htexts] at hunique ⊢
  clear hhistory hrows htexts
  generalize memoryTexts s = texts at hunique ⊢
  induction rows generalizing texts with
  | nil => exact ⟨List.append_nil _, trivial⟩
  | cons row rows ih =>
    obtain ⟨⟨hid, hnew, hevent, hdeleted, hold⟩, hrest⟩ := List.forall_mem_cons.mp hrecord
    have hfresh : row.id ∉ texts.map Prod.fst := hunique.notMem_of_append
    have hretell : (record row).retell texts = texts ++ [(row.id, Payload.get row.payload "data")] := by
      rw [HistoryRecord.retell, hdeleted, if_neg (by simp), hid, hnew, Dict.set_of_notMem hfresh]
    rw [List.map_cons, List.append_cons] at hunique
    obtain ⟨htexts, hright⟩ := ih hrest _ hunique
    rw [List.map_cons, List.map_cons, replay_cons, hretell, List.append_cons]
    refine ⟨htexts, .added hevent hdeleted hold ?_, ?_⟩
    · rw [hid]
      exact Dict.lookup_eq_none_iff_keys.mpr hfresh
    · rw [hretell]
      exact hright.of_seen

theorem insertMemories_cases (rows : List (Row V)) (s : MemoryState V) :
    (∃ s', (insertMemories rows).run s = (.ok (), s') ∧ s'.memories.rows = s.memories.rows ++ rows ∧
      s'.history = s.history) ∨ ∃ e, (insertMemories rows).run s = (.error e, s) := by
  simp only [insertMemories, Effect.run_bind_read]
  cases h : s.memories.insert rows with
  | error e => exact .inr ⟨e, rfl⟩
  | ok t => exact .inl ⟨_, rfl, Table.rows_insert h, rfl⟩

theorem forall_documented {new : List (Row V)} (hold : ∀ row ∈ s.memories.rows, Documented row.payload)
    (hrows : s'.memories.rows = s.memories.rows ++ new) (hnew : ∀ row ∈ new, Documented row.payload) :
    ∀ row ∈ s'.memories.rows, Documented row.payload := by
  rw [hrows]
  exact List.forall_mem_append.mpr ⟨hold, hnew⟩

theorem createMemory_retells {W : Writer V S} {now data : String} {vector : Option V} {metadata : Entries} {skip : Bool}
    (h : FieldsBind metadata) : Effect.Within Retells (createMemory W now data vector metadata id skip) := by
  refine .bind (.read _) fun existing => ?_
  split
  · exact .pure _
  · intro s hold
    have hdocumented : Documented (createdPayload W now data metadata) := createdPayload_documented h
    rw [Effect.run_bind_attempt]
    rcases insertMemories_cases [⟨id, vector, createdPayload W now data metadata⟩] s with ⟨t, hrun, hrows, hhistory⟩ | ⟨e, hrun⟩
    · rw [hrun, finishCreate, Effect.run_bind, addHistory_run]
      · refine ⟨forall_documented hold hrows (by simpa using hdocumented), _, narrates_added
          (fun row => historyRecord row.id "ADD" .null (Payload.get row.payload "data")
            (Payload.get row.payload "created_at") (Payload.get row.payload "updated_at") false row.payload)
          (fun row _ => ⟨rfl, rfl, rfl, rfl, rfl⟩) hrows ?_⟩
        obtain ⟨text, htext⟩ := hdocumented.text
        have hdata : Payload.get (createdPayload W now data metadata) "data" = .str data := by
          rw [Payload.get, (textFields_of_agrees (createdPayload_agrees data (Agrees.refl _))).1]
          rfl
        simp [hhistory, hdata]
      · apply bindAll_ok
        simp only [HistoryRecord.parameters, historyRecord, List.forall_mem_cons]
        exact ⟨rfl, rfl, hdocumented.fields _ (by decide), hdocumented.fields _ (by decide),
          hdocumented.fields _ (by decide), hdocumented.fields _ (by decide), hdocumented.fields _ (by decide), by simp⟩
    · rw [hrun]
      refine (show Effect.Within Retells (finishCreate W _ data skip (.error e)) from ?_) s hold
      refine .bind (.read _) fun existing => ?_
      split
      · exact .pure _
      · exact .raise _

/-- What is persisted of the rows is appended, and nothing is recorded yet. -/
theorem insertEach_run_rows (rows : List (Row V)) (s : MemoryState V) :
    ∃ persisted s', (insertEach rows).run s = (.ok persisted, s') ∧ persisted ⊆ rows ∧
      s'.memories.rows = s.memories.rows ++ persisted ∧ s'.history = s.history := by
  refine Effect.loop_returns (I := fun done persisted (t : MemoryState V) => persisted ⊆ done ∧
    t.memories.rows = s.memories.rows ++ persisted ∧ t.history = s.history) ?_ ?_
  · exact ⟨List.Subset.refl _, (List.append_nil _).symm, rfl⟩
  · rintro done row rest persisted t - ⟨hsub, hrows, hhistory⟩
    rcases insertMemories_cases [row] t with ⟨t', hrun, hrows', hhistory'⟩ | ⟨e, hrun⟩
    · refine ⟨persisted ++ [row], t', by rw [Effect.run_bind_attempt, hrun]; rfl, ?_, ?_, hhistory'.trans hhistory⟩
      · exact List.append_subset.mpr ⟨List.subset_append_of_subset_left _ hsub, List.subset_append_right _ _⟩
      · rw [hrows', hrows, List.append_assoc]
    · exact ⟨persisted, t, by rw [Effect.run_bind_attempt, hrun]; rfl, List.subset_append_of_subset_left _ hsub, hrows,
        hhistory⟩

theorem persistRows_run_rows (rows : List (Row V)) (s : MemoryState V) :
    ∃ persisted s', (persistRows rows).run s = (.ok persisted, s') ∧ persisted ⊆ rows ∧
      s'.memories.rows = s.memories.rows ++ persisted ∧ s'.history = s.history := by
  rw [persistRows, Effect.run_bind_attempt]
  rcases insertMemories_cases rows s with ⟨t, hrun, hrows, hhistory⟩ | ⟨e, hrun⟩
  · rw [hrun]
    exact ⟨rows, t, rfl, List.Subset.refl _, hrows, hhistory⟩
  · rw [hrun]
    exact insertEach_run_rows rows s

theorem recordRows_run (h : ∀ row ∈ rows, Documented row.payload) (s : MemoryState V) :
    (recordRows rows).run s = (.ok (), { s with history := s.history ++ rows.map addedRecord }) := by
  have hbinds : ((rows.map addedRecord).forM fun r => bindAll r.parameters) = .ok () := by
    induction rows with
    | nil => rfl
    | cons row rows ih =>
      obtain ⟨hrow, hrest⟩ := List.forall_mem_cons.mp h
      have hone : bindAll (addedRecord row).parameters = .ok () := by
        apply bindAll_ok
        simp only [HistoryRecord.parameters, addedRecord, List.forall_mem_cons]
        exact ⟨rfl, hrow.get_text, hrow.fields _ (by decide), rfl, rfl, rfl, hrow.fields _ (by decide), by simp⟩
      show (do bindAll (addedRecord row).parameters; (rows.map addedRecord).forM fun r => bindAll r.parameters) = _
      rw [hone, ih hrest]
      rfl
  rw [recordRows, Effect.run_bind_attempt, batchAddHistory, Effect.run_bind, Effect.run_lift, hbinds]
  rfl

variable {W : Writer V S} {O : Providers V} {metadata : Entries} {scope : ScopeIds}

theorem addRaw_retells {unavailable : Bool} {added : List AddedMemory} {selected : Entries × String}
    (h : FieldsBind metadata) (hspoken : Spoken selected.1) :
    Effect.Within Retells (addRaw W O metadata scope unavailable added selected) := by
  refine .bind (createMemory_retells (rawMetadata_bind h hspoken)) fun created => ?_
  cases created with
  | none => exact .pure _
  | some id => exact .pure _

theorem addRawMessages_retells {messages : List Entries} {pre : Nat → Except PyError Unit} {unavailable : Bool}
    (h : FieldsBind metadata) (hspoken : ∀ message ∈ messages, Spoken message) :
    Effect.Within Retells (addRawMessages W O messages metadata scope pre unavailable) := by
  refine .bind (.read _) fun memories => .bindLift fun texts htexts => .bind (.lift _) fun _ => ?_
  refine .loop (fun added selected hselected => addRaw_retells h (hspoken _ ?_)) _
  obtain ⟨message, hmessage, htext⟩ := Fallible.exists_left_of_mem (Fallible.mapM_ok.mp htexts)
    ((selectNew_sublist texts).subset hselected)
  simp only [Fallible.bind_ok, Fallible.pure_ok] at htext
  obtain ⟨text, -, rfl⟩ := htext
  exact List.mem_of_mem_filter hmessage

theorem createProceduralMemory_retells {messages : List Value} {prompt : Option String}
    {pre : Nat → Except PyError Unit} (h : FieldsBind metadata) :
    Effect.Within Retells (createProceduralMemory W O messages metadata prompt pre) := by
  unfold createProceduralMemory
  split
  · exact .raise _
  · refine .bind (.lift _) fun _ => ?_
    split
    · exact .raise _
    · refine .bind (retells_of_untold (drawId_untold W)) fun id => ?_
      exact .bind (createMemory_retells (h.set fun _ => bindable_str)) fun created => .pure _

variable [Score S]

theorem finishAdd_retells {messages : List Entries} {t : MemoryState V} (hrows : t.memories.rows = s.memories.rows ++ rows)
    (hhistory : t.history = s.history) (hold : ∀ row ∈ s.memories.rows, Documented row.payload)
    (hnew : ∀ row ∈ rows, Documented row.payload) :
    (∀ row ∈ ((finishAdd W O messages scope rows).run t).2.memories.rows, Documented row.payload) ∧
      ∃ log, Narrates log s ((finishAdd W O messages scope rows).run t).2 := by
  have hsaved : Effect.Within Retells (saveMessages O.now messages (buildSessionScope scope) : Op V Unit) :=
    retells_of_untold (saveMessages_untold _ _ _)
  rw [finishAdd]
  cases rows with
  | nil =>
    have hstored : Retells s t := retells_of_rows (by rw [hrows, List.append_nil]) hhistory
    refine IsTrans.trans _ _ _ hstored ?_ hold
    exact Effect.Within.bind hsaved (fun _ => .pure _) t
  | cons row rows =>
    have hrecorded : Retells s { t with history := t.history ++ (row :: rows).map addedRecord } := by
      intro _
      refine ⟨forall_documented hold hrows hnew, _, narrates_added addedRecord ?_ hrows ?_⟩
      · exact fun row _ => ⟨rfl, rfl, rfl, rfl, rfl⟩
      · rw [hhistory]
    refine IsTrans.trans _ _ _ hrecorded ?_ hold
    show Retells _ ((recordRows (row :: rows) >>= _).run t).2
    rw [Effect.run_bind, recordRows_run hnew]
    refine Effect.Within.bind (R := Retells) ?_ (fun _ => .bind hsaved fun _ => .pure _) _
    exact .modify fun u => (linkBatch_untold W O _ _ u).retells

/-- What is persisted of the rows is recorded after it, entry by entry. -/
theorem persistAndFinish_retells {messages : List Entries} (h : ∀ row ∈ rows, Documented row.payload) :
    Effect.Within Retells (do
      let persisted ← persistRows rows
      finishAdd W O messages scope persisted) := by
  intro s hold
  obtain ⟨persisted, t, hrun, hsub, hrows, hhistory⟩ := persistRows_run_rows rows s
  rw [Effect.run_bind, hrun]
  exact finishAdd_retells hrows hhistory hold fun row hrow => h row (hsub hrow)

theorem addExtracted_retells {messages extracted : List Entries} {pre : Nat → Except PyError Unit}
    {existing : List (Row V)} (h : FieldsBind metadata) :
    Effect.Within Retells (addExtracted W O messages metadata scope pre existing extracted) := by
  refine .bind (.read _) fun memories => .bind (.lift _) fun _ => ?_
  split
  · exact .bind (retells_of_untold (saveMessages_untold _ _ _)) fun _ => .pure _
  · refine persistAndFinish_retells fun row hrow => ?_
    obtain ⟨memory, -, rfl⟩ := List.mem_map.mp hrow
    exact extractedPayload_documented h _

theorem addToVectorStore_retells {messages : List Entries} {infer : Bool} {prompt : Option String}
    {pre : Nat → Except PyError Unit} (h : FieldsBind metadata) (hspoken : ∀ message ∈ messages, Spoken message) :
    Effect.Within Retells (addToVectorStore W O messages metadata scope infer prompt pre) := by
  unfold addToVectorStore
  split
  · exact addRawMessages_retells h hspoken
  · split
    · exact addRawMessages_retells h hspoken
    · refine .bind (.read _) fun memories => .bind (.lift _) fun hits => ?_
      exact .bind (retells_of_untold (extractMemories_untold _ _ _ _ _ _)) fun extracted => addExtracted_retells h

end

/-! ## Requests -/

section

variable {W : Writer V S} {O : Providers V} {metadata : Entries}

/-- What a request says of time, actor, role and project can be recorded. -/
structure AddRequest.Tellable (request : AddRequest) : Prop where
  metadata : FieldsBind ((request.metadata.map Object.entries).getD [])
  messages : ∀ messages, messageList request.messages = .ok messages →
    ∀ message, Value.dict message ∈ messages → Spoken message

theorem textMessage_spoken {role : Value} {content : String} (h : Bindable role) : Spoken (textMessage role content) :=
  ⟨rfl, h⟩

theorem describedMessage_spoken {role image : Value} {message : Entries} (h : Bindable role)
    (hparsed : describedMessage O role image = .ok (some message)) : Spoken message := by
  unfold describedMessage at hparsed
  split at hparsed
  · cases hparsed
    exact textMessage_spoken h
  · cases hparsed

theorem parseVisionMessage_spoken {messages : List Value} {message : Entries} {value : Value}
    (h : ∀ message, Value.dict message ∈ messages → Spoken message) (hvalue : value ∈ messages)
    (hparsed : parseVisionMessage W O value = .ok (some message)) : Spoken message := by
  cases value with
  | dict given =>
    have hgiven := h given hvalue
    simp only [parseVisionMessage] at hparsed
    split at hparsed
    · cases hparsed
      exact hgiven
    · split at hparsed
      · cases hparsed
      · unfold parseContentList at hparsed
        split at hparsed
        · exact describedMessage_spoken hgiven.2 hparsed
        · simp only [Fallible.bind_ok, Fallible.pure_ok] at hparsed
          obtain ⟨texts, -, hparsed⟩ := hparsed
          split at hparsed
          · cases hparsed
          · cases hparsed
            exact textMessage_spoken hgiven.2
      · unfold parseContentDict at hparsed
        split at hparsed
        · cases hparsed
          exact hgiven
        · split at hparsed
          · cases hparsed
          · split at hparsed
            · exact describedMessage_spoken hgiven.2 hparsed
            · cases hparsed
      · cases hparsed
        exact hgiven
  | _ => cases hparsed

theorem parseVisionMessages_spoken {messages : List Value} {parsed : List Entries}
    (h : ∀ message, Value.dict message ∈ messages → Spoken message)
    (hparsed : parseVisionMessages W O messages = .ok parsed) : ∀ message ∈ parsed, Spoken message := by
  intro message hmessage
  simp only [parseVisionMessages, Fallible.bind_ok, Fallible.pure_ok] at hparsed
  obtain ⟨results, hresults, rfl⟩ := hparsed
  obtain ⟨result, hresult, hsome⟩ := List.mem_filterMap.mp hmessage
  cases hsome
  obtain ⟨value, hvalue, hvision⟩ := Fallible.exists_left_of_mem (Fallible.mapM_ok.mp hresults) hresult
  exact parseVisionMessage_spoken h hvalue hvision

theorem prepareAdd_bind {request : AddRequest} {messages : List Value} (h : request.Tellable)
    (hprepared : prepareAdd W request = .ok (metadata, scope, messages)) :
    FieldsBind metadata ∧ ∀ message, Value.dict message ∈ messages → Spoken message := by
  constructor
  · obtain ⟨stored, date, rfl, hbuild⟩ := prepareAdd_builds hprepared
    have hstored : FieldsBind stored := by
      simp only [buildFiltersAndMetadata, Fallible.bind_ok] at hbuild
      obtain ⟨given, -, hbuild⟩ := hbuild
      split at hbuild
      · cases hbuild
        refine h.metadata.update fun entry hentry _ => ?_
        obtain ⟨e, -, rfl⟩ := List.mem_map.mp hentry
        exact bindable_str
      · cases hbuild
    unfold withExpiration
    split
    · exact hstored
    · exact hstored.set fun hkey => absurd hkey (by decide)
  · unfold prepareAdd at hprepared
    split at hprepared
    · cases hprepared
    · simp only [Fallible.bind_ok] at hprepared
      obtain ⟨date, -, ⟨stored, ids⟩, -, hprepared⟩ := hprepared
      dsimp only at hprepared
      split at hprepared
      · cases hprepared
      · simp only [Fallible.bind_ok, Fallible.pure_ok] at hprepared
        obtain ⟨messages', hmessages, hprepared⟩ := hprepared
        cases hprepared
        exact h.messages _ hmessages

theorem add_retells [Score S] {request : AddRequest} (h : request.Tellable) : Effect.Within Retells (add W O request) := by
  refine .bindLift fun prepared hprepared => ?_
  obtain ⟨metadata, scope, messages⟩ := prepared
  obtain ⟨hmetadata, hspoken⟩ := prepareAdd_bind h hprepared
  dsimp only
  split
  · exact createProceduralMemory_retells hmetadata
  · exact .bindLift fun parsed hparsed => addToVectorStore_retells hmetadata (parseVisionMessages_spoken hspoken hparsed)

end

/-! ## Updates and deletions -/

section

variable {s t : MemoryState V} {row : Row V} {old : Payload} {W : Writer V S} {O : Providers V} {id text : String}

theorem memoryTexts_update {vector : Option V} {payload : Payload} (h : row ∈ s.memories.rows) :
    memoryTexts { s with memories := s.memories.update row.id vector (some payload) } =
      Dict.set row.id (Payload.get payload "data") (memoryTexts s) := by
  have hkey : row.id ∈ (memoryTexts s).map Prod.fst := by
    rw [memoryTexts, List.map_map]
    exact List.mem_map_of_mem h
  rw [Dict.set_of_mem (memoryTexts_unique s) hkey, memoryTexts, memoryTexts, Table.rows_update, List.map_map, List.map_map]
  refine List.map_congr_left fun row' _ => ?_
  by_cases hid : row'.id = row.id <;> simp [hid, Table.updateRow]

theorem memoryTexts_delete :
    memoryTexts { s with memories := s.memories.delete id } = Dict.erase id (memoryTexts s) := by
  rw [memoryTexts, memoryTexts, Dict.erase, Table.rows_delete, List.filter_map]
  rfl

/-- A change that one entry tells. -/
theorem retells_entry {r : HistoryRecord} {f : Unit → Op V Unit}
    (hdocumented : ∀ row ∈ t.memories.rows, Documented row.payload) (hbind : bindAll r.parameters = .ok ())
    (hhistory : t.history = s.history) (htexts : memoryTexts t = r.retell (memoryTexts s))
    (hright : RightEntry (memoryTexts s) r) (hf : Effect.Within Untold (f ())) :
    Retells s ((addHistory r >>= f).run t).2 := by
  have hentry : Retells s { t with history := t.history ++ [r] } := by
    intro _
    exact ⟨hdocumented, [r], by rw [← hhistory], htexts, hright, trivial⟩
  rw [Effect.run_bind, addHistory_run hbind]
  exact IsTrans.trans _ _ _ hentry (hf _).retells

theorem rewriteMemory_retells [Score S] {vector : Option V} {metadata : Option Entries} (hmetadata : MetadataBinds metadata)
    (hrow : row ∈ s.memories.rows) : Retells s ((rewriteMemory W O row text vector metadata).run s).2 := by
  intro hold
  have hdocumented : Documented (updatedPayload W O.now text metadata vector.isSome row.payload) :=
    updatedPayload_documented (hold row hrow).fields hmetadata
  have hdata : Payload.get (updatedPayload W O.now text metadata vector.isSome row.payload) "data" = .str text := by
    rw [Payload.get, (textFields_of_agrees updatedPayload_agrees).1]
    rfl
  rw [rewriteMemory, Effect.run_bind_modify]
  refine retells_entry ?_ ?_ rfl ?_ (.updated rfl rfl (lookup_memoryTexts hrow)) ?_ hold
  · intro row' hrow'
    obtain ⟨before, hbefore, rfl⟩ := List.mem_map.mp hrow'
    split
    · exact hdocumented
    · exact hold before hbefore
  · apply bindAll_ok
    simp only [HistoryRecord.parameters, historyRecord, List.forall_mem_cons]
    exact ⟨(hold row hrow).get_text, rfl, hdocumented.fields _ (by decide), hdocumented.fields _ (by decide),
      hdocumented.fields _ (by decide), hdocumented.fields _ (by decide), hdocumented.fields _ (by decide), by simp⟩
  · rw [memoryTexts_update hrow, hdata]
    rfl
  · split
    · exact .pure _
    · exact relinkMemory_untold _ _ _ _ _

/-- What the metadata of an update says of the recorded columns can be recorded. -/
def UpdateRequest.Tellable (request : UpdateRequest) : Prop := MetadataBinds (request.metadata.map Object.entries)

theorem updateMetadata_binds {request : UpdateRequest} {metadata : Option Entries} (h : request.Tellable)
    (hmetadata : updateMetadata W request = .ok metadata) : MetadataBinds metadata := by
  unfold updateMetadata at hmetadata
  split at hmetadata
  · cases hmetadata
    exact h
  · simp only [Fallible.bind_ok, Fallible.pure_ok] at hmetadata
    obtain ⟨date, -, rfl⟩ := hmetadata
    intro entry hentry hkey
    rcases Dict.mem_set hentry with rfl | hentry
    · exact absurd (show "expiration_date" ∈ recordedKeys from hkey) (by decide)
    · exact h entry hentry hkey

theorem update_retells [Score S] {request : UpdateRequest} (h : request.Tellable) :
    Effect.Within Retells (update W O request) := by
  unfold update
  split
  · exact .raise _
  · refine .bindLift fun metadata hmetadata s => ?_
    rw [updateMemory, getMemory, Effect.run_bind_read]
    cases hrow : s.memories.get request.memoryId with
    | none => exact Std.Refl.refl s
    | some row =>
      cases htext : updateText request.memoryId request.data row.payload with
      | error e =>
        simp only [Effect.run_bind, Effect.run_lift, htext]
        exact Std.Refl.refl s
      | ok text =>
        simp only [Effect.run_bind, Effect.run_lift, htext]
        exact rewriteMemory_retells (updateMetadata_binds h hmetadata) (Table.get_mem hrow).1

theorem normalizeTimestamp_bind {v v' : Value} (h : Bindable v) (hv : normalizeTimestamp W v = .ok v') : Bindable v' := by
  unfold normalizeTimestamp at hv
  split at hv
  · split at hv
    · cases hv
      exact bindable_str
    · cases hv
  · cases hv
    exact h

theorem deleteRow_retells (hrow : row ∈ s.memories.rows) : Retells s ((deleteRow W O row).run s).2 := by
  intro hold
  cases hcreated : normalizeTimestamp W (Payload.get row.payload "created_at") with
  | error e =>
    rw [deleteRow, Effect.run_bind, Effect.run_lift, hcreated]
    exact Std.Refl.refl (r := Retells) s hold
  | ok createdAt =>
    have hrecorded := (hold row hrow).fields
    have hprevious : (row.payload.lookup "data").getD (.str "") = Payload.get row.payload "data" := by
      obtain ⟨text, htext⟩ := (hold row hrow).text
      rw [Payload.get, htext]
      rfl
    rw [deleteRow, Effect.run_bind, Effect.run_lift, hcreated]
    dsimp only
    rw [Effect.run_bind_modify, hprevious]
    refine retells_entry ?_ ?_ rfl memoryTexts_delete (.deleted rfl rfl rfl (lookup_memoryTexts hrow)) ?_ hold
    · exact fun row' hrow' => hold row' (List.mem_of_mem_filter hrow')
    · apply bindAll_ok
      simp only [HistoryRecord.parameters, historyRecord, List.forall_mem_cons]
      exact ⟨(hold row hrow).get_text, rfl, normalizeTimestamp_bind (hrecorded _ (by decide)) hcreated, rfl,
        hrecorded _ (by decide), hrecorded _ (by decide), hrecorded _ (by decide), by simp⟩
    · exact removeMemoryFromEntityStore_untold _ _ _ _

theorem deleteFound_retells (e : PyError) : Effect.Within Retells (do
    match ← getMemory id with
    | none => Effect.raise e
    | some row => deleteRow W O row) := by
  intro s
  rw [getMemory, Effect.run_bind_read]
  cases hrow : s.memories.get id with
  | none => exact Std.Refl.refl s
  | some row => exact deleteRow_retells (Table.get_mem hrow).1

theorem deleteAll_retells (scope : DeleteScope) : Effect.Within Retells (deleteAll W O scope) := by
  refine .bind (.lift _) fun ids => ?_
  split
  · exact .raise _
  · refine .bind (.read _) fun memories => .bind (.lift _) fun rows => ?_
    exact .loop (fun _ row _ => deleteFound_retells _) _

end

/-! ## Runs -/

/-- A call that changes memories, with the providers that answer while it runs. -/
inductive RecordedCall (V : Type) where
  | add (O : Providers V) (request : AddRequest)
  | update (O : Providers V) (request : UpdateRequest)
  | delete (O : Providers V) (id : String)
  | deleteAll (O : Providers V) (scope : DeleteScope)

/-- The state a call leaves, whether it returned or raised. -/
def RecordedCall.perform [Score S] (W : Writer V S) : RecordedCall V → MemoryState V → MemoryState V
  | .add O request, s => ((YiQiao.add W O request).run s).2
  | .update O request, s => ((YiQiao.update W O request).run s).2
  | .delete O id, s => ((YiQiao.delete W O id).run s).2
  | .deleteAll O scope, s => ((YiQiao.deleteAll W O scope).run s).2

def RecordedCall.Tellable : RecordedCall V → Prop
  | .add _ request => request.Tellable
  | .update _ request => request.Tellable
  | _ => True

/-- The state after some calls, one after the other. -/
def performRecorded [Score S] (W : Writer V S) (s : MemoryState V) (calls : List (RecordedCall V)) : MemoryState V :=
  calls.foldl (fun s call => call.perform W s) s

section

variable [Score S] {W : Writer V S} {s : MemoryState V}

theorem perform_retells {call : RecordedCall V} (h : call.Tellable) : Retells s (call.perform W s) := by
  cases call with
  | add O request => exact add_retells h s
  | update O request => exact update_retells h s
  | delete O id => exact deleteFound_retells _ s
  | deleteAll O scope => exact deleteAll_retells scope s

theorem performRecorded_retells {calls : List (RecordedCall V)} (h : ∀ call ∈ calls, call.Tellable) :
    Retells s (performRecorded W s calls) := by
  induction calls generalizing s with
  | nil => exact Std.Refl.refl s
  | cons call calls ih =>
    obtain ⟨hcall, hcalls⟩ := List.forall_mem_cons.mp h
    exact IsTrans.trans _ _ _ (perform_retells hcall) (ih hcalls)

end

/-- The memory of `addForUser` is reworded, and deleted with those of its user. -/
def toldCalls : List (RecordedCall Unit) :=
  [.add (.silent "now") addForUser, .update (.silent "later") ⟨"user_id=u\x00a", some "b", none, none⟩,
    .deleteAll (.silent "last") userScope]

end YiQiao
