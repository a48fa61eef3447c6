import Mathlib.Data.List.Forall2
import YiQiao.Memory.Identity

/-!
# Chronicles

A chronicle runs adds, imports and updates and notes for every new row the scope of the request, the
time of creation and the actor it was born with.
-/

namespace YiQiao

open Lib Filters

variable {V S : Type}

/-! ## New rows -/

/-- The hash and the lemmas are those of the text; an import hashes the text as it stands. -/
def Digests (W : Writer V S) (imported : Bool) (payload : Payload) : Prop :=
  ∃ text, payload.lookup "data" = some (.str text) ∧
    payload.lookup "text_lemmatized" = some (.str (W.lemmatize text)) ∧
    ∃ hash, payload.lookup "hash" = some (.str hash) ∧
      (hash = W.contentHash text ∨ imported = true ∧ hash = W.md5 text)

/-- What the code promises of a row: the scope it was created in, and the digests of its text. -/
structure Born (W : Writer V S) (scope : ScopeIds) (imported : Bool) (payload : Payload) : Prop where
  scope : ∀ key ∈ sessionScopeKeys, Payload.get payload key = scopeValue scope key
  digests : Digests W imported payload

theorem textFields_of_agrees {W : Writer V S} {text hash : String} {payload metadata : Entries}
    (h : Agrees payload (textBase W text hash metadata)) :
    payload.lookup "data" = some (.str text) ∧
      payload.lookup "text_lemmatized" = some (.str (W.lemmatize text)) ∧
      payload.lookup "hash" = some (.str hash) := by
  refine ⟨?_, ?_, ?_⟩ <;> rw [h _ (by decide)] <;> simp [textBase, Dict.update, Dict.lookup_set]

theorem textBase_digests {W : Writer V S} {imported : Bool} {text hash : String} {payload metadata : Entries}
    (h : Agrees payload (textBase W text hash metadata))
    (hhash : hash = W.contentHash text ∨ imported = true ∧ hash = W.md5 text) :
    Digests W imported payload := by
  obtain ⟨hdata, hlemmatized, hstored⟩ := textFields_of_agrees h
  exact ⟨text, hdata, hlemmatized, hash, hstored, hhash⟩

theorem lookup_of_agrees {W : Writer V S} {text hash key : String} {payload metadata : Entries}
    (h : Agrees payload (textBase W text hash metadata)) (hk : key ∈ sessionScopeKeys) :
    payload.lookup key = metadata.lookup key := by
  have hfree : ∀ k ∈ sessionScopeKeys, k ∉ recordKeys ∧ k ∉ textKeys := by decide
  rw [h key (hfree key hk).1, textBase_lookup (hfree key hk).2]

theorem born_of_agrees {W : Writer V S} {scope : ScopeIds} {imported : Bool} {text hash : String}
    {payload metadata : Entries} (hscope : ∀ key ∈ sessionScopeKeys, Payload.get metadata key = scopeValue scope key)
    (h : Agrees payload (textBase W text hash metadata))
    (hhash : hash = W.contentHash text ∨ imported = true ∧ hash = W.md5 text) :
    Born W scope imported payload where
  scope := fun key hk => by
    rw [Payload.get, lookup_of_agrees h hk]
    exact hscope key hk
  digests := textBase_digests h hhash

/-! ## What each operation leaves -/

/-- The scope a request runs in. -/
def AddRequest.scope (W : Writer V S) (request : AddRequest) : ScopeIds :=
  match prepareAdd W request with
  | .ok (_, scope, _) => scope
  | .error _ => []

theorem prepareAdd_builds {W : Writer V S} {request : AddRequest} {metadata : Entries} {scope : ScopeIds}
    {messages : List Value} (h : prepareAdd W request = .ok (metadata, scope, messages)) :
    ∃ stored date, metadata = withExpiration date stored ∧
      buildFiltersAndMetadata request.ids (request.metadata.map Object.entries) = .ok (stored, scope) := by
  unfold prepareAdd at h
  split at h
  · cases h
  · simp only [Fallible.bind_ok] at h
    obtain ⟨date, _, ⟨stored, scope'⟩, hbuild, h⟩ := h
    dsimp only at h
    split at h
    · cases h
    · simp only [Fallible.bind_ok, Fallible.pure_ok] at h
      obtain ⟨messages', _, h⟩ := h
      cases h
      exact ⟨stored, date, rfl, hbuild⟩

theorem withExpiration_lookup {date : Value} {metadata : Entries} {key : String} (hk : key ∈ sessionScopeKeys) :
    (withExpiration date metadata).lookup key = metadata.lookup key := by
  have hne : key ≠ "expiration_date" := by
    rintro rfl
    exact absurd hk (by decide)
  unfold withExpiration
  split
  · rfl
  · exact Dict.lookup_set_of_ne hne _ _

theorem prepareAdd_scope {W : Writer V S} {request : AddRequest} {metadata : Entries} {scope : ScopeIds}
    {messages : List Value} (h : prepareAdd W request = .ok (metadata, scope, messages))
    (hscoped : request.Scoped) :
    ∀ key ∈ sessionScopeKeys, Payload.get metadata key = scopeValue (request.scope W) key := by
  intro key hk
  rw [AddRequest.scope, h]
  obtain ⟨stored, date, rfl, hbuild⟩ := prepareAdd_builds h
  rw [Payload.get, withExpiration_lookup hk]
  exact metadata_scope hbuild hscoped hk

section

variable {W : Writer V S} {O : Providers V} {request : AddRequest}

theorem procedural_within {P : Row V → Prop} {metadata : Entries} {messages : List Value}
    {prompt : Option String} {pre : Nat → Except PyError Unit}
    (h : ∀ text payload, Agrees payload (textBase W text (W.contentHash text) metadata) →
      ∀ id vector, P ⟨id, vector, payload⟩) :
    Effect.Within (Grows P) (createProceduralMemory W O messages metadata prompt pre) :=
  createProceduralMemory_within fun _ text _ _ => h text _
    (createdPayload_agrees text ((Agrees.refl metadata).set (k := "memory_type") (by decide) _)) _ _

variable [Score S]

/-- The payloads of new rows are the metadata of the request with the fields of their texts. -/
theorem add_grows {P : Row V → Prop} (h : ∀ metadata scope messages,
      prepareAdd W request = .ok (metadata, scope, messages) →
      ∀ text payload, Agrees payload (textBase W text (W.contentHash text) metadata) →
      ∀ id vector, P ⟨id, vector, payload⟩) :
    Effect.Within (Grows P) (add W O request) := by
  refine .bindLift fun prepared hprepared => ?_
  obtain ⟨metadata, scope, messages⟩ := prepared
  have hP := h metadata scope messages hprepared
  dsimp only
  split
  · exact procedural_within hP
  · refine .bind (.lift _) fun parsed => addToVectorStore_within ?_ ?_
    · intro message text unavailable
      exact hP text _ (createdPayload_agrees text rawMetadata_agrees) _ _
    · intro texts memory
      exact hP _ _ (extractedPayload_agrees _) _ _

/-- Rows that `add` creates carry the scope of the request. -/
theorem add_within (h : request.Scoped) :
    Effect.Within (Grows fun row => Born W (request.scope W) false row.payload) (add W O request) :=
  add_grows fun _ _ _ hprepared _ _ hagrees _ _ =>
    born_of_agrees (prepareAdd_scope hprepared h) hagrees (.inl rfl)

/-- So do the rows of an import. -/
theorem addWithContext_within {context : OperationContext} (h : request.Scoped) :
    Effect.Within (Grows fun row => Born W (request.scope W) true row.payload)
      (addWithContext W O request context) := by
  refine .bindLift fun prepared hprepared => ?_
  obtain ⟨metadata, scope, messages⟩ := prepared
  have hscope := prepareAdd_scope hprepared h
  dsimp only
  split
  · exact procedural_within fun text payload hagrees _ _ => born_of_agrees hscope hagrees (.inl rfl)
  · refine .bind (.lift _) fun parsed => ?_
    split
    · refine .bind (addImported_within fun existing _ _ _ memory _ => ?_) fun rows => .pure _
      exact born_of_agrees hscope (importedPayload_agrees existing) (.inr ⟨rfl, rfl⟩)
    · exact .raise _

end

/-! ## Chronicles -/

/-- What a row was born with. -/
structure Birth where
  id : String
  scope : ScopeIds
  imported : Bool
  createdAt : Value
  actor : Value

/-- A writing call, with the providers that answer while it runs. -/
inductive WriteCall (V : Type) where
  | add (O : Providers V) (request : AddRequest)
  | importChunk (O : Providers V) (request : AddRequest) (context : OperationContext)
  | update (O : Providers V) (request : UpdateRequest)

structure Chronicle (V : Type) where
  state : MemoryState V
  births : List Birth

/-- The row is still what it was born as. -/
structure Identity (W : Writer V S) (birth : Birth) (row : Row V) : Prop where
  id : birth.id = row.id
  born : Born W birth.scope birth.imported row.payload
  createdAt : Payload.get row.payload "created_at" = birth.createdAt
  actor : Payload.get row.payload "actor_id" = birth.actor

/-- Every row has its birth and is still what it was born as. -/
def Chronicle.Identified (W : Writer V S) (c : Chronicle V) : Prop :=
  List.Forall₂ (Identity W) c.births c.state.memories.rows

/-- The state a call leaves, whether it returned or raised. -/
def WriteCall.perform [Score S] (W : Writer V S) : WriteCall V → MemoryState V → MemoryState V
  | .add O request, s => ((YiQiao.add W O request).run s).2
  | .importChunk O request context, s => ((addWithContext W O request context).run s).2
  | .update O request, s => ((YiQiao.update W O request).run s).2

/-- The birth of a row that a call created. -/
def WriteCall.birth (W : Writer V S) : WriteCall V → Row V → Birth
  | .add _ request, row => ⟨row.id, request.scope W, false, Payload.get row.payload "created_at",
      Payload.get row.payload "actor_id"⟩
  | .importChunk _ request _, row => ⟨row.id, request.scope W, true, Payload.get row.payload "created_at",
      Payload.get row.payload "actor_id"⟩
  | .update .., row => ⟨row.id, [], false, Payload.get row.payload "created_at",
      Payload.get row.payload "actor_id"⟩

/-- The rows of `s'` that `s` does not have. -/
def newborn (s s' : MemoryState V) : List (Row V) :=
  s'.memories.rows.filter fun row => row.id ∉ s.memories.rows.map Row.id

def Chronicle.step [Score S] (W : Writer V S) (c : Chronicle V) (call : WriteCall V) : Chronicle V where
  state := call.perform W c.state
  births := c.births ++ (newborn c.state (call.perform W c.state)).map (call.birth W)

def Chronicle.run [Score S] (W : Writer V S) (c : Chronicle V) (calls : List (WriteCall V)) : Chronicle V :=
  calls.foldl (Chronicle.step W) c

/-- The metadata of an update gives no identifier but those the row has, and no actor where it has
none. -/
structure UpdateRequest.Faithful (request : UpdateRequest) (payload : Payload) : Prop where
  scope : ∀ key ∈ sessionScopeKeys, ∀ v, ((request.metadata.map Object.entries).getD []).lookup key = some v →
    v = Payload.get payload key
  actor : payload.lookup "actor_id" = none →
    Payload.get ((request.metadata.map Object.entries).getD []) "actor_id" = .null

/-- The metadata of the call leaves the identity of the rows alone. -/
def WriteCall.Faithful : WriteCall V → MemoryState V → Prop
  | .add _ request, _ => request.Scoped
  | .importChunk _ request _, _ => request.Scoped
  | .update _ request, s => ∀ row, s.memories.get request.memoryId = some row → request.Faithful row.payload

/-- Every call of the run is faithful in the state it meets. -/
def Chronicle.Faithful [Score S] (W : Writer V S) : Chronicle V → List (WriteCall V) → Prop
  | _, [] => True
  | c, call :: calls => call.Faithful c.state ∧ (c.step W call).Faithful W calls

/-! ## The identity is kept -/

section

variable {W : Writer V S}

theorem newborn_of_append {s s' : MemoryState V} {rows : List (Row V)}
    (h : s'.memories.rows = s.memories.rows ++ rows) : newborn s s' = rows := by
  have hunique := s'.memories.unique
  rw [h, List.map_append, List.nodup_append] at hunique
  rw [newborn, h, List.filter_append, List.filter_eq_nil_iff.mpr, List.filter_eq_self.mpr, List.nil_append]
  · intro row hrow
    simpa using fun old hold hid => hunique.2.2 old.id (List.mem_map_of_mem hold) row.id
      (List.mem_map_of_mem hrow) hid
  · intro row hrow
    simpa using ⟨row, hrow, rfl⟩

/-- Rows that are appended with their births keep a chronicle identified. -/
theorem identified_append {c : Chronicle V} {s' : MemoryState V} {scope : ScopeIds} {imported : Bool}
    {birth : Row V → Birth} (hc : c.Identified W)
    (hgrows : Grows (fun row => Born W scope imported row.payload) c.state s')
    (hbirth : ∀ row, birth row = ⟨row.id, scope, imported, Payload.get row.payload "created_at",
      Payload.get row.payload "actor_id"⟩) :
    Chronicle.Identified W ⟨s', c.births ++ (newborn c.state s').map birth⟩ := by
  obtain ⟨rows, hrows, hborn⟩ := hgrows
  rw [Chronicle.Identified, newborn_of_append hrows]
  rw [hrows]
  refine List.rel_append hc ?_
  rw [List.forall₂_map_left_iff, List.forall₂_same]
  intro row hrow
  rw [hbirth]
  exact ⟨rfl, hborn row hrow, rfl, rfl⟩

theorem updateMetadata_lookup {request : UpdateRequest} {metadata : Option Entries}
    (h : updateMetadata W request = .ok metadata) :
    Dict.Unique (metadata.getD []) ∧ ∀ key ≠ "expiration_date",
      (metadata.getD []).lookup key = ((request.metadata.map Object.entries).getD []).lookup key := by
  have hunique : Dict.Unique ((request.metadata.map Object.entries).getD []) := by
    cases request.metadata with
    | none => exact List.nodup_nil
    | some object => exact object.wf.1
  unfold updateMetadata at h
  split at h
  · cases h
    exact ⟨hunique, fun _ _ => rfl⟩
  · simp only [Fallible.bind_ok, Fallible.pure_ok] at h
    obtain ⟨date, _, rfl⟩ := h
    exact ⟨hunique.set _ _, fun key hk => Dict.lookup_set_of_ne hk _ _⟩

theorem updatedPayload_born {request : UpdateRequest} {now text : String} {metadata : Option Entries}
    {embedded : Bool} {scope : ScopeIds} {imported : Bool} {old : Payload}
    (hmetadata : updateMetadata W request = .ok metadata) (hfaithful : request.Faithful old)
    (hborn : Born W scope imported old) :
    Born W scope imported (updatedPayload W now text metadata embedded old) := by
  obtain ⟨hunique, hlookup⟩ := updateMetadata_lookup hmetadata
  refine born_of_agrees (fun key hk => ?_) updatedPayload_agrees (.inl rfl)
  have hne : key ≠ "expiration_date" := by
    rintro rfl
    exact absurd hk (by decide)
  rw [Payload.get, Dict.lookup_update _ hunique, hlookup key hne, ← hborn.scope key hk]
  cases hv : ((request.metadata.map Object.entries).getD []).lookup key with
  | some v => exact hfaithful.scope key hk v hv
  | none => rfl

/-- Rewriting a row as a faithful update asks keeps its identity. -/
theorem Identity.update {request : UpdateRequest} {now text : String} {metadata : Option Entries}
    {vector : Option V} {birth : Birth} {row : Row V} (h : Identity W birth row)
    (hmetadata : updateMetadata W request = .ok metadata) (hfaithful : request.Faithful row.payload) :
    Identity W birth (Table.updateRow vector
      (some (updatedPayload W now text metadata vector.isSome row.payload)) row) where
  id := h.id
  born := updatedPayload_born hmetadata hfaithful h.born
  createdAt := updatedPayload_createdAt.trans h.createdAt
  actor := by
    obtain ⟨hunique, hlookup⟩ := updateMetadata_lookup hmetadata
    refine (updatedPayload_actor hunique fun hnone => ?_).trans h.actor
    rw [Payload.get, hlookup "actor_id" (by decide)]
    exact hfaithful.actor hnone

theorem newborn_of_ids {s s' : MemoryState V}
    (h : s'.memories.rows.map Row.id = s.memories.rows.map Row.id) : newborn s s' = [] := by
  rw [newborn, ← h, List.filter_eq_nil_iff]
  intro row hrow
  simpa using ⟨row, hrow, rfl⟩

end

section

variable [Score S] {W : Writer V S} {c : Chronicle V}

/-- A call that creates no row leaves the births alone. -/
theorem step_of_ids {call : WriteCall V}
    (h : (call.perform W c.state).memories.rows.map Row.id = c.state.memories.rows.map Row.id) :
    c.step W call = ⟨call.perform W c.state, c.births⟩ := by
  rw [Chronicle.step, newborn_of_ids h, List.map_nil, List.append_nil]

theorem identified_update {O : Providers V} {request : UpdateRequest} (hc : c.Identified W)
    (hfaithful : (WriteCall.update O request).Faithful c.state) :
    (c.step W (.update O request)).Identified W := by
  rcases update_memories W O request c.state with hsame | ⟨row, text, metadata, hrewritten⟩
  · have hrows : ((WriteCall.update O request).perform W c.state).memories = c.state.memories := hsame
    rw [step_of_ids (by rw [hrows]), Chronicle.Identified, hrows]
    exact hc
  · have hrows : ((WriteCall.update O request).perform W c.state).memories = _ := hrewritten.memories
    rw [step_of_ids (by rw [hrows, Table.ids_update]), Chronicle.Identified, hrows, Table.rows_update,
      List.forall₂_map_right_iff]
    obtain ⟨hlength, hzip⟩ := List.forall₂_iff_zip.mp hc
    refine List.forall₂_iff_zip.mpr ⟨hlength, fun {birth old} hmem => ?_⟩
    split
    · rename_i hid
      cases Table.eq_of_id (List.of_mem_zip hmem).2 (Table.get_mem hrewritten.found).1 hid
      exact (hzip hmem).update hrewritten.merges (hfaithful _ hrewritten.found)
    · exact hzip hmem

/-- A faithful call keeps every row what it was born as. -/
theorem identified_step {call : WriteCall V} (hc : c.Identified W) (hfaithful : call.Faithful c.state) :
    (c.step W call).Identified W := by
  cases call with
  | add O request => exact identified_append hc (add_within hfaithful _) fun _ => rfl
  | importChunk O request context => exact identified_append hc (addWithContext_within hfaithful _) fun _ => rfl
  | update O request => exact identified_update hc hfaithful

theorem identified_run {calls : List (WriteCall V)} (hc : c.Identified W) (hfaithful : c.Faithful W calls) :
    (c.run W calls).Identified W := by
  induction calls generalizing c with
  | nil => exact hc
  | cons call calls ih => exact ih (identified_step hc hfaithful.1) hfaithful.2

theorem Chronicle.Faithful.of_prefix {done calls : List (WriteCall V)} (h : c.Faithful W calls)
    (hdone : done <+: calls) : c.Faithful W done := by
  induction done generalizing c calls with
  | nil => trivial
  | cons call done ih =>
      obtain ⟨rest, rfl⟩ := hdone
      exact ⟨h.1, ih h.2 (List.prefix_append done rest)⟩

/-- In a run of faithful calls over a collection that was empty, every row has at all times the scope
of the request that created it, its time of creation, its actor, and the digests of its text. -/
theorem identity_kept {s : MemoryState V} (hs : s.memories.rows = []) {calls : List (WriteCall V)}
    (hfaithful : Chronicle.Faithful W ⟨s, []⟩ calls) {done : List (WriteCall V)} (hdone : done <+: calls) :
    (Chronicle.run W ⟨s, []⟩ done).Identified W :=
  identified_run (by rw [Chronicle.Identified, hs]; exact .nil) (hfaithful.of_prefix hdone)

end

/-! ## An update moves a memory -/

def noMemories : MemoryState V where
  memories := .empty
  entities := .empty
  entityStoreOpen := false
  history := []
  messages := []
  supply := 0

/-- `add("a", user_id="u", infer=False)`. -/
def addForUser : AddRequest where
  messages := .str "a"
  ids := ⟨some "u", none, none, none⟩
  metadata := none
  timestamp := none
  expirationDate := .null
  infer := false
  memoryType := none
  prompt := none
  preVectorWrite := fun _ => .ok ()

/-- `update(id, metadata={"user_id": "other"})` on the memory that `addForUser` leaves. -/
def moveToOther : UpdateRequest where
  memoryId := "user_id=u\x00a"
  data := none
  metadata := some ⟨[("user_id", .str "other")], by simp [Value.WF, Value.WFEntries, Dict.Unique]⟩
  expirationDate := none

/-- The memory of `addForUser` under a new text. -/
def rewordedRun : List (WriteCall Unit) :=
  [.add (.silent "now") addForUser, .update (.silent "later") ⟨"user_id=u\x00a", some "b", none, none⟩]

/-- A memory that is reworded stays what it was born as. -/
theorem identity_kept_reworded : Chronicle.Identified (Writer.plain .ascii : Writer Unit ℚ)
    (Chronicle.run (Writer.plain .ascii : Writer Unit ℚ) ⟨noMemories, []⟩ rewordedRun) := by
  have hadd : addForUser.Scoped := by
    simp [AddRequest.Scoped, AddIds.arguments, addForUser, Payload.get]
  have hfaithful : Chronicle.Faithful (Writer.plain .ascii : Writer Unit ℚ) ⟨noMemories, []⟩ rewordedRun :=
    ⟨hadd, fun _ _ => ⟨by simp, fun _ => rfl⟩, trivial⟩
  exact identity_kept rfl hfaithful (List.prefix_refl _)

/-- An update whose metadata names another user moves the memory there. -/
theorem update_moves_memory : ¬ ∀ (W : Writer Unit ℚ) (calls : List (WriteCall Unit)),
    (Chronicle.run W ⟨noMemories, []⟩ calls).Identified W := by
  intro h
  have hrun := h (.plain .ascii) [.add (.silent "now") addForUser, .update (.silent "now") moveToOther]
  simp only [Chronicle.Identified, Chronicle.run, List.foldl, Chronicle.step, WriteCall.perform, add,
    addToVectorStore, addRawMessages, existingPayloadValues_scope] at hrun
  cases hrun with
  | cons hfirst _ =>
      have huser : Value.str "other" = .str "u" := hfirst.born.scope "user_id" (by decide)
      simp at huser

end YiQiao
