import YiQiao.Lib.Runs
import YiQiao.Memory.Identity
import YiQiao.Server.Rollback

/-!
# Rows that wait for their embedding

A row without a vector says in its payload that its embedding is pending. Adds, updates, re-embedding batches and
rollbacks write vectors and statuses, each in a transaction of its own, and others may come between what an operation
reads and what it writes.
-/

namespace YiQiao

open Lib Fallible Filters

variable {F E V S : Type} {dims : Nat}

/-! ## What the embedder answers -/

/-- What the provider answers for a text is an embedding of it. -/
structure Providers.EmbedsAs (O : Providers V) (Embeds : String → V → Prop) : Prop where
  embed : ∀ action text, ∀ v ∈ O.embed action text, Embeds text v
  embedBatch : ∀ action texts vectors, O.embedBatch action texts = some vectors →
    ∀ e ∈ texts.zip vectors, Embeds e.1 e.2

/-- Providers that may fail, but answer no vector of another text. -/
abbrev EmbeddingProviders (Embeds : String → V → Prop) := { O : Providers V // O.EmbedsAs Embeds }

/-- A row without a vector is pending, and a vector is an embedding of the row's text. -/
structure Row.Embedded (Embeds : String → V → Prop) (row : Row V) : Prop where
  waits : row.vector = none ↔ Table.isPending row.payload = true
  embeds : ∀ v ∈ row.vector, ∃ text, Payload.get row.payload "data" = .str text ∧ Embeds text v

/-! ## New rows -/

/-- A memory that adding inserts: a message as it is, or what was extracted, summarized or imported. -/
inductive NewMemory (Embeds : String → V → Prop) where
  | raw (message : Entries) (text : String) (unavailable : Bool)
  | extracted (texts : List String) (memory : Entries)
  | procedural (id text : String) (vector : V) (embeds : Embeds text vector)
  | imported (context : OperationContext) (existing : List (Row V)) (memory : Entries) (vector : V)
      (embeds : Embeds (extractedText memory) vector)

/-- The row of a new memory. -/
def NewMemory.row {Embeds : String → V → Prop} (W : Writer V S) (O : Providers V) (metadata : Entries)
    (scope : ScopeIds) : NewMemory Embeds → Row V
  | .raw message text unavailable =>
      let vector := rawVector O unavailable text
      ⟨memoryIdForHash W scope (W.contentHash text), vector,
        createdPayload W O.now text (rawMetadata W metadata message vector.isNone)⟩
  | .extracted texts memory => extractedRow W O metadata scope (embedTexts O texts) memory
  | .procedural id text vector _ =>
      ⟨id, some vector, createdPayload W O.now text (Dict.set "memory_type" (.str "procedural_memory") metadata)⟩
  | .imported context existing memory vector _ => importedRow W O.now context existing metadata (memory, vector)

/-- Only extraction takes a status away that the metadata brings. -/
def NewMemory.clears {Embeds : String → V → Prop} : NewMemory Embeds → Bool
  | .extracted _ _ => true
  | _ => false

/-! ## Operations in progress -/

/-- An update between its read and its write. -/
structure PendingRewrite (V : Type) where
  row : Row V
  text : String
  vector : Option V
  metadata : Option Entries
  now : String

/-- The table, the updates and batches in progress, and the rows that backups were made of. -/
structure VectorWorld (V : Type) where
  table : Table V
  rewrites : List (PendingRewrite V)
  batches : List (List (ScannedRow V))
  backups : List (Row V)

/-- No operation is in progress. -/
def VectorWorld.Idle (w : VectorWorld V) : Prop := w.rewrites = [] ∧ w.batches = []

/-- What an update reads; nothing is left in progress where it raises. -/
def readForUpdate (W : Writer V S) (O : Providers V) (request : UpdateRequest) (t : Table V) :
    Option (PendingRewrite V) := do
  let metadata ← (updateMetadata W request).toOption
  let row ← t.get request.memoryId
  let text ← (updateText request.memoryId request.data row.payload).toOption
  pure ⟨row, text, request.data.bind (O.embed .update), metadata, O.now⟩

/-- What an update writes. -/
def PendingRewrite.write (W : Writer V S) (u : PendingRewrite V) (t : Table V) : Table V :=
  t.update u.row.id u.vector (some (updatedPayload W u.now u.text u.metadata u.vector.isSome u.row.payload))

inductive VectorStep (F E : Type) {dims : Nat} (Embeds : String → Embedding F dims → Prop) where
  | insert (O : EmbeddingProviders Embeds) (metadata : Entries) (scope : ScopeIds) (memories : List (NewMemory Embeds))
  | read (O : EmbeddingProviders Embeds) (request : UpdateRequest)
  | write (update : Nat)
  | delete (id : String)
  | scan (filters : Entries) (after : Option String) (limit : Nat)
  | replace (batch : Nat) (R : ReembedWorld F E dims) (B : BatchEmbedder E)
      (embeds : ∀ text v, EmbeddingOf R B text v → Embeds text v)
  | restore (backups : List Nat)

section

variable [DecidableEq F] {Embeds : String → Embedding F dims → Prop}

/-- The table after a transaction, which a failure leaves as it was. -/
def committed (t : Table (Embedding F dims)) (items : List (VectorItem (Embedding F dims))) :
    Table (Embedding F dims) :=
  (updateVectors t items).toOption.getD t

/-- One access to the store; a rollback refuses a file that repeats a row. -/
def VectorWorld.step (W : Writer (Embedding F dims) S) (w : VectorWorld (Embedding F dims)) :
    VectorStep F E Embeds → Option (VectorWorld (Embedding F dims))
  | .insert O metadata scope memories =>
      some { w with table :=
        (w.table.insert (memories.map (NewMemory.row W O.1 metadata scope))).toOption.getD w.table }
  | .read O request =>
      some { w with rewrites := w.rewrites ++ (readForUpdate W O.1 request w.table).toList }
  | .write update => do
      let u ← w.rewrites[update]?
      some { w with table := u.write W w.table, rewrites := w.rewrites.eraseIdx update }
  | .delete id => some { w with table := w.table.delete id }
  | .scan filters after limit =>
      match scanRows W.platform w.table filters after limit with
      | .ok rows => some { w with
          batches := w.batches ++ [rows]
          backups := w.backups ++ rows.filterMap fun r => w.table.get r.id }
      | .error _ => some w
  | .replace batch R B _ => do
      let rows ← w.batches[batch]?
      some { w with
        table := committed w.table ((embedRows R B rows).1.map reembedItem)
        batches := w.batches.eraseIdx batch }
  | .restore backups =>
      let rows := backups.filterMap fun i => w.backups[i]?
      if (rows.map Row.id).Nodup then
        some { w with table := committed w.table (rows.map fun row => rollbackItem (row.id, row.vector)) }
      else none

/-! ## Steps that meet what was read -/

/-- The row is as pending as it was read, and still has the text if it is embedded. -/
def StillReads (t : Table V) (id : String) (pending : Bool) (text : Value) : Prop :=
  ∀ row ∈ t.get id, Table.isPending row.payload = pending ∧
    (pending = false → Payload.get row.payload "data" = text)

/-- The update leaves the vector that is stored. -/
def PendingRewrite.Keeps (u : PendingRewrite V) : Prop :=
  u.vector = none ∧ (Payload.get u.row.payload "data").isText u.text = true ∧ Table.isPending u.row.payload = false

/-- No metadata calls an embedded memory pending, and what is written without its text finds the row as it was read: by
an update that keeps the vector, by the vectors of a batch, for rows that were embedded, and by those of a backup. -/
def VectorStep.Undisturbed (W : Writer (Embedding F dims) S) (w : VectorWorld (Embedding F dims)) :
    VectorStep F E Embeds → Prop
  | .insert O metadata scope memories => Table.isPending metadata = true → ∀ t,
      w.table.insert (memories.map (NewMemory.row W O.1 metadata scope)) = .ok t →
        ∀ m ∈ memories, m.clears = true ∨ (m.row W O.1 metadata scope).vector = none
  | .write update => ∀ u ∈ w.rewrites[update]?, u.Keeps → StillReads w.table u.row.id false (.str u.text)
  | .replace batch R B _ => ∀ rows ∈ w.batches[batch]?, ∀ t,
      updateVectors w.table ((embedRows R B rows).1.map reembedItem) = .ok t →
        ∀ e ∈ (embedRows R B rows).1, StillReads w.table e.1.id false (.str e.1.text)
  | .restore backups => ∀ t, updateVectors w.table
        ((backups.filterMap fun i => w.backups[i]?).map fun row => rollbackItem (row.id, row.vector)) = .ok t →
      ∀ row ∈ backups.filterMap fun i => w.backups[i]?,
        StillReads w.table row.id (Table.isPending row.payload) (Payload.get row.payload "data")
  | _ => True

end

/-! ## The payload of a new row -/

section

variable {W : Writer V S} {now text : String} {metadata message memory p : Entries}

theorem isPending_congr {p q : Payload} (h : p.lookup "embedding_status" = q.lookup "embedding_status") :
    Table.isPending p = Table.isPending q := by
  rw [Table.isPending, Table.isPending, h]

theorem markPending_pending : Table.isPending (markPending p) = true := by
  simp [Table.isPending, markPending]

theorem erase_notPending : Table.isPending (Dict.erase "embedding_status" p) = false := by
  simp [Table.isPending]

theorem stampCreation_lookup {key : String} (hcreated : key ≠ "created_at") (hupdated : key ≠ "updated_at") :
    (stampCreation now p).lookup key = p.lookup key := by
  rw [stampCreation, Dict.lookup_set_of_ne hupdated]
  split
  · rfl
  · exact Dict.lookup_set_of_ne hcreated _ _

theorem withAttribution_lookup {key : String} (h : key ≠ "attributed_to") :
    (withAttribution memory p).lookup key = p.lookup key := by
  rw [withAttribution]
  split
  · exact Dict.lookup_set_of_ne h _ _
  · rfl

theorem withCategories_lookup {categories : List String} {key : String} (h : key ≠ "categories") :
    (withCategories categories p).lookup key = p.lookup key := by
  rw [withCategories]
  split
  · rfl
  · exact Dict.lookup_set_of_ne h _ _

theorem withLinks_lookup {existing : List (Row V)} {key : String} (h : key ≠ "linked_memory_ids") :
    (withLinks existing memory p).lookup key = p.lookup key := by
  rw [withLinks]
  split
  · exact Dict.lookup_set_of_ne h _ _
  · rfl

theorem createdPayload_status : (createdPayload W now text metadata).lookup "embedding_status" =
    metadata.lookup "embedding_status" := by
  rw [createdPayload, stampCreation_lookup (by decide) (by decide)]
  simp [derivedTextPayload, Dict.update, Dict.lookup_set, Dict.lookup_erase_of_ne]

theorem createdPayload_text : Payload.get (createdPayload W now text metadata) "data" = .str text := by
  rw [Payload.get, createdPayload, stampCreation_lookup (by decide) (by decide)]
  simp [derivedTextPayload, Dict.update, Dict.lookup_set]

/-- Without a vector a raw memory is marked, and with one it keeps the status it brings. -/
theorem rawMetadata_status (pending : Bool) : Table.isPending (rawMetadata W metadata message pending) =
    (pending || Table.isPending metadata) := by
  cases pending with
  | true => exact markPending_pending
  | false =>
    apply isPending_congr
    simp only [rawMetadata, withActor, replaceCategories, Bool.false_eq_true, ↓reduceIte]
    split <;> split <;> simp [Dict.lookup_set, Dict.lookup_erase_of_ne]

theorem extractedPayload_status (embedded : Bool) :
    Table.isPending (extractedPayload W now metadata memory embedded) = !embedded := by
  cases embedded with
  | true => exact erase_notPending
  | false => exact markPending_pending

theorem extractedPayload_text (embedded : Bool) :
    Payload.get (extractedPayload W now metadata memory embedded) "data" = .str (extractedText memory) := by
  have hlookup : ∀ p : Payload, (if embedded then Dict.erase "embedding_status" p else markPending p).lookup "data" =
      p.lookup "data" := by
    intro p
    split
    · exact Dict.lookup_erase_of_ne (by decide) _
    · exact Dict.lookup_set_of_ne (by decide) _ _
  rw [Payload.get, extractedPayload, hlookup, withCategories_lookup (by decide), withAttribution_lookup (by decide),
    stampCreation_lookup (by decide) (by decide)]
  simp [Dict.update, Dict.lookup_set]

theorem importedPayload_lookup {existing : List (Row V)} {key : String} (hcategories : key ≠ "categories")
    (hlinks : key ≠ "linked_memory_ids") (hattributed : key ≠ "attributed_to") (hcreated : key ≠ "created_at")
    (hupdated : key ≠ "updated_at") : (importedPayload W now existing metadata memory).lookup key =
      (Dict.update (Dict.erase "_allowed_categories" metadata)
        [("data", .str (extractedText memory)), ("text_lemmatized", .str (W.lemmatize (extractedText memory))),
          ("hash", .str (W.md5 (extractedText memory))),
          ("source_message_indices", Payload.get memory "source_message_indices"),
          ("confidence", Payload.get memory "confidence")]).lookup key := by
  rw [importedPayload, withCategories_lookup hcategories, withLinks_lookup hlinks, withAttribution_lookup hattributed,
    stampCreation_lookup hcreated hupdated]

theorem importedPayload_status {existing : List (Row V)} :
    (importedPayload W now existing metadata memory).lookup "embedding_status" =
      metadata.lookup "embedding_status" := by
  rw [importedPayload_lookup (by decide) (by decide) (by decide) (by decide) (by decide)]
  simp [Dict.update, Dict.lookup_set, Dict.lookup_erase_of_ne]

theorem importedPayload_text {existing : List (Row V)} :
    Payload.get (importedPayload W now existing metadata memory) "data" = .str (extractedText memory) := by
  rw [Payload.get, importedPayload_lookup (by decide) (by decide) (by decide) (by decide) (by decide)]
  simp [Dict.update, Dict.lookup_set]

end

/-! ## The payload of an update -/

section

variable {W : Writer V S} {now text : String} {metadata : Option Entries} {embedded : Bool} {old : Payload}

theorem updatedPayload_status : Table.isPending (updatedPayload W now text metadata embedded old) =
    (!embedded && (!(Payload.get old "data").isText text || Table.isPending old)) := by
  rw [updatedPayload_eq, settleStatus]
  cases embedded with
  | true => exact erase_notPending
  | false =>
    rw [if_neg Bool.false_ne_true]
    split
    · rename_i h
      rw [markPending_pending, h]
      rfl
    · rename_i h
      rw [erase_notPending, Bool.eq_false_iff.mpr h]
      rfl

theorem updatedPayload_text :
    Payload.get (updatedPayload W now text metadata embedded old) "data" = .str text := by
  rw [updatedPayload_eq, Payload.get, settleStatus_lookup (by decide), keepActor_lookup (by decide),
    Dict.lookup_set_of_ne (by decide), Dict.lookup_set_of_ne (by decide)]
  simp [derivedTextPayload, Dict.update, Dict.lookup_set]

end

/-! ## Embedded rows -/

section

variable {Embeds : String → V → Prop} {W : Writer V S} {O : Providers V}

theorem Row.Embedded.of_vector {id text : String} {v : V} {payload : Payload} (hv : Embeds text v)
    (htext : Payload.get payload "data" = .str text) (hstatus : Table.isPending payload = false) :
    Row.Embedded Embeds ⟨id, some v, payload⟩ := by
  constructor
  · simp [hstatus]
  · intro v' hv'
    cases hv'
    exact ⟨text, htext, hv⟩

theorem Row.Embedded.of_pending {id : String} {payload : Payload} (hstatus : Table.isPending payload = true) :
    Row.Embedded Embeds ⟨id, none, payload⟩ := by
  constructor
  · simp [hstatus]
  · simp

/-- A row that is not pending has an embedding of its text. -/
theorem Row.Embedded.vector {row : Row V} (h : row.Embedded Embeds) (hstatus : Table.isPending row.payload = false) :
    ∃ v text, row.vector = some v ∧ Payload.get row.payload "data" = .str text ∧ Embeds text v := by
  cases hvector : row.vector with
  | none =>
    have hpending := h.waits.mp hvector
    rw [hstatus] at hpending
    cases hpending
  | some v =>
    obtain ⟨text, htext, hv⟩ := h.embeds v hvector
    exact ⟨v, text, rfl, htext, hv⟩

/-- A vector that is there may have come with the batch or alone. -/
theorem embedTexts_embeds (hO : O.EmbedsAs Embeds) {texts : List String} {text : String} {v : V}
    (h : ((embedTexts O texts).lookup text).getD none = some v) : Embeds text v := by
  cases hlookup : (embedTexts O texts).lookup text with
  | none => simp [hlookup] at h
  | some vector =>
    rw [hlookup, Option.getD_some] at h
    have hmem := Dict.mem_of_lookup hlookup
    simp only [embedTexts, List.mem_map, Prod.mk.injEq] at hmem
    obtain ⟨text', _, rfl, hvector⟩ := hmem
    rw [h, Option.or_eq_some_iff] at hvector
    rcases hvector with hbatch | ⟨_, hsingle⟩
    · cases hvectors : O.embedBatch .add texts with
      | none => simp [hvectors] at hbatch
      | some vectors =>
        rw [hvectors] at hbatch
        exact hO.embedBatch .add texts vectors hvectors _ (Dict.mem_of_lookup hbatch)
    · exact hO.embed .add text' v hsingle

/-- A new memory is embedded or pending, unless its metadata calls it pending and it has a vector. -/
theorem NewMemory.row_embedded (hO : O.EmbedsAs Embeds) {metadata : Entries} {scope : ScopeIds}
    (m : NewMemory Embeds) (h : Table.isPending metadata = true →
      m.clears = true ∨ (m.row W O metadata scope).vector = none) :
    (m.row W O metadata scope).Embedded Embeds := by
  cases m with
  | raw message text unavailable =>
    have hstatus : Table.isPending (createdPayload W O.now text
        (rawMetadata W metadata message (rawVector O unavailable text).isNone)) = _ :=
      isPending_congr createdPayload_status
    rw [rawMetadata_status] at hstatus
    rw [NewMemory.row] at h ⊢
    dsimp only at h ⊢
    cases hvector : rawVector O unavailable text with
    | none =>
      rw [hvector] at hstatus
      exact .of_pending hstatus
    | some v =>
      rw [hvector] at hstatus h
      have hnone : Table.isPending metadata = false := by
        apply Bool.eq_false_iff.mpr
        intro hpending
        simpa [clears] using h hpending
      have hv : Embeds text v := by
        rw [rawVector] at hvector
        split at hvector
        · cases hvector
        · exact hO.embed .add text v hvector
      exact .of_vector hv createdPayload_text (hstatus.trans hnone)
  | extracted texts memory =>
    rw [NewMemory.row, extractedRow]
    cases hvector : ((embedTexts O texts).lookup (extractedText memory)).getD none with
    | none => exact .of_pending (extractedPayload_status _)
    | some v => exact .of_vector (embedTexts_embeds hO hvector) (extractedPayload_text _) (extractedPayload_status _)
  | procedural id text vector hv =>
    have hnone : Table.isPending metadata = false := by
      apply Bool.eq_false_iff.mpr
      intro hpending
      simpa [clears, NewMemory.row] using h hpending
    refine .of_vector hv createdPayload_text ?_
    rw [isPending_congr createdPayload_status, ← hnone]
    exact isPending_congr (Dict.lookup_set_of_ne (by decide) _ _)
  | imported context existing memory vector hv =>
    have hnone : Table.isPending metadata = false := by
      apply Bool.eq_false_iff.mpr
      intro hpending
      simpa [clears, NewMemory.row, importedRow] using h hpending
    exact .of_vector hv importedPayload_text ((isPending_congr importedPayload_status).trans hnone)

/-- An update with a vector or with a new text settles its row whatever it finds; one that keeps the vector settles a row
that still reads as it did. -/
theorem PendingRewrite.write_embedded {u : PendingRewrite V} {t : Table V} (ht : ∀ row ∈ t.rows, row.Embedded Embeds)
    (hu : ∀ v ∈ u.vector, Embeds u.text v) (h : u.Keeps → StillReads t u.row.id false (.str u.text)) :
    ∀ row ∈ (u.write W t).rows, row.Embedded Embeds := by
  intro row hrow
  rw [PendingRewrite.write, Table.rows_update] at hrow
  obtain ⟨old, hold, rfl⟩ := List.mem_map.mp hrow
  split
  · rename_i hid
    have hstatus : Table.isPending (updatedPayload W u.now u.text u.metadata u.vector.isSome u.row.payload) = _ :=
      updatedPayload_status
    unfold Table.updateRow
    cases hvector : u.vector with
    | some v =>
      rw [hvector] at hstatus
      exact .of_vector (hu v hvector) updatedPayload_text hstatus
    | none =>
      rw [hvector, Option.isSome_none] at hstatus
      dsimp only [Option.getD_some]
      by_cases hkeeps : u.Keeps
      · -- the vector is that of the row found here
        obtain ⟨_, htext, hpending⟩ := hkeeps
        have hsame := h ⟨hvector, htext, hpending⟩ old (hid ▸ t.get_of_mem hold)
        obtain ⟨v, text, hv, hdata, hembeds⟩ := (ht old hold).vector hsame.1
        rw [hsame.2 rfl, Value.str.injEq] at hdata
        rw [htext, hpending] at hstatus
        rw [Option.isSome_none, hstatus, hv, if_neg (by simp)]
        exact .of_vector (hdata ▸ hembeds) updatedPayload_text hstatus
      · have hmarked : (!(Payload.get u.row.payload "data").isText u.text || Table.isPending u.row.payload) = true := by
          by_contra hno
          simp only [Bool.or_eq_true, Bool.not_eq_true', not_or, Bool.not_eq_false, Bool.not_eq_true] at hno
          exact hkeeps ⟨hvector, hno⟩
        rw [hmarked] at hstatus
        rw [Option.isSome_none, hstatus, if_pos (by simp)]
        exact .of_pending hstatus
  · exact ht old hold

/-! ## The operations and their steps -/

theorem readForUpdate_embeds (hO : O.EmbedsAs Embeds) {request : UpdateRequest} {t : Table V} {u : PendingRewrite V}
    (h : readForUpdate W O request t = some u) : ∀ v ∈ u.vector, Embeds u.text v := by
  simp only [readForUpdate, Option.bind_eq_bind, Option.bind_eq_some_iff, Option.pure_def, Option.some.injEq] at h
  obtain ⟨metadata, _, row, _, text, htext, rfl⟩ := h
  intro v hv
  obtain ⟨data, hdata, hv⟩ := Option.bind_eq_some_iff.mp hv
  rw [hdata, updateText] at htext
  cases htext
  exact hO.embed .update _ v hv

/-- The rows `add` inserts are those of new memories. -/
theorem add_inserts [Score S] (hO : O.EmbedsAs Embeds) (request : AddRequest) :
    Effect.Within (Grows fun row => ∃ metadata scope, ∃ m : NewMemory Embeds, row = m.row W O metadata scope)
      (add W O request) := by
  refine .bindLift fun prepared _ => ?_
  obtain ⟨metadata, scope, messages⟩ := prepared
  dsimp only
  split
  · exact createProceduralMemory_within fun id text vector hvector =>
      ⟨metadata, scope, .procedural id text vector (hO.embed .add text vector hvector), rfl⟩
  · refine .bind (.lift _) fun parsed => addToVectorStore_within ?_ ?_
    · exact fun message text unavailable => ⟨metadata, scope, .raw message text unavailable, rfl⟩
    · exact fun texts memory => ⟨metadata, scope, .extracted texts memory, rfl⟩

theorem embedImported_embeds (hO : O.EmbedsAs Embeds) {texts : List String} {vectors : List V}
    (h : embedImported O texts = .ok vectors) : ∀ e ∈ texts.zip vectors, Embeds e.1 e.2 := by
  unfold embedImported at h
  split at h
  · rename_i answered hanswered
    split at h
    · cases h
      exact hO.embedBatch .add texts _ hanswered
    · cases h
  · split at h
    · rename_i answered hanswered
      cases h
      have hall : List.Forall₂ (fun text v => O.embed .add text = some v) texts vectors :=
        Fallible.mapM_some.mp hanswered
      intro e he
      exact hO.embed .add e.1 e.2 ((List.forall₂_iff_zip.mp hall).2 he)
    · cases h

/-- So are the rows of an import. -/
theorem addWithContext_inserts [Score S] (hO : O.EmbedsAs Embeds) (request : AddRequest) (context : OperationContext) :
    Effect.Within (Grows fun row => ∃ metadata scope, ∃ m : NewMemory Embeds, row = m.row W O metadata scope)
      (addWithContext W O request context) := by
  refine .bindLift fun prepared _ => ?_
  obtain ⟨metadata, scope, messages⟩ := prepared
  dsimp only
  split
  · exact createProceduralMemory_within fun id text vector hvector =>
      ⟨metadata, scope, .procedural id text vector (hO.embed .add text vector hvector), rfl⟩
  · refine .bind (.lift _) fun parsed => ?_
    split
    · refine .bind (addImported_within fun existing texts vectors hvectors memory hmemory => ?_) fun rows => .pure _
      exact ⟨metadata, scope, .imported context existing memory.1 memory.2
        (embedImported_embeds hO hvectors _ hmemory), rfl⟩
    · exact .raise _

/-- An update that nothing interrupts is its read and its write. -/
theorem update_reads_writes [Score S] (request : UpdateRequest) (s : MemoryState V) :
    ((update W O request).run s).2.memories = s.memories ∨
      ∃ u, readForUpdate W O request s.memories = some u ∧
        ((update W O request).run s).2.memories = u.write W s.memories := by
  rcases update_memories W O request s with hsame | ⟨row, text, metadata, h⟩
  · exact .inl hsame
  · refine .inr ⟨⟨row, text, request.data.bind (O.embed .update), metadata, O.now⟩, ?_, h.memories⟩
    rw [readForUpdate, h.merges, h.found]
    simp [h.hasText, Except.toOption]

/-! ## Transactions -/

/-- A transaction of vectors that suit the payloads of their rows. -/
theorem updateVectors_embedded [DecidableEq V] {items : List (VectorItem V)} {t t' : Table V}
    (ht : ∀ row ∈ t.rows, row.Embedded Embeds)
    (hitems : ∀ item ∈ items, ∀ row ∈ t.rows, row.id = item.id → Row.Embedded Embeds ⟨row.id, item.vector, row.payload⟩)
    (h : updateVectors t items = .ok t') : ∀ row ∈ t'.rows, row.Embedded Embeds := by
  induction items generalizing t with
  | nil =>
    cases h
    exact ht
  | cons item items ih =>
    rw [updateVectors, List.foldlM_cons] at h
    obtain ⟨next, hnext, h⟩ := bind_ok.mp h
    obtain ⟨hitem, hitems⟩ := List.forall_mem_cons.mp hitems
    have hset : next = t.setVector item.id item.vector := by
      unfold updateVector at hnext
      split at hnext
      · split at hnext
        · cases hnext
          rfl
        · cases hnext
      · cases hnext
    subst hset
    -- the payloads are as they were
    have hrows : ∀ row ∈ (t.setVector item.id item.vector).rows, ∃ old ∈ t.rows, row.id = old.id ∧
        row.payload = old.payload ∧ (row = old ∨ old.id = item.id ∧ row = ⟨old.id, item.vector, old.payload⟩) := by
      intro row hrow
      obtain ⟨old, hold, rfl⟩ := List.mem_map.mp hrow
      refine ⟨old, hold, ?_⟩
      split
      · rename_i hid
        exact ⟨rfl, rfl, .inr ⟨hid, rfl⟩⟩
      · exact ⟨rfl, rfl, .inl rfl⟩
    apply ih _ _ h
    · intro row hrow
      obtain ⟨old, hold, _, _, rfl | ⟨hid, rfl⟩⟩ := hrows row hrow
      · exact ht row hold
      · exact hitem old hold hid
    · intro item' hitem' row hrow hid
      obtain ⟨old, hold, hsame, hpayload, _⟩ := hrows row hrow
      rw [hsame, hpayload]
      exact hitems item' hitem' old hold (hsame ▸ hid)

end

section

variable [DecidableEq F] {Embeds : String → Embedding F dims → Prop} {W : Writer (Embedding F dims) S}
  {w w' : VectorWorld (Embedding F dims)} {t : Table (Embedding F dims)}

theorem committed_embedded {items : List (VectorItem (Embedding F dims))} (ht : ∀ row ∈ t.rows, row.Embedded Embeds)
    (hitems : ∀ t', updateVectors t items = .ok t' → ∀ item ∈ items, ∀ row ∈ t.rows, row.id = item.id →
      Row.Embedded Embeds ⟨row.id, item.vector, row.payload⟩) :
    ∀ row ∈ (committed t items).rows, row.Embedded Embeds := by
  unfold committed
  cases h : updateVectors t items with
  | error e => exact ht
  | ok t' => exact updateVectors_embedded ht (hitems t' h) h

/-! ## Runs -/

/-- All rows are embedded or pending, and so were those that backups were made of; an update in progress carries an
embedding of its text. -/
structure VectorWorld.Sound (Embeds : String → Embedding F dims → Prop) (w : VectorWorld (Embedding F dims)) : Prop where
  rows : ∀ row ∈ w.table.rows, row.Embedded Embeds
  rewrites : ∀ u ∈ w.rewrites, ∀ v ∈ u.vector, Embeds u.text v
  backups : ∀ row ∈ w.backups, row.Embedded Embeds

/-- What each step keeps that finds its row as it was read. -/
theorem step_sound {e : VectorStep F E Embeds} (h : w.Sound Embeds) (he : e.Undisturbed W w)
    (hstep : w.step W e = some w') : w'.Sound Embeds := by
  cases e with
  | insert O metadata scope memories =>
    cases hstep
    refine ⟨?_, h.rewrites, h.backups⟩
    dsimp only
    cases hinsert : w.table.insert (memories.map (NewMemory.row W O.1 metadata scope)) with
    | error e => exact h.rows
    | ok t =>
      intro row hrow
      change row ∈ t.rows at hrow
      rw [Table.rows_insert hinsert] at hrow
      rcases List.mem_append.mp hrow with hrow | hrow
      · exact h.rows row hrow
      · obtain ⟨m, hm, rfl⟩ := List.mem_map.mp hrow
        exact m.row_embedded O.2 fun hpending => he hpending t hinsert m hm
  | read O request =>
    cases hstep
    refine ⟨h.rows, ?_, h.backups⟩
    intro u hu
    rcases List.mem_append.mp hu with hu | hu
    · exact h.rewrites u hu
    · exact readForUpdate_embeds O.2 (Option.mem_toList.mp hu)
  | write update =>
    obtain ⟨u, hu, hstep⟩ := Option.bind_eq_some_iff.mp hstep
    cases hstep
    refine ⟨?_, fun u' hu' => h.rewrites u' (List.mem_of_mem_eraseIdx hu'), h.backups⟩
    exact PendingRewrite.write_embedded h.rows (h.rewrites u (List.mem_of_getElem? hu)) (he u hu)
  | delete id =>
    cases hstep
    exact ⟨fun row hrow => h.rows row (List.mem_of_mem_filter hrow), h.rewrites, h.backups⟩
  | scan filters after limit =>
    rw [VectorWorld.step] at hstep
    split at hstep
    · cases hstep
      refine ⟨h.rows, h.rewrites, ?_⟩
      intro row hrow
      rcases List.mem_append.mp hrow with hrow | hrow
      · exact h.backups row hrow
      · obtain ⟨r, _, hget⟩ := List.mem_filterMap.mp hrow
        exact h.rows row (List.mem_of_find?_eq_some hget)
    · cases hstep
      exact h
  | replace batch R B hB =>
    obtain ⟨rows, hrows, hstep⟩ := Option.bind_eq_some_iff.mp hstep
    cases hstep
    refine ⟨committed_embedded h.rows fun t' ht' => ?_, h.rewrites, h.backups⟩
    intro item hitem row hrow hid
    obtain ⟨e, he', rfl⟩ := List.mem_map.mp hitem
    have hget : w.table.get e.1.id = some row := by
      rw [← show row.id = e.1.id from hid]
      exact w.table.get_of_mem hrow
    obtain ⟨hstatus, htext⟩ := he rows hrows t' ht' e he' row hget
    exact .of_vector (hB _ _ (embedRows_embedding he').2) (htext rfl) hstatus
  | restore backups =>
    rw [VectorWorld.step] at hstep
    split at hstep
    · cases hstep
      refine ⟨committed_embedded h.rows fun t' ht' => ?_, h.rewrites, h.backups⟩
      intro item hitem row hrow hid
      obtain ⟨old, hold, rfl⟩ := List.mem_map.mp hitem
      have hbackup := h.backups old (by
        obtain ⟨i, _, hi⟩ := List.mem_filterMap.mp hold
        exact List.mem_of_getElem? hi)
      have hget : w.table.get old.id = some row := by
        rw [← show row.id = old.id from hid]
        exact w.table.get_of_mem hrow
      obtain ⟨hstatus, htext⟩ := he t' ht' old hold row hget
      cases hpending : Table.isPending old.payload with
      | true =>
        rw [rollbackItem, hbackup.waits.mpr hpending]
        exact .of_pending (hstatus.trans hpending)
      | false =>
        obtain ⟨v, text, hv, hdata, hembeds⟩ := hbackup.vector hpending
        rw [rollbackItem, hv]
        exact .of_vector hembeds ((htext hpending).trans hdata) (hstatus.trans hpending)
    · cases hstep

/-- In a run whose steps find what they read, every row is embedded or pending at every moment. -/
theorem rows_stay_embedded (ht : ∀ row ∈ t.rows, row.Embedded Embeds) {steps : List (VectorStep F E Embeds)}
    (hundisturbed : AlongRun (VectorWorld.step W) (fun w e => e.Undisturbed W w) ⟨t, [], [], []⟩ steps)
    (hrun : runFrom (VectorWorld.step W) ⟨t, [], [], []⟩ steps = some w') :
    ∀ row ∈ w'.table.rows, row.Embedded Embeds := by
  have hstart : VectorWorld.Sound Embeds ⟨t, [], [], []⟩ := ⟨ht, by simp, by simp⟩
  exact (runFrom_keeps (fun _ _ _ h he hstep => step_sound h he hstep) hstart hundisturbed hrun).rows

end

/-! ## A tea that was embedded too late -/

/-- The embedding of a text is its length. -/
def lengthOf (text : String) (v : Embedding Int 1) : Prop := v.1 = [(text.length : Int)]

def lengthVector (text : String) : Embedding Int 1 := ⟨[(text.length : Int)], rfl⟩

def lengthProviders : EmbeddingProviders lengthOf where
  val := { (Providers.silent "now" : Providers (Embedding Int 1)) with embed := fun _ text => some (lengthVector text) }
  property := by
    constructor
    · rintro action text v ⟨⟩
      rfl
    · rintro action texts vectors ⟨⟩

def silentProviders : EmbeddingProviders lengthOf where
  val := .silent "now"
  property := by
    constructor
    · rintro action text v ⟨⟩
    · rintro action texts vectors ⟨⟩

def lengthWriter : Writer (Embedding Int 1) ℚ := .plain .ascii

def lengthEmbedder : BatchEmbedder (List Int) where
  batch texts := .ok (texts.map fun text => [(text.length : Int)])
  single _ text := .ok [(text.length : Int)]

theorem lengthEmbedder_embeds (text : String) (v : Embedding Int 1)
    (h : EmbeddingOf newModel lengthEmbedder text v) : lengthOf text v := by
  obtain ⟨e, hparse, h⟩ := h
  have hv : v.1 = e := by
    simp only [ReembedWorld.toVector, newModel, bind_ok, Except.ok.injEq] at hparse
    obtain ⟨parsed, rfl, hparse⟩ := hparse
    split at hparse
    · cases hparse
      rfl
    · cases hparse
  rw [lengthOf, hv]
  rcases h with ⟨texts, embeddings, p, hbatch, _, htext, he⟩ | ⟨p, hsingle⟩
  · cases hbatch
    rw [List.getElem?_map, htext] at he
    cases he
    rfl
  · cases hsingle
    rfl

def teaNote : NewMemory lengthOf := .raw [("role", .str "user")] "tea" false

def teaNoteId : String := memoryIdForHash lengthWriter [] "tea"

def teaProject : Entries := [("project_id", .str "p")]

/-- The table with the tea, as the providers of that moment embed it. -/
def oneTea (O : EmbeddingProviders lengthOf) : Table (Embedding Int 1) where
  rows := [teaNote.row lengthWriter O.1 teaProject []]
  unique := List.nodup_singleton _
  named := by
    intro row hrow
    rw [List.mem_singleton.mp hrow]
    change teaNoteId ≠ ""
    with_unfolding_all decide

theorem insert_tea (O : EmbeddingProviders lengthOf) (rewrites : List (PendingRewrite (Embedding Int 1))) :
    VectorWorld.step lengthWriter ⟨.empty, rewrites, [], []⟩ (.insert O teaProject [] [teaNote] :
      VectorStep Int (List Int) lengthOf) = some ⟨oneTea O, rewrites, [], []⟩ := by
  have hinsert : Table.empty.insert [teaNote.row lengthWriter O.1 teaProject []] = .ok (oneTea O) := by
    rw [Table.insert, dif_pos ⟨List.nodup_singleton _, (oneTea O).named⟩]
    rfl
  simp [VectorWorld.step, hinsert, Except.toOption]

def calmRequest : UpdateRequest :=
  ⟨teaNoteId, none, some ⟨[("mood", .str "calm")], List.nodup_singleton _, trivial, trivial⟩, none⟩

/-- A memory is embedded, and then its metadata is updated. -/
def noted : List (VectorStep Int (List Int) lengthOf) :=
  [.insert lengthProviders teaProject [] [teaNote], .read lengthProviders calmRequest, .write 0]

def calmRewrite : PendingRewrite (Embedding Int 1) :=
  ⟨teaNote.row lengthWriter lengthProviders.1 teaProject [], "tea", none, some [("mood", .str "calm")], "now"⟩

theorem read_calm : readForUpdate lengthWriter lengthProviders.1 calmRequest (oneTea lengthProviders) =
    some calmRewrite := by with_unfolding_all rfl

theorem noted_embedded : ∃ w', runFrom (VectorWorld.step lengthWriter) ⟨.empty, [], [], []⟩ noted = some w' ∧
    ∀ row ∈ w'.table.rows, row.Embedded lengthOf := by
  have hrun : runFrom (VectorWorld.step lengthWriter) ⟨.empty, [], [], []⟩ noted =
      some ⟨calmRewrite.write lengthWriter (oneTea lengthProviders), [], [], []⟩ := by
    rw [noted, runFrom_cons, insert_tea]
    simp [VectorWorld.step, read_calm]
  refine ⟨_, hrun, rows_stay_embedded (by simp [Table.empty]) ?_ hrun⟩
  apply AlongRun.cons (fun hpending => absurd hpending (by decide)) (insert_tea lengthProviders [])
  refine ⟨trivial, ?_⟩
  rintro w₂ ⟨⟩
  refine ⟨?_, fun _ _ => trivial⟩
  intro u hu _ row hrow
  rw [read_calm] at hu
  cases hu
  rw [List.mem_singleton.mp (List.mem_of_find?_eq_some hrow)]
  exact ⟨by with_unfolding_all rfl, fun _ => by with_unfolding_all rfl⟩

/-- A pending memory is embedded by the script, and still says that it is pending. -/
theorem embedded_stays_pending : ¬∀ (steps : List (VectorStep Int (List Int) lengthOf))
    (w' : VectorWorld (Embedding Int 1)),
    runFrom (VectorWorld.step lengthWriter) ⟨.empty, [], [], []⟩ steps = some w' → w'.Idle →
      ∀ row ∈ w'.table.rows, row.Embedded lengthOf := by
  intro h
  have hscan : scanRows .ascii (oneTea silentProviders) oldProject.filters none 2 = .ok [⟨teaNoteId, none, "tea"⟩] := by
    rw [scanRows_oldProject]
    with_unfolding_all rfl
  have hget : (oneTea silentProviders).get teaNoteId = some (teaNote.row lengthWriter silentProviders.1 teaProject []) := by
    with_unfolding_all rfl
  have hembedded : (embedRows newModel lengthEmbedder [⟨teaNoteId, none, "tea"⟩]).1 =
      [(⟨teaNoteId, none, "tea"⟩, lengthVector "tea")] := by with_unfolding_all rfl
  have hupdate : updateVectors (oneTea silentProviders) [⟨teaNoteId, some (lengthVector "tea"), some none⟩] =
      .ok ((oneTea silentProviders).setVector teaNoteId (some (lengthVector "tea"))) := by with_unfolding_all rfl
  have hrun : runFrom (VectorWorld.step lengthWriter) ⟨.empty, [], [], []⟩
      [.insert silentProviders teaProject [] [teaNote], .scan oldProject.filters none 2,
        .replace 0 newModel lengthEmbedder lengthEmbedder_embeds] =
      some ⟨(oneTea silentProviders).setVector teaNoteId (some (lengthVector "tea")), [], [],
        [teaNote.row lengthWriter silentProviders.1 teaProject []]⟩ := by
    have hplatform : lengthWriter.platform = .ascii := rfl
    rw [runFrom_cons, insert_tea]
    simp [VectorWorld.step, hplatform, hscan, hget, hembedded, reembedItem, committed, hupdate, Except.toOption]
  have hrow := h _ _ hrun ⟨rfl, rfl⟩ ⟨teaNoteId, some (lengthVector "tea"),
    createdPayload lengthWriter "now" "tea" (rawMetadata lengthWriter teaProject [("role", .str "user")] true)⟩
    (by with_unfolding_all exact List.mem_singleton.mpr rfl)
  have hnone := hrow.waits.mpr (by with_unfolding_all decide)
  cases hnone

end YiQiao
