import YiQiao.Memory.Import

/-!
# What adding does to the rows

Adding appends rows and touches none that are there, whether it returns or raises. `Grows P` says
so, with a property that all new rows have.
-/

namespace YiQiao

open Lib Filters

variable {V S : Type}

/-- Rows with the property were appended. -/
def Grows (P : Row V → Prop) (s s' : MemoryState V) : Prop :=
  ∃ rows, s'.memories.rows = s.memories.rows ++ rows ∧ ∀ row ∈ rows, P row

section

variable {P : Row V → Prop}

instance : Std.Refl (Grows P) := ⟨fun s => ⟨[], (List.append_nil _).symm, by simp⟩⟩

instance : IsTrans (MemoryState V) (Grows P) := ⟨by
  rintro s₁ s₂ s₃ ⟨rows, h, hrows⟩ ⟨rows', h', hrows'⟩
  refine ⟨rows ++ rows', by rw [h', h, List.append_assoc], fun row hrow => ?_⟩
  rcases List.mem_append.mp hrow with hrow | hrow
  · exact hrows row hrow
  · exact hrows' row hrow⟩

theorem Grows.of_same {s s' : MemoryState V} (h : SameMemories s s') : Grows P s s' :=
  ⟨[], by rw [h, List.append_nil], by simp⟩

theorem within_of_same {α : Type} {x : Op V α} (h : Effect.Within SameMemories x) :
    Effect.Within (Grows P) x := fun s => Grows.of_same (h s)

/-! ## Inserting -/

theorem insertMemories_within {rows : List (Row V)} (h : ∀ row ∈ rows, P row) :
    Effect.Within (Grows P) (insertMemories rows) := by
  intro s
  simp only [insertMemories, Effect.run_bind_read]
  cases ht : s.memories.insert rows with
  | error e => exact Std.Refl.refl s
  | ok t => exact ⟨rows, Table.rows_insert ht, h⟩

theorem finishCreate_within (W : Writer V S) (row : Row V) (data : String) (skip : Bool)
    (r : Except PyError Unit) : Effect.Within (Grows P) (finishCreate W row data skip r) := by
  cases r with
  | ok u => exact .bind (within_of_same (addHistory_within _)) fun _ => .pure _
  | error e =>
      refine .bind (.read _) fun existing => ?_
      split
      · exact .pure _
      · exact .raise _

theorem createMemory_within {W : Writer V S} {now data : String} {vector : Option V} {metadata : Entries}
    {id : String} {skip : Bool} (h : P ⟨id, vector, createdPayload W now data metadata⟩) :
    Effect.Within (Grows P) (createMemory W now data vector metadata id skip) := by
  refine .bind (.read _) fun existing => ?_
  split
  · exact .pure _
  · refine .bind (.attempt (insertMemories_within ?_)) fun r => finishCreate_within _ _ _ _ _
    simpa using h

theorem insertEach_within {rows : List (Row V)} (h : ∀ row ∈ rows, P row) :
    Effect.Within (Grows P) (insertEach rows) := by
  refine .loop (fun persisted row hrow => ?_) _
  refine .bind (.attempt (insertMemories_within (by simpa using h row hrow))) fun r => ?_
  cases r <;> exact .pure _

theorem persistRows_within {rows : List (Row V)} (h : ∀ row ∈ rows, P row) :
    Effect.Within (Grows P) (persistRows rows) := by
  refine .bind (.attempt (insertMemories_within h)) fun r => ?_
  cases r with
  | ok u => exact .pure _
  | error e => exact insertEach_within h

end

/-! ## Around the insert -/

theorem batchAddHistory_within (records : List HistoryRecord) :
    Effect.Within SameMemories (batchAddHistory records : Op V Unit) :=
  .bind (.lift _) fun _ => .modify fun _ => rfl

theorem recordRows_within (rows : List (Row V)) : Effect.Within SameMemories (recordRows rows) := by
  refine .bind (.attempt (batchAddHistory_within _)) fun r => ?_
  cases r with
  | ok u => exact .pure _
  | error e => exact .loop (fun _ r _ => .bind (.attempt (addHistory_within r)) fun _ => .pure _) _

theorem linkMatches_memories (W : Writer V S) (filters : Entries)
    (matched : List ((BatchEntity × V) × Option (Row V))) (s : MemoryState V) :
    (linkMatches W filters matched s).memories = s.memories := by
  unfold linkMatches
  dsimp only
  split <;> rfl

theorem linkBatch_memories [Score S] (W : Writer V S) (O : Providers V) (filters : Entries)
    (rows : List (Row V)) (s : MemoryState V) : (linkBatch W O filters rows s).memories = s.memories := by
  unfold linkBatch
  dsimp only
  split
  · rfl
  · split
    · exact linkMatches_memories ..
    · rfl

theorem finishAdd_within [Score S] (W : Writer V S) (O : Providers V) (messages : List Entries)
    (scope : ScopeIds) (persisted : List (Row V)) :
    Effect.Within SameMemories (finishAdd W O messages scope persisted) := by
  unfold finishAdd
  split
  · exact .bind (saveMessages_within _ _ _) fun _ => .pure _
  · refine .bind (recordRows_within _) fun _ => .bind (.modify fun s => ?_) fun _ =>
      .bind (saveMessages_within _ _ _) fun _ => .pure _
    exact linkBatch_memories ..

theorem extractMemories_within (W : Writer V S) (O : Providers V) (messages : List Entries)
    (scope : ScopeIds) (prompt : Option String) (existing : List (Row V)) :
    Effect.Within SameMemories (extractMemories W O messages scope prompt existing) := by
  refine .bind (.read _) fun last => ?_
  dsimp only
  split
  · exact .raise _
  · exact .lift _

theorem drawId_within (W : Writer V S) : Effect.Within SameMemories (drawId W : Op V String) :=
  .bind (.read _) fun _ => .bind (.modify fun _ => rfl) fun _ => .pure _

/-! ## Adding -/

section

variable {P : Row V → Prop} {W : Writer V S} {O : Providers V} {metadata : Entries} {scope : ScopeIds}

theorem addRawMessages_within {messages : List Entries} {pre : Nat → Except PyError Unit}
    {unavailable : Bool}
    (h : ∀ message text, P ⟨memoryIdForHash W scope (W.contentHash text), rawVector O unavailable text,
      createdPayload W O.now text (rawMetadata W metadata message (rawVector O unavailable text).isNone)⟩) :
    Effect.Within (Grows P) (addRawMessages W O messages metadata scope pre unavailable) := by
  refine .bind (.read _) fun memories => .bind (.lift _) fun texts => .bind (.lift _) fun _ => ?_
  refine .loop (fun added selected _ => ?_) _
  refine .bind (createMemory_within (h _ _)) fun created => ?_
  split <;> exact .pure _

variable [Score S]

theorem addToVectorStore_within {messages : List Entries} {infer : Bool} {prompt : Option String}
    {pre : Nat → Except PyError Unit}
    (hraw : ∀ message text unavailable, P ⟨memoryIdForHash W scope (W.contentHash text), rawVector O unavailable text,
      createdPayload W O.now text (rawMetadata W metadata message (rawVector O unavailable text).isNone)⟩)
    (hextracted : ∀ texts memory, P (extractedRow W O metadata scope (embedTexts O texts) memory)) :
    Effect.Within (Grows P) (addToVectorStore W O messages metadata scope infer prompt pre) := by
  unfold addToVectorStore
  split
  · exact addRawMessages_within fun message text => hraw message text false
  · split
    · exact addRawMessages_within fun message text => hraw message text true
    · refine .bind (.read _) fun memories => .bind (.lift _) fun hits => .bind
        (within_of_same (extractMemories_within _ _ _ _ _ _)) fun extracted => ?_
      refine .bind (.read _) fun memories => .bind (.lift _) fun _ => ?_
      split
      · exact within_of_same (.bind (saveMessages_within _ _ _) fun _ => .pure _)
      · refine .bind (persistRows_within fun row hrow => ?_) fun persisted =>
          within_of_same (finishAdd_within _ _ _ _ _)
        obtain ⟨memory, _, rfl⟩ := List.mem_map.mp hrow
        exact hextracted _ memory

omit [Score S] in
theorem createProceduralMemory_within {messages : List Value} {prompt : Option String}
    {pre : Nat → Except PyError Unit}
    (h : ∀ id text vector, O.embed .add text = some vector → P ⟨id, some vector, createdPayload W O.now text
      (Dict.set "memory_type" (.str "procedural_memory") metadata)⟩) :
    Effect.Within (Grows P) (createProceduralMemory W O messages metadata prompt pre) := by
  unfold createProceduralMemory
  split
  · exact .raise _
  · refine .bind (.lift _) fun _ => ?_
    split
    · exact .raise _
    · rename_i vector hvector
      exact .bind (within_of_same (drawId_within W)) fun id =>
        .bind (createMemory_within (h id _ vector hvector)) fun _ => .pure _

theorem addImported_within {messages : List Entries} {context : OperationContext}
    (h : ∀ existing texts vectors, embedImported O texts = .ok vectors → ∀ memory : Entries × V,
      (extractedText memory.1, memory.2) ∈ texts.zip vectors →
        P (importedRow W O.now context existing metadata memory)) :
    Effect.Within (Grows P) (addImported W O messages metadata scope context) := by
  unfold addImported
  split
  · exact .raise _
  · refine .bind (.read _) fun memories => .bind (.lift _) fun hits => .bind (.lift _) fun extracted => ?_
    dsimp only
    split
    · exact .pure _
    · refine .bind (.lift _) fun _ => .bindLift fun vectors hvectors => ?_
      split
      · have hrows : ∀ row ∈ ((selectImported W context (hits.map Hit.row) extracted).zip vectors).map
            (importedRow W O.now context (hits.map Hit.row) metadata), P row := by
          intro row hrow
          obtain ⟨memory, hmemory, rfl⟩ := List.mem_map.mp hrow
          apply h _ _ vectors hvectors
          rw [List.zip_map_left]
          exact List.mem_map.mpr ⟨memory, hmemory, rfl⟩
        unfold persistImported
        split
        · exact .bind (insertMemories_within hrows) fun _ => .pure _
        · exact persistRows_within hrows
      · exact .raise _

end

end YiQiao
