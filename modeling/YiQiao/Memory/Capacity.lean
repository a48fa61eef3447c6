import YiQiao.Memory.Growth

/-!
# The capacity check of an add

An add asks a callback for room before it writes. The calls are recorded with the rows that stood there: an add calls
at most once, before its first insert, and for at least as many rows as it inserts. A procedural add with an operation
context does not call.
-/

namespace YiQiao

open Lib Filters

variable {V S α β : Type}

/-! ## Adds with their calls -/

/-- The calls of the callback, with the rows that stood there. -/
abbrev Calls (V : Type) := List (Nat × Table V)

abbrev Watched (V α : Type) := Effect PyError (MemoryState V × Calls V) α

/-- An operation that does not call. -/
def quietly (x : Op V α) : Watched V α := ⟨fun s => ((x.run s.1).1, (x.run s.1).2, s.2)⟩

/-- `pre_vector_write(n)`. -/
def askFor (check : Nat → Except PyError Unit) (n : Nat) : Watched V Unit :=
  ⟨fun s => (check n, s.1, s.2 ++ [(n, s.1.memories)])⟩

/-- `_add_to_vector_store` with `infer=False`. -/
def watchRawMessages (W : Writer V S) (O : Providers V) (messages : List Entries) (metadata : Entries)
    (scope : ScopeIds) (preVectorWrite : Nat → Except PyError Unit) (embeddingUnavailable : Bool) :
    Watched V (List AddedMemory) := do
  let valid := messages.filter isCandidate
  let memories ← quietly (Effect.read fun s => s.memories)
  let texts ← quietly (Effect.lift (valid.mapM fun m => do pure (m, ← messageText m)))
  let hash := fun e : Entries × String => W.contentHash e.2
  let known := existingPayloadValues W.platform memories "hash" (texts.map hash) (scopeFilters scope)
  let selected := selectNew hash known texts
  askFor preVectorWrite selected.length
  quietly (Effect.loop (addRaw W O metadata scope embeddingUnavailable) [] selected)

/-- `_add_to_vector_store` from the extracted memories on. -/
def watchExtracted [Score S] (W : Writer V S) (O : Providers V) (messages : List Entries)
    (metadata : Entries) (scope : ScopeIds) (preVectorWrite : Nat → Except PyError Unit)
    (existing : List (Row V)) (extracted : List Entries) : Watched V (List AddedMemory) := do
  let memories ← quietly (Effect.read fun s => s.memories)
  let selected := selectExtracted W memories (scopeFilters scope) existing extracted
  askFor preVectorWrite selected.length
  quietly (if selected.isEmpty then do
      saveMessages O.now messages (buildSessionScope scope)
      pure []
    else do
      let vectors := embedTexts O (selected.map extractedText)
      let persisted ← persistRows (selected.map (extractedRow W O metadata scope vectors))
      finishAdd W O messages scope persisted)

/-- `_add_to_vector_store`. -/
def watchToVectorStore [Score S] (W : Writer V S) (O : Providers V) (messages : List Entries)
    (metadata : Entries) (scope : ScopeIds) (infer : Bool) (prompt : Option String)
    (preVectorWrite : Nat → Except PyError Unit) : Watched V (List AddedMemory) := do
  if !infer then watchRawMessages W O messages metadata scope preVectorWrite false
  else match O.embed .search (parseMessages W.platform messages) with
    | none => watchRawMessages W O messages metadata scope preVectorWrite true
    | some vector => do
        let memories ← quietly (Effect.read fun s => s.memories)
        let hits ← quietly (Effect.lift
          (memories.search W.platform W.distance vector 10 (scopeFilters scope)))
        let existing := hits.map Hit.row
        let extracted ← quietly (extractMemories W O messages scope prompt existing)
        watchExtracted W O messages metadata scope preVectorWrite existing extracted

/-- `_create_procedural_memory`. -/
def watchProceduralMemory (W : Writer V S) (O : Providers V) (messages : List Value)
    (metadata : Entries) (prompt : Option String) (preVectorWrite : Nat → Except PyError Unit) :
    Watched V (List AddedMemory) := do
  match O.summarize messages prompt with
  | none => quietly (Effect.raise .providerError)
  | some text => do
      askFor preVectorWrite 1
      quietly (match O.embed .add text with
        | none => Effect.raise .providerError
        | some vector => do
            let id ← drawId W
            let created ← createMemory W O.now text (some vector)
              (Dict.set "memory_type" (.str "procedural_memory") metadata) id false
            pure ((created.toList).map fun id => ⟨id, text, .null, .null, [], none, none⟩))

/-- `Memory.add`. -/
def watchAdd [Score S] (W : Writer V S) (O : Providers V) (request : AddRequest) : Watched V (List AddedMemory) := do
  let (metadata, scope, messages) ← quietly (Effect.lift (prepareAdd W request))
  if request.ids.agentId.isSome && request.memoryType.isSome then
    watchProceduralMemory W O messages metadata request.prompt request.preVectorWrite
  else do
    let parsed ← quietly (Effect.lift (parseVisionMessages W O messages))
    watchToVectorStore W O parsed metadata scope request.infer request.prompt request.preVectorWrite

/-- `_add_to_vector_store_with_operation_context`. -/
def watchImported [Score S] (W : Writer V S) (O : Providers V) (messages : List Entries)
    (metadata : Entries) (scope : ScopeIds) (context : OperationContext) : Watched V (List (Row V)) := do
  match O.embed .search (parseMessages W.platform messages) with
  | none => quietly (Effect.raise .providerError)
  | some vector => do
      let memories ← quietly (Effect.read fun s => s.memories)
      let hits ← quietly (Effect.lift
        (memories.search W.platform W.distance vector 10 (scopeFilters scope)))
      let existing := hits.map Hit.row
      let extracted ← quietly (Effect.lift context.extracted)
      let selected := selectImported W context existing extracted
      if selected.isEmpty then quietly (pure [])
      else do
        askFor context.preVectorWrite selected.length
        quietly (do
          let vectors ← Effect.lift (embedImported O (selected.map extractedText))
          let rows := (selected.zip vectors).map (importedRow W O.now context existing metadata)
          if (rows.map Row.id).Nodup ∧ ∀ row ∈ rows, row.id ≠ "" then
            persistImported context.strictVectorWrite rows
          else Effect.raise .typeError)

/-- `Memory.add` with an operation context: a procedural memory is made without it. -/
def watchAddWithContext [Score S] (W : Writer V S) (O : Providers V) (request : AddRequest)
    (context : OperationContext) : Watched V (List AddedMemory) := do
  let (metadata, scope, messages) ← quietly (Effect.lift (prepareAdd W request))
  if request.ids.agentId.isSome && request.memoryType.isSome then
    quietly (createProceduralMemory W O messages metadata request.prompt fun _ => .ok ())
  else do
    let parsed ← quietly (Effect.lift (parseVisionMessages W O messages))
    if request.infer then do
      let rows ← watchImported W O parsed metadata scope context
      quietly (pure (rows.map (formatAddedMemory W)))
    else quietly (Effect.raise (.valueError "MemoryOperationContext requires infer=True"))

/-! ## Recording the calls changes nothing -/

/-- Without its calls the operation is the other. -/
def Erases (w : Watched V α) (x : Op V α) : Prop :=
  ∀ s calls, (w.run (s, calls)).1 = (x.run s).1 ∧ (w.run (s, calls)).2.1 = (x.run s).2

theorem Erases.quietly (x : Op V α) : Erases (quietly x) x := fun _ _ => ⟨rfl, rfl⟩

theorem Erases.askFor (check : Nat → Except PyError Unit) (n : Nat) :
    Erases (askFor check n : Watched V Unit) (Effect.lift (check n)) := fun _ _ => ⟨rfl, rfl⟩

theorem Erases.bind {w : Watched V α} {x : Op V α} {g : α → Watched V β} {f : α → Op V β} (hx : Erases w x)
    (hf : ∀ a, Erases (g a) (f a)) : Erases (w >>= g) (x >>= f) := by
  intro s calls
  obtain ⟨hresult, hstate⟩ := hx s calls
  rw [Effect.run_bind, Effect.run_bind]
  rcases hw : w.run (s, calls) with ⟨result, s', calls'⟩
  rcases hr : x.run s with ⟨result', s''⟩
  rw [hw, hr] at hresult hstate
  cases hresult
  cases hstate
  cases result with
  | error e => exact ⟨rfl, rfl⟩
  | ok a => exact hf a s' calls'

section

variable {W : Writer V S} {O : Providers V} {metadata : Entries} {scope : ScopeIds}
  {check : Nat → Except PyError Unit}

theorem watchRawMessages_erases (messages : List Entries) (unavailable : Bool) :
    Erases (watchRawMessages W O messages metadata scope check unavailable)
      (addRawMessages W O messages metadata scope check unavailable) := by
  apply Erases.bind (.quietly _)
  intro memories
  apply Erases.bind (.quietly _)
  intro texts
  exact Erases.bind (.askFor _ _) fun _ => .quietly _

theorem watchProceduralMemory_erases (messages : List Value) (prompt : Option String) :
    Erases (watchProceduralMemory W O messages metadata prompt check)
      (createProceduralMemory W O messages metadata prompt check) := by
  unfold watchProceduralMemory createProceduralMemory
  cases O.summarize messages prompt with
  | none => exact .quietly _
  | some text => exact Erases.bind (.askFor _ _) fun _ => .quietly _

variable [Score S]

theorem watchToVectorStore_erases (messages : List Entries) (infer : Bool) (prompt : Option String) :
    Erases (watchToVectorStore W O messages metadata scope infer prompt check)
      (addToVectorStore W O messages metadata scope infer prompt check) := by
  unfold watchToVectorStore addToVectorStore
  split
  · exact watchRawMessages_erases _ _
  · cases O.embed .search (parseMessages W.platform messages) with
    | none => exact watchRawMessages_erases _ _
    | some vector =>
      apply Erases.bind (.quietly _)
      intro memories
      apply Erases.bind (.quietly _)
      intro hits
      apply Erases.bind (.quietly _)
      intro extracted
      apply Erases.bind (.quietly _)
      intro memories
      exact Erases.bind (.askFor _ _) fun _ => .quietly _

theorem watchAdd_erases (request : AddRequest) : Erases (watchAdd W O request) (add W O request) := by
  apply Erases.bind (.quietly _)
  rintro ⟨metadata, scope, messages⟩
  dsimp only
  split
  · exact watchProceduralMemory_erases _ _
  · exact Erases.bind (.quietly _) fun _ => watchToVectorStore_erases _ _ _

theorem watchImported_erases (messages : List Entries) (context : OperationContext) :
    Erases (watchImported W O messages metadata scope context) (addImported W O messages metadata scope context) := by
  unfold watchImported addImported
  cases O.embed .search (parseMessages W.platform messages) with
  | none => exact .quietly _
  | some vector =>
    apply Erases.bind (.quietly _)
    intro memories
    apply Erases.bind (.quietly _)
    intro hits
    apply Erases.bind (.quietly _)
    intro extracted
    dsimp only
    split
    · exact .quietly _
    · exact Erases.bind (.askFor _ _) fun _ => .quietly _

theorem watchAddWithContext_erases (request : AddRequest) (context : OperationContext) :
    Erases (watchAddWithContext W O request context) (addWithContext W O request context) := by
  apply Erases.bind (.quietly _)
  rintro ⟨metadata, scope, messages⟩
  dsimp only
  split
  · exact .quietly _
  · apply Erases.bind (.quietly _)
    intro parsed
    split
    · exact Erases.bind (watchImported_erases _ _) fun _ => .quietly _
    · exact .quietly _

end

/-! ## How many rows an operation appends -/

/-- At most `n` rows are appended, and none is changed. -/
def AppendsAtMost (n : Nat) (x : Op V α) : Prop :=
  ∀ s, ∃ rows, (x.run s).2.memories.rows = s.memories.rows ++ rows ∧ rows.length ≤ n

namespace AppendsAtMost

variable {n m : Nat} {x : Op V α} {f : α → Op V β}

theorem of_same (h : Effect.Within SameMemories x) : AppendsAtMost n x := by
  intro s
  refine ⟨[], ?_, Nat.zero_le _⟩
  rw [h s, List.append_nil]

theorem bind (hx : AppendsAtMost n x) (hf : ∀ a, AppendsAtMost m (f a)) : AppendsAtMost (n + m) (x >>= f) := by
  intro s
  obtain ⟨rows, hrows, hn⟩ := hx s
  rw [Effect.run_bind]
  rcases hr : x.run s with ⟨result, s'⟩
  rw [hr] at hrows
  cases result with
  | error e => exact ⟨rows, hrows, by omega⟩
  | ok a =>
    obtain ⟨rows', hrows', hm⟩ := hf a s'
    refine ⟨rows ++ rows', ?_, ?_⟩
    · rw [hrows', hrows, List.append_assoc]
    · rw [List.length_append]
      omega

theorem after_same (hx : Effect.Within SameMemories x) (hf : ∀ a, AppendsAtMost m (f a)) :
    AppendsAtMost m (x >>= f) := by
  have h := (of_same hx).bind hf (n := 0)
  rwa [Nat.zero_add] at h

theorem then_same (hx : AppendsAtMost n x) (hf : ∀ a, Effect.Within SameMemories (f a)) :
    AppendsAtMost n (x >>= f) := hx.bind fun a => of_same (n := 0) (hf a)

theorem mono (h : AppendsAtMost n x) (hle : n ≤ m) : AppendsAtMost m x := by
  intro s
  obtain ⟨rows, hrows, hn⟩ := h s
  exact ⟨rows, hrows, hn.trans hle⟩

theorem loop {g : β → α → Op V β} (h : ∀ b a, AppendsAtMost 1 (g b a)) (as : List α) (b : β) :
    AppendsAtMost as.length (Effect.loop g b as) := by
  induction as generalizing b with
  | nil => exact of_same (.pure b)
  | cons a as ih =>
    rw [Effect.loop_cons, List.length_cons, Nat.add_comm]
    exact bind (h b a) ih

end AppendsAtMost

section

variable {W : Writer V S} {O : Providers V} {metadata : Entries} {scope : ScopeIds}

theorem insertMemories_appends (rows : List (Row V)) : AppendsAtMost rows.length (insertMemories rows) := by
  intro s
  simp only [insertMemories, Effect.run_bind_read]
  cases ht : s.memories.insert rows with
  | error e => exact ⟨[], (List.append_nil _).symm, Nat.zero_le _⟩
  | ok t => exact ⟨rows, Table.rows_insert ht, le_rfl⟩

theorem finishCreate_same (row : Row V) (data : String) (skip : Bool) (r : Except PyError Unit) :
    Effect.Within SameMemories (finishCreate W row data skip r) := by
  cases r with
  | ok u => exact .bind (addHistory_within _) fun _ => .pure _
  | error e =>
    refine .bind (.read _) fun existing => ?_
    split
    · exact .pure _
    · exact .raise _

theorem createMemory_appends (now data : String) (vector : Option V) (id : String) (skip : Bool) :
    AppendsAtMost 1 (createMemory W now data vector metadata id skip) := by
  apply AppendsAtMost.after_same (.read _)
  intro existing
  split
  · exact .of_same (.pure _)
  · exact AppendsAtMost.then_same (insertMemories_appends [_]) fun r => finishCreate_same _ _ _ r

theorem addRaw_appends (unavailable : Bool) (added : List AddedMemory) (selected : Entries × String) :
    AppendsAtMost 1 (addRaw W O metadata scope unavailable added selected) := by
  apply AppendsAtMost.then_same (createMemory_appends _ _ _ _ _)
  intro created
  split
  · exact .pure _
  · exact .pure _

theorem insertEach_appends (rows : List (Row V)) : AppendsAtMost rows.length (insertEach rows) := by
  apply AppendsAtMost.loop
  intro persisted row
  apply AppendsAtMost.then_same (n := 1)
  · exact insertMemories_appends [row]
  · intro r
    cases r with
    | ok u => exact .pure _
    | error e => exact .pure _

/-- The rows of a batch that fails are inserted one by one. -/
theorem persistRows_appends (rows : List (Row V)) : AppendsAtMost rows.length (persistRows rows) := by
  intro s
  simp only [persistRows, Effect.run_bind_attempt, insertMemories, Effect.run_bind_read]
  cases ht : s.memories.insert rows with
  | error e => exact insertEach_appends rows s
  | ok t => exact ⟨rows, Table.rows_insert ht, le_rfl⟩

end

/-! ## One call before the rows -/

/-- Nothing is appended without a call, and a call that stands before it asks for enough. -/
inductive Guarded (check : Nat → Except PyError Unit) (s : MemoryState V) :
    Except PyError α × MemoryState V × Calls V → Prop
  | silent {result : Except PyError α} {s' : MemoryState V} (h : s'.memories = s.memories) :
      Guarded check s (result, s', [])
  | refused {result : Except PyError α} {s' : MemoryState V} {n : Nat} (h : s'.memories = s.memories) :
      Guarded check s (result, s', [(n, s.memories)])
  | granted {result : Except PyError α} {s' : MemoryState V} {n : Nat} {rows : List (Row V)} (hok : check n = .ok ())
      (hrows : s'.memories.rows = s.memories.rows ++ rows) (hn : rows.length ≤ n) :
      Guarded check s (result, s', [(n, s.memories)])

section

variable {check : Nat → Except PyError Unit} {s : MemoryState V}

theorem Guarded.quietly {x : Op V α} (hx : Effect.Within SameMemories x) :
    Guarded check s ((quietly x).run (s, [])) := .silent (hx s)

theorem Guarded.bind_quietly {x : Op V α} {f : α → Watched V β} (hx : Effect.Within SameMemories x)
    (hf : ∀ a s', s'.memories = s.memories → Guarded check s' ((f a).run (s', []))) :
    Guarded check s ((YiQiao.quietly x >>= f).run (s, [])) := by
  rw [Effect.run_bind]
  have hsame := hx s
  rcases hr : x.run s with ⟨result, s'⟩
  rw [hr] at hsame
  have hquiet : (YiQiao.quietly x).run (s, []) = (result, s', []) := by
    show ((x.run s).1, (x.run s).2, []) = _
    rw [hr]
  rw [hquiet]
  cases result with
  | error e => exact .silent hsame
  | ok a =>
    have hrest := hf a s' hsame
    have hmemories : s'.memories = s.memories := hsame
    change Guarded check s ((f a).run (s', []))
    revert hrest
    generalize (f a).run (s', []) = r
    intro hrest
    cases hrest with
    | silent h => exact .silent (h.trans hmemories)
    | refused h =>
      rw [hmemories]
      exact .refused (h.trans hmemories)
    | granted hok hrows hn =>
      rw [hmemories]
      exact .granted hok (by rw [hrows, hmemories]) hn

/-- After the call nothing but the rows it asked for is written. -/
theorem Guarded.ask {n : Nat} {x : Op V β} (hx : AppendsAtMost n x) :
    Guarded check s ((askFor check n >>= fun _ => YiQiao.quietly x).run (s, [])) := by
  rw [Effect.run_bind, askFor]
  dsimp only
  cases hcheck : check n with
  | error e => exact .refused rfl
  | ok u =>
    obtain ⟨rows, hrows, hn⟩ := hx s
    exact .granted hcheck hrows hn

variable {W : Writer V S} {O : Providers V} {metadata : Entries} {scope : ScopeIds}

theorem watchRawMessages_guarded (messages : List Entries) (unavailable : Bool) :
    Guarded check s ((watchRawMessages W O messages metadata scope check unavailable).run (s, [])) := by
  apply Guarded.bind_quietly (.read _)
  intro memories s₁ h₁
  apply Guarded.bind_quietly (.lift _)
  intro texts s₂ h₂
  exact Guarded.ask (AppendsAtMost.loop (addRaw_appends unavailable) _ _)

theorem createProcedural_appends (messages : List Value) (prompt : Option String) :
    AppendsAtMost 1 (createProceduralMemory W O messages metadata prompt check) := by
  unfold createProceduralMemory
  cases O.summarize messages prompt with
  | none => exact .of_same (.raise _)
  | some text =>
    apply AppendsAtMost.after_same (.lift _)
    intro _
    cases O.embed .add text with
    | none => exact .of_same (.raise _)
    | some vector =>
      apply AppendsAtMost.after_same (drawId_within W)
      intro id
      exact AppendsAtMost.then_same (createMemory_appends _ _ _ _ _) fun _ => .pure _

theorem watchProceduralMemory_guarded (messages : List Value) (prompt : Option String) :
    Guarded check s ((watchProceduralMemory W O messages metadata prompt check).run (s, [])) := by
  unfold watchProceduralMemory
  cases O.summarize messages prompt with
  | none => exact .quietly (.raise _)
  | some text =>
    apply Guarded.ask
    cases O.embed .add text with
    | none => exact .of_same (.raise _)
    | some vector =>
      apply AppendsAtMost.after_same (drawId_within W)
      intro id
      exact AppendsAtMost.then_same (createMemory_appends _ _ _ _ _) fun _ => .pure _

variable [Score S]

theorem watchExtracted_guarded (messages : List Entries) (existing : List (Row V)) (extracted : List Entries) :
    Guarded check s ((watchExtracted W O messages metadata scope check existing extracted).run (s, [])) := by
  apply Guarded.bind_quietly (.read _)
  intro memories s₁ h₁
  apply Guarded.ask
  split
  · exact .of_same (.bind (saveMessages_within _ _ _) fun _ => .pure _)
  · apply AppendsAtMost.then_same
    · apply (persistRows_appends _).mono
      rw [List.length_map]
    · intro persisted
      exact finishAdd_within _ _ _ _ _

theorem watchToVectorStore_guarded (messages : List Entries) (infer : Bool) (prompt : Option String) :
    Guarded check s ((watchToVectorStore W O messages metadata scope infer prompt check).run (s, [])) := by
  unfold watchToVectorStore
  split
  · exact watchRawMessages_guarded _ _
  · cases O.embed .search (parseMessages W.platform messages) with
    | none => exact watchRawMessages_guarded _ _
    | some vector =>
      apply Guarded.bind_quietly (.read _)
      intro memories s₁ h₁
      apply Guarded.bind_quietly (.lift _)
      intro hits s₂ h₂
      apply Guarded.bind_quietly (extractMemories_within _ _ _ _ _ _)
      intro extracted s₃ h₃
      exact watchExtracted_guarded _ _ _

theorem watchAdd_guarded (request : AddRequest) :
    Guarded request.preVectorWrite s ((watchAdd W O request).run (s, [])) := by
  apply Guarded.bind_quietly (.lift _)
  rintro ⟨metadata, scope, messages⟩ s₁ h₁
  dsimp only
  split
  · exact watchProceduralMemory_guarded _ _
  · apply Guarded.bind_quietly (.lift _)
    intro parsed s₂ h₂
    exact watchToVectorStore_guarded _ _ _

/-- What stands after the add does not matter. -/
theorem Guarded.map {w : Watched V α} {g : α → β} (h : Guarded check s (w.run (s, []))) :
    Guarded check s ((w >>= fun a => YiQiao.quietly (pure (g a))).run (s, [])) := by
  rw [Effect.run_bind]
  rcases hw : w.run (s, []) with ⟨result, s', calls⟩
  rw [hw] at h
  cases result with
  | error e =>
    cases h with
    | silent h => exact .silent h
    | refused h => exact .refused h
    | granted hok hrows hn => exact .granted hok hrows hn
  | ok a =>
    cases h with
    | silent h => exact .silent h
    | refused h => exact .refused h
    | granted hok hrows hn => exact .granted hok hrows hn

theorem persistImported_appends (strict : Bool) (rows : List (Row V)) :
    AppendsAtMost rows.length (persistImported strict rows) := by
  unfold persistImported
  split
  · exact AppendsAtMost.then_same (insertMemories_appends rows) fun _ => .pure _
  · exact persistRows_appends rows

theorem watchImported_guarded (messages : List Entries) (context : OperationContext) :
    Guarded context.preVectorWrite s ((watchImported W O messages metadata scope context).run (s, [])) := by
  unfold watchImported
  cases O.embed .search (parseMessages W.platform messages) with
  | none => exact .quietly (.raise _)
  | some vector =>
    apply Guarded.bind_quietly (.read _)
    intro memories s₁ h₁
    apply Guarded.bind_quietly (.lift _)
    intro hits s₂ h₂
    apply Guarded.bind_quietly (.lift _)
    intro extracted s₃ h₃
    dsimp only
    split
    · exact .quietly (.pure _)
    · apply Guarded.ask
      apply AppendsAtMost.after_same (.lift _)
      intro vectors
      split
      · apply (persistImported_appends _ _).mono
        simp
      · exact .of_same (.raise _)

end

/-! ## The claim of an add -/

/-- The rows an add appended, and the calls it made for them. -/
def CapacityChecked (check : Nat → Except PyError Unit) (s : MemoryState V)
    (r : Except PyError α × MemoryState V × Calls V) : Prop :=
  ∃ rows, r.2.1.memories.rows = s.memories.rows ++ rows ∧
    (rows ≠ [] → ∃ n, r.2.2 = [(n, s.memories)] ∧ rows.length ≤ n) ∧
    ∀ call ∈ r.2.2, ∀ e, check call.1 = .error e → rows = []

theorem Guarded.capacityChecked {check : Nat → Except PyError Unit} {s : MemoryState V}
    {r : Except PyError α × MemoryState V × Calls V} (h : Guarded check s r) : CapacityChecked check s r := by
  cases h with
  | silent h => exact ⟨[], by simp [h], by simp, by simp⟩
  | refused h => exact ⟨[], by simp [h], by simp, by simp⟩
  | granted hok hrows hn =>
    refine ⟨_, hrows, fun _ => ⟨_, rfl, hn⟩, ?_⟩
    intro call hcall e he
    rw [List.mem_singleton.mp hcall, hok] at he
    cases he

/-! ## A procedural memory with a context -/

/-- The request makes a procedural memory: its text is summarized and embedded, and the id it draws is free. -/
def ProcedureStored (W : Writer V S) (O : Providers V) (request : AddRequest) (s : MemoryState V) : Prop :=
  request.ids.agentId.isSome ∧ request.memoryType.isSome ∧
    ∃ metadata scope messages text vector, prepareAdd W request = .ok (metadata, scope, messages) ∧
      O.summarize messages request.prompt = some text ∧ O.embed .add text = some vector ∧
      W.uuid4 s.supply ≠ "" ∧ W.uuid4 s.supply ∉ s.memories.rows.map Row.id

/-- A row is inserted alone exactly when its id is a name that is free. -/
theorem Table.insert_singleton (t : Table V) (row : Row V) :
    (∃ t', t.insert [row] = .ok t') ↔ row.id ≠ "" ∧ row.id ∉ t.rows.map Row.id := by
  have hnodup : ((t.rows ++ [row]).map Row.id).Nodup ↔ row.id ∉ t.rows.map Row.id := by
    rw [List.map_append, List.map_singleton, List.nodup_append_comm, List.singleton_append, List.nodup_cons]
    exact and_iff_left t.unique
  have hnamed : (∀ r ∈ t.rows ++ [row], r.id ≠ "") ↔ row.id ≠ "" := by
    constructor
    · intro h
      exact h row (by simp)
    · intro h r hr
      rcases List.mem_append.mp hr with hold | hnew
      · exact t.named r hold
      · exact (List.mem_singleton.mp hnew) ▸ h
  unfold Table.insert
  split
  · rename_i h
    exact ⟨fun _ => ⟨hnamed.mp h.2, hnodup.mp h.1⟩, fun _ => ⟨_, rfl⟩⟩
  · rename_i h
    constructor
    · rintro ⟨t', ht'⟩
      cases ht'
    · intro hfree
      exact absurd ⟨hnodup.mpr hfree.2, hnamed.mpr hfree.1⟩ h

section

variable {W : Writer V S} {O : Providers V} {metadata : Entries} {s : MemoryState V}

theorem createMemory_fresh {now data id : String} {vector : Option V} (hname : id ≠ "")
    (hfree : id ∉ s.memories.rows.map Row.id) :
    ∃ row, ((createMemory W now data vector metadata id false).run s).2.memories.rows = s.memories.rows ++ [row] := by
  obtain ⟨t, ht⟩ := (Table.insert_singleton s.memories ⟨id, vector, createdPayload W now data metadata⟩).mpr
    ⟨hname, hfree⟩
  have hrun : (createMemory W now data vector metadata id false).run s =
      (finishCreate W ⟨id, vector, createdPayload W now data metadata⟩ data false (.ok ())).run
        { s with memories := t } := by
    simp [createMemory, getMemory, insertMemories, Effect.run_bind, ht]
  have hsame := finishCreate_same (W := W) ⟨id, vector, createdPayload W now data metadata⟩ data false (.ok ())
    { s with memories := t }
  refine ⟨⟨id, vector, createdPayload W now data metadata⟩, ?_⟩
  rw [hrun, hsame]
  exact Table.rows_insert ht

theorem createMemory_taken {now data id : String} {vector : Option V}
    (h : ¬ (id ≠ "" ∧ id ∉ s.memories.rows.map Row.id)) :
    SameMemories s ((createMemory W now data vector metadata id false).run s).2 := by
  have herror : ∃ e, s.memories.insert [⟨id, vector, createdPayload W now data metadata⟩] = .error e := by
    cases ht : s.memories.insert [⟨id, vector, createdPayload W now data metadata⟩] with
    | error e => exact ⟨e, rfl⟩
    | ok t => exact absurd ((Table.insert_singleton s.memories _).mp ⟨t, ht⟩) h
  obtain ⟨e, he⟩ := herror
  have hrun : (createMemory W now data vector metadata id false).run s =
      (finishCreate W ⟨id, vector, createdPayload W now data metadata⟩ data false (.error e)).run s := by
    simp [createMemory, getMemory, insertMemories, Effect.run_bind, he]
  rw [hrun]
  exact finishCreate_same _ _ _ _ s

theorem createProcedural_state {messages : List Value} {prompt : Option String} {text : String} {vector : V}
    (htext : O.summarize messages prompt = some text) (hvector : O.embed .add text = some vector) :
    ((createProceduralMemory W O messages metadata prompt fun _ => .ok ()).run s).2 =
      ((createMemory W O.now text (some vector) (Dict.set "memory_type" (.str "procedural_memory") metadata)
        (W.uuid4 s.supply) false).run { s with supply := s.supply + 1 }).2 := by
  simp only [createProceduralMemory, htext, hvector, drawId, Effect.run_bind, Effect.run_lift, Effect.run_read,
    Effect.run_modify, Effect.run_pure]
  split <;> simp_all

theorem createProcedural_stored {messages : List Value} {prompt : Option String} {text : String} {vector : V}
    (htext : O.summarize messages prompt = some text) (hvector : O.embed .add text = some vector)
    (hname : W.uuid4 s.supply ≠ "") (hfree : W.uuid4 s.supply ∉ s.memories.rows.map Row.id) :
    ∃ row, ((createProceduralMemory W O messages metadata prompt fun _ => .ok ()).run s).2.memories.rows =
      s.memories.rows ++ [row] := by
  rw [createProcedural_state htext hvector]
  exact createMemory_fresh (s := { s with supply := s.supply + 1 }) hname hfree

theorem createProcedural_same {messages : List Value} {prompt : Option String}
    (h : ∀ text vector, O.summarize messages prompt = some text → O.embed .add text = some vector →
      ¬ (W.uuid4 s.supply ≠ "" ∧ W.uuid4 s.supply ∉ s.memories.rows.map Row.id)) :
    SameMemories s ((createProceduralMemory W O messages metadata prompt fun _ => .ok ()).run s).2 := by
  cases htext : O.summarize messages prompt with
  | none => simp [createProceduralMemory, htext, SameMemories]
  | some text =>
    cases hvector : O.embed .add text with
    | none => simp [createProceduralMemory, htext, hvector, Effect.run_bind, SameMemories]
    | some vector =>
      rw [createProcedural_state htext hvector]
      exact createMemory_taken (s := { s with supply := s.supply + 1 }) (h text vector htext hvector)

variable [Score S]

/-- A procedural memory that is stored with a context has not been asked for. -/
theorem watchAddWithContext_unchecked {request : AddRequest} {context : OperationContext}
    (h : ProcedureStored W O request s) :
    ¬ CapacityChecked context.preVectorWrite s ((watchAddWithContext W O request context).run (s, [])) := by
  obtain ⟨hagent, htype, metadata, scope, messages, text, vector, hprepare, htext, hvector, hname, hfree⟩ := h
  obtain ⟨row, hrow⟩ : ∃ row, ((createProceduralMemory W O messages metadata request.prompt fun _ => .ok ()).run
      s).2.memories.rows = s.memories.rows ++ [row] := createProcedural_stored htext hvector hname hfree
  have hrun : (watchAddWithContext W O request context).run (s, []) =
      (quietly (createProceduralMemory W O messages metadata request.prompt fun _ => .ok ())).run (s, []) := by
    simp [watchAddWithContext, quietly, Effect.run_bind, hprepare, hagent, htype]
  rw [hrun]
  rintro ⟨rows, hrows, hasked, _⟩
  have happended : s.memories.rows ++ [row] = s.memories.rows ++ rows := hrow ▸ hrows
  have hsingle : [row] = rows := List.append_cancel_left happended
  obtain ⟨n, hcalls, _⟩ := hasked (by simp [← hsingle])
  cases hcalls

theorem watchAddWithContext_guarded {request : AddRequest} {context : OperationContext}
    (h : ¬ ProcedureStored W O request s) :
    Guarded context.preVectorWrite s ((watchAddWithContext W O request context).run (s, [])) := by
  cases hprepare : prepareAdd W request with
  | error e =>
    simp only [watchAddWithContext, quietly, Effect.run_bind, Effect.run_lift, hprepare]
    exact .silent rfl
  | ok prepared =>
    obtain ⟨metadata, scope, messages⟩ := prepared
    have hrun : (watchAddWithContext W O request context).run (s, []) =
        (if request.ids.agentId.isSome && request.memoryType.isSome then
          quietly (createProceduralMemory W O messages metadata request.prompt fun _ => .ok ())
        else do
          let parsed ← quietly (Effect.lift (parseVisionMessages W O messages))
          if request.infer then do
            let rows ← watchImported W O parsed metadata scope context
            quietly (pure (rows.map (formatAddedMemory W)))
          else quietly (Effect.raise (.valueError "MemoryOperationContext requires infer=True"))).run (s, []) := by
      simp only [watchAddWithContext, quietly, Effect.run_bind, Effect.run_lift, hprepare]
    rw [hrun]
    split
    · rename_i hprocedural
      obtain ⟨hagent, htype⟩ := Bool.and_eq_true_iff.mp hprocedural
      apply Guarded.silent
      apply createProcedural_same
      rintro text vector htext hvector ⟨hname, hfree⟩
      exact h ⟨hagent, htype, metadata, scope, messages, text, vector, hprepare, htext, hvector, hname, hfree⟩
    · apply Guarded.bind_quietly (.lift _)
      intro parsed s₁ h₁
      split
      · exact (watchImported_guarded _ _).map
      · exact .quietly (.raise _)

end

/-- The recorded adds are the adds. The capacity check of an add without a context stands before its rows, and that of
an add with one does unless a procedural memory is stored. -/
theorem capacityChecked_iff [Score S] (W : Writer V S) (O : Providers V) (request : AddRequest)
    (context : OperationContext) (s : MemoryState V) :
    (Erases (watchAdd W O request) (add W O request) ∧
      Erases (watchAddWithContext W O request context) (addWithContext W O request context)) ∧
    CapacityChecked request.preVectorWrite s ((watchAdd W O request).run (s, [])) ∧
    (CapacityChecked context.preVectorWrite s ((watchAddWithContext W O request context).run (s, [])) ↔
      ¬ ProcedureStored W O request s) := by
  refine ⟨⟨watchAdd_erases request, watchAddWithContext_erases request context⟩,
    (watchAdd_guarded request).capacityChecked, ?_, ?_⟩
  · intro hchecked hstored
    exact watchAddWithContext_unchecked hstored hchecked
  · intro h
    exact (watchAddWithContext_guarded h).capacityChecked

/-- Providers that summarize and embed everything alike. -/
def Providers.constant (now text : String) : Providers Unit :=
  { Providers.silent now with
    embed := fun _ _ => some ()
    summarize := fun _ _ => some text }

/-- The request for a procedural memory of an agent. -/
def procedureOf (agent : String) (messages : Value) : AddRequest where
  messages := messages
  ids := ⟨none, some agent, none, none⟩
  metadata := none
  timestamp := none
  expirationDate := .null
  infer := true
  memoryType := some "procedural_memory"
  prompt := none
  preVectorWrite := fun _ => .ok ()

/-- A context whose callback refuses everything. -/
def OperationContext.full : OperationContext where
  extracted := .ok []
  memoryHashClaim := fun _ => true
  idFactory := id
  strictVectorWrite := true
  preVectorWrite := fun _ => .error (.valueError "storage quota exceeded")

theorem procedure_unchecked :
    ¬ CapacityChecked OperationContext.full.preVectorWrite ⟨⟨Table.empty, Table.empty⟩, false, [], [], 0⟩
      ((watchAddWithContext (Writer.plain .ascii : Writer Unit ℚ) (.constant "now" "Check in, then board.")
        (procedureOf "guide" (.str "How did you board?")) .full).run
          (⟨⟨Table.empty, Table.empty⟩, false, [], [], 0⟩, [])) := by
  apply watchAddWithContext_unchecked
  refine ⟨rfl, rfl, _, _, _, "Check in, then board.", (), rfl, rfl, rfl, ?_, ?_⟩
  · decide
  · simp [Table.empty]

end YiQiao
