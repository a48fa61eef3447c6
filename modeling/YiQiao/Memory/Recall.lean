import YiQiao.Memory.Duplicates

/-!
# Recall

After an `add` that took in a fact and returned, a row of the scope has its content, and no second row
of the scope has its hash. An update keeps the id of a row and changes its text, so the fact the id was
derived from may find its place taken.
-/

namespace YiQiao

open Lib Filters

variable {V S : Type}

/-! ## What a collection holds -/

/-- The id of a fact. -/
def factId (W : Writer V S) (scope : ScopeIds) (fact : String) : String :=
  memoryIdForHash W scope (W.contentHash fact)

/-- A row of the scope has the normalized content of the fact. -/
def Held (W : Writer V S) (scope : ScopeIds) (fact : String) (s : MemoryState V) : Prop :=
  ∃ row ∈ s.memories.rows, inScope W.platform scope row.payload = true ∧
    ∃ text, row.payload.lookup "data" = some (.str text) ∧
      W.normalizeMemoryText text = W.normalizeMemoryText fact

/-- A row of the scope has the hash. -/
def Known (W : Writer V S) (scope : ScopeIds) (hash : String) (s : MemoryState V) : Prop :=
  ∃ row ∈ s.memories.rows, inScope W.platform scope row.payload = true ∧
    row.payload.text W.platform "hash" = some hash

/-- Every row carries the digests of its text. -/
def Digested (W : Writer V S) (s : MemoryState V) : Prop :=
  ∀ row ∈ s.memories.rows, Digests W false row.payload

theorem Held.mono {W : Writer V S} {scope : ScopeIds} {fact : String} {s s' : MemoryState V}
    (h : Held W scope fact s) (hsub : s.memories.rows ⊆ s'.memories.rows) : Held W scope fact s' := by
  obtain ⟨row, hrow, hscope⟩ := h
  exact ⟨row, hsub hrow, hscope⟩

theorem digests_hash {W : Writer V S} {payload : Payload} (h : Digests W false payload) :
    ∃ text, payload.lookup "data" = some (.str text) ∧
      payload.lookup "hash" = some (.str (W.contentHash text)) := by
  obtain ⟨text, hdata, _, hash, hhash, rfl | ⟨h, _⟩⟩ := h
  · exact ⟨text, hdata, hhash⟩
  · cases h

/-! ## What an add takes in -/

inductive Intake where
  | nothing
  | raw (facts : List String)
  | extracted (facts : List String)
  | procedural (fact : String)

def Intake.facts : Intake → List String
  | .nothing => []
  | .raw facts => facts
  | .extracted facts => facts
  | .procedural fact => [fact]

/-- The texts of the candidates. -/
def rawTexts (messages : List Entries) : Except PyError (List (Entries × String)) :=
  (messages.filter isCandidate).mapM fun m => do pure (m, ← messageText m)

def rawIntake (messages : List Entries) : Intake :=
  match rawTexts messages with
  | .ok texts => .raw (texts.map Prod.snd)
  | .error _ => .nothing

/-- The facts of a reply. -/
def newFacts (extracted : List Entries) : List String := (extracted.map extractedText).filter (· ≠ "")

def extractedIntake [Score S] (W : Writer V S) (O : Providers V) (messages : List Entries) (scope : ScopeIds)
    (prompt : Option String) (vector : V) (s : MemoryState V) : Intake :=
  match s.memories.search W.platform W.distance vector 10 (scopeFilters scope) with
  | .error _ => .nothing
  | .ok hits => match ((extractMemories W O messages scope prompt (hits.map Hit.row)).run s).1 with
    | .error _ => .nothing
    | .ok extracted => .extracted (newFacts extracted)

def proceduralIntake (O : Providers V) (messages : List Value) (prompt : Option String) : Intake :=
  match O.summarize messages prompt with
  | some text => .procedural text
  | none => .nothing

/-- The facts that an add accepts in a state; nothing where it raises before. -/
def intake [Score S] (W : Writer V S) (O : Providers V) (request : AddRequest) (s : MemoryState V) : Intake :=
  match prepareAdd W request with
  | .error _ => .nothing
  | .ok (_, scope, messages) =>
      if request.ids.agentId.isSome && request.memoryType.isSome then
        proceduralIntake O messages request.prompt
      else match parseVisionMessages W O messages with
        | .error _ => .nothing
        | .ok parsed =>
            if !request.infer then rawIntake parsed
            else match O.embed .search (parseMessages W.platform parsed) with
              | none => rawIntake parsed
              | some vector => extractedIntake W O parsed scope request.prompt vector s

/-! ## When an add remembers -/

/-- The texts of the scope, and those taken in, have other hashes where they have other contents. -/
structure Separates (W : Writer V S) (scope : ScopeIds) (s : MemoryState V) (facts : List String) : Prop where
  rows : ∀ fact ∈ facts, ∀ row ∈ s.memories.rows, inScope W.platform scope row.payload = true →
    ∀ text, row.payload.lookup "data" = some (.str text) → W.contentHash text = W.contentHash fact →
      W.normalizeMemoryText text = W.normalizeMemoryText fact
  facts : ∀ fact ∈ facts, ∀ other ∈ facts, W.contentHash fact = W.contentHash other →
    W.normalizeMemoryText fact = W.normalizeMemoryText other

/-- No collision of hashes, and the place of every fact that is not held is free. -/
def Intake.Clear (W : Writer V S) (scope : ScopeIds) (s : MemoryState V) : Intake → Prop
  | .nothing => True
  | .raw facts => Separates W scope s facts ∧ ∀ fact ∈ facts, Held W scope fact s ∨
      matchesHash W (s.memories.get (factId W scope fact)) (W.contentHash fact) = false
  | .extracted facts => Separates W scope s facts ∧
      (∀ fact ∈ facts, ∀ other ∈ facts, factId W scope fact = factId W scope other →
        W.contentHash fact = W.contentHash other) ∧
      ∀ fact ∈ facts, Held W scope fact s ∨ s.memories.get (factId W scope fact) = none
  | .procedural fact => ¬ Known W scope (W.contentHash fact) s

/-- Every new row is the only one of the scope with its hash. -/
def Single (W : Writer V S) (scope : ScopeIds) (s s' : MemoryState V) : Prop :=
  ∀ row ∈ newborn s s', ∀ other ∈ s'.memories.rows, inScope W.platform scope other.payload = true →
    other.payload.text W.platform "hash" = row.payload.text W.platform "hash" → other = row

/-! ## New rows -/

/-- A row as it is created for a fact. -/
structure Carries (W : Writer V S) (scope : ScopeIds) (fact : String) (row : Row V) : Prop where
  inScope : inScope W.platform scope row.payload = true
  data : row.payload.lookup "data" = some (.str fact)
  hash : row.payload.lookup "hash" = some (.str (W.contentHash fact))

section

variable {W : Writer V S} {scope : ScopeIds} {fact : String} {row : Row V} {s s' : MemoryState V}

theorem Carries.hashText (h : Carries W scope fact row) :
    row.payload.text W.platform "hash" = some (W.contentHash fact) := by
  rw [Payload.text, h.hash]
  rfl

theorem Carries.held (h : Carries W scope fact row) (hrow : row ∈ s.memories.rows) : Held W scope fact s :=
  ⟨row, hrow, h.inScope, fact, h.data, rfl⟩

theorem carries_of_agrees {metadata : Entries}
    (hmetadata : ∀ e ∈ scope, e.1 ∈ sessionScopeKeys ∧ metadata.lookup e.1 = some (.str e.2))
    (h : Agrees row.payload (textBase W fact (W.contentHash fact) metadata)) : Carries W scope fact row where
  inScope := by
    rw [YiQiao.inScope, List.all_eq_true]
    intro e he
    obtain ⟨hkey, hlookup⟩ := hmetadata e (List.mem_of_mem_filter he)
    rw [← lookup_of_agrees h hkey] at hlookup
    unfold idMatches Payload.text
    rw [hlookup]
    split
    · rfl
    · simp [Value.sqlText]
  data := (textFields_of_agrees h).1
  hash := (textFields_of_agrees h).2.2

/-- Rows of distinct new hashes are the only ones with their hashes. -/
theorem single_of_appends {pool : List (Row V)} (h : Appends pool s s')
    (hdistinct : (pool.map fun row => row.payload.text W.platform "hash").Nodup)
    (hfresh : ∀ row ∈ pool, ∀ old ∈ s.memories.rows, inScope W.platform scope old.payload = true →
      old.payload.text W.platform "hash" ≠ row.payload.text W.platform "hash") :
    Single W scope s s' := by
  obtain ⟨kept, hkept, hrows⟩ := h
  intro row hrow other hother hscope hhash
  rw [newborn_of_append hrows] at hrow
  rw [hrows] at hother
  rcases List.mem_append.mp hother with hother | hother
  · exact absurd hhash (hfresh row (hkept.subset hrow) other hother hscope)
  · exact List.inj_on_of_nodup_map hdistinct (hkept.subset hother) (hkept.subset hrow) hhash

end

/-! ## Adding raw memories -/

section

variable {W : Writer V S} {O : Providers V} {metadata : Entries} {scope : ScopeIds} {s : MemoryState V}

theorem mem_existing {candidates : List String} {hash : String} :
    hash ∈ existingPayloadValues W.platform s.memories "hash" candidates (scopeFilters scope) ↔
      hash ∈ candidates ∧ Known W scope hash s := by
  rw [existingPayloadValues_scope, List.mem_filter, List.any_eq_true]
  simp only [List.mem_filter, beq_iff_eq, Known, and_assoc]

theorem rawRow_carries (hmetadata : ∀ e ∈ scope, e.1 ∈ sessionScopeKeys ∧ metadata.lookup e.1 = some (.str e.2))
    (unavailable : Bool) (e : Entries × String) :
    Carries W scope e.2 (rawRow W O metadata scope unavailable e) :=
  carries_of_agrees hmetadata (createdPayload_agrees e.2 rawMetadata_agrees)

/-- The texts that `infer=False` selects. -/
def selectRaw (W : Writer V S) (scope : ScopeIds) (s : MemoryState V) (texts : List (Entries × String)) :
    List (Entries × String) :=
  selectNew (fun e => W.contentHash e.2) (existingPayloadValues W.platform s.memories "hash"
    (texts.map fun e => W.contentHash e.2) (scopeFilters scope)) texts

theorem selectRaw_fresh {texts : List (Entries × String)} {e : Entries × String}
    (h : e ∈ selectRaw W scope s texts) : ¬ Known W scope (W.contentHash e.2) s := by
  intro hknown
  have htext := (selectNew_sublist texts).subset h
  exact selectNew_fresh h (mem_existing.mpr ⟨List.mem_map_of_mem htext, hknown⟩)

theorem selectRaw_covers {texts : List (Entries × String)} {e : Entries × String} (h : e ∈ texts) :
    Known W scope (W.contentHash e.2) s ∨
      ∃ e' ∈ selectRaw W scope s texts, W.contentHash e'.2 = W.contentHash e.2 := by
  refine (selectNew_covers (fun e : Entries × String => W.contentHash e.2) _ h).imp_left fun hknown => ?_
  exact (mem_existing.mp hknown).2

/-- Once the texts are read and the caller has agreed, the loop runs over what was selected. -/
theorem addRawMessages_run {messages : List Entries} {texts : List (Entries × String)}
    {pre : Nat → Except PyError Unit} {unavailable : Bool} (htexts : rawTexts messages = .ok texts) :
    (addRawMessages W O messages metadata scope pre unavailable).run s =
      match pre (selectRaw W scope s texts).length with
      | .ok () => (Effect.loop (addRaw W O metadata scope unavailable) [] (selectRaw W scope s texts)).run s
      | .error e => (.error e, s) := by
  rw [rawTexts] at htexts
  simp only [addRawMessages, Effect.run_bind_read, htexts]
  simp only [Effect.run_bind, Effect.run_lift]
  unfold selectRaw
  cases pre _ <;> rfl

/-- A fact whose hash is known in the scope is held there. -/
theorem held_of_known {facts : List String} {fact : String} (hs : Digested W s)
    (hseparates : Separates W scope s facts) (hfact : fact ∈ facts)
    (hknown : Known W scope (W.contentHash fact) s) : Held W scope fact s := by
  obtain ⟨row, hrow, hscope, hhash⟩ := hknown
  obtain ⟨text, hdata, hstored⟩ := digests_hash (hs row hrow)
  refine ⟨row, hrow, hscope, text, hdata, hseparates.rows fact hfact row hrow hscope text hdata ?_⟩
  rw [Payload.text, hstored] at hhash
  exact Option.some.inj hhash

theorem addRawMessages_single {messages : List Entries} {texts : List (Entries × String)}
    {pre : Nat → Except PyError Unit} {unavailable : Bool} (htexts : rawTexts messages = .ok texts)
    (hmetadata : ∀ e ∈ scope, e.1 ∈ sessionScopeKeys ∧ metadata.lookup e.1 = some (.str e.2)) :
    Single W scope s ((addRawMessages W O messages metadata scope pre unavailable).run s).2 := by
  have hpool : Appends ((selectRaw W scope s texts).map (rawRow W O metadata scope unavailable)) s
      ((addRawMessages W O messages metadata scope pre unavailable).run s).2 := by
    rw [addRawMessages_run htexts]
    split
    · exact (addRawLoop_run _ _ _).1
    · exact .nil rfl
  have hcarries := rawRow_carries (W := W) (O := O) hmetadata unavailable
  refine single_of_appends hpool ?_ fun row hrow old hold hscope hhash => ?_
  · rw [List.map_map]
    have hhashes : (fun row : Row V => row.payload.text W.platform "hash") ∘ rawRow W O metadata scope unavailable =
        fun e => some (W.contentHash e.2) := funext fun e => (hcarries e).hashText
    rw [hhashes]
    have hnodup : ((selectRaw W scope s texts).map fun e => W.contentHash e.2).Nodup := selectNew_nodup _ _ _
    have hsome := hnodup.map (Option.some_injective String)
    rwa [List.map_map] at hsome
  · obtain ⟨e, he, rfl⟩ := List.mem_map.mp hrow
    exact selectRaw_fresh he ⟨old, hold, hscope, hhash.trans (hcarries e).hashText⟩

/-- A raw fact is held after the loop: its row was inserted, or an equal one stood under its id. -/
theorem addRawMessages_held {messages : List Entries} {texts : List (Entries × String)}
    {pre : Nat → Except PyError Unit} {unavailable : Bool} {r : List AddedMemory}
    (hs : Digested W s) (htexts : rawTexts messages = .ok texts)
    (hmetadata : ∀ e ∈ scope, e.1 ∈ sessionScopeKeys ∧ metadata.lookup e.1 = some (.str e.2))
    (hclear : (Intake.raw (texts.map Prod.snd)).Clear W scope s)
    (hrun : ((addRawMessages W O messages metadata scope pre unavailable).run s).1 = .ok r)
    {fact : String} (hfact : fact ∈ texts.map Prod.snd) :
    Held W scope fact ((addRawMessages W O messages metadata scope pre unavailable).run s).2 := by
  obtain ⟨hseparates, hfree⟩ := hclear
  obtain ⟨e, he, rfl⟩ := List.mem_map.mp hfact
  rw [addRawMessages_run htexts] at hrun ⊢
  split at hrun
  · obtain ⟨happends, hstands⟩ :=
      @addRawLoop_run _ _ W O metadata scope unavailable (selectRaw W scope s texts) [] s
    rcases selectRaw_covers he with hknown | ⟨e', he', hhash⟩
    · exact (held_of_known hs hseparates hfact hknown).mono happends.subset
    · obtain ⟨row, hrow, hid, hmatch⟩ := hstands r hrun e' he'
      rw [hhash] at hid hmatch
      have hsub := happends.subset
      obtain ⟨kept, hkept, hrows⟩ := happends
      rcases List.mem_append.mp (hrows ▸ hrow) with hold | hnew
      · rcases hfree e.2 hfact with hheld | hother
        · exact hheld.mono hsub
        · rw [factId, ← hid, Table.get_of_mem _ hold, hmatch] at hother
          cases hother
      · obtain ⟨e'', he'', rfl⟩ := List.mem_map.mp (hkept.subset hnew)
        have hcarries := rawRow_carries (W := W) (O := O) hmetadata unavailable e''
        have htext : e''.2 ∈ texts.map Prod.snd :=
          List.mem_map_of_mem ((selectNew_sublist texts).subset he'')
        exact ⟨_, hrow, hcarries.inScope, e''.2, hcarries.data, hseparates.facts _ htext _ hfact
          ((matchesHash_iff hcarries.data hcarries.hash).mp hmatch)⟩
  · cases hrun

end

/-! ## Adding extracted memories -/

section

variable {W : Writer V S} {O : Providers V} {metadata : Entries} {scope : ScopeIds} {s : MemoryState V}
  {existing : List (Row V)} {extracted : List Entries}

theorem extractedRow_carries
    (hmetadata : ∀ e ∈ scope, e.1 ∈ sessionScopeKeys ∧ metadata.lookup e.1 = some (.str e.2))
    (vectors : List (String × Option V)) (memory : Entries) :
    Carries W scope (extractedText memory) (extractedRow W O metadata scope vectors memory) :=
  carries_of_agrees hmetadata (extractedPayload_agrees _)

theorem selectExtracted_mem {memory : Entries}
    (h : memory ∈ selectExtracted W s.memories (scopeFilters scope) existing extracted) :
    extractedText memory ∈ newFacts extracted := by
  have hmem := (selectNew_sublist _).subset h
  rw [List.mem_filter] at hmem
  exact List.mem_filter.mpr ⟨List.mem_map_of_mem hmem.1, hmem.2⟩

theorem selectExtracted_fresh {memory : Entries}
    (h : memory ∈ selectExtracted W s.memories (scopeFilters scope) existing extracted) :
    ¬ Known W scope (W.contentHash (extractedText memory)) s := by
  intro hknown
  have hmem := (selectNew_sublist _).subset h
  exact selectNew_fresh h
    (List.mem_append_left _ (mem_existing.mpr ⟨List.mem_map.mpr ⟨memory, hmem, rfl⟩, hknown⟩))

/-- The hashes of shown rows are known in the scope. -/
theorem known_of_shown (hs : Digested W s)
    (hexisting : ∀ row ∈ existing, row ∈ s.memories.rows ∧ inScope W.platform scope row.payload = true)
    {hash : String} (h : hash ∈ shownHashes W existing) : Known W scope hash s := by
  obtain ⟨row, hrow, hhash⟩ := List.mem_flatMap.mp h
  obtain ⟨hmem, hscope⟩ := hexisting row hrow
  obtain ⟨text, hdata, hstored⟩ := digests_hash (hs row hmem)
  refine ⟨row, hmem, hscope, ?_⟩
  rw [Payload.text, hstored]
  simp only [Payload.get, hdata, hstored, Option.getD_some, Value.pyStr] at hhash
  rcases List.mem_append.mp hhash with hhash | hhash
  · split at hhash
    · exact congrArg some (List.mem_singleton.mp hhash).symm
    · cases hhash
  · exact congrArg some (List.mem_singleton.mp hhash).symm

theorem selectExtracted_covers (hs : Digested W s)
    (hexisting : ∀ row ∈ existing, row ∈ s.memories.rows ∧ inScope W.platform scope row.payload = true)
    {fact : String} (h : fact ∈ newFacts extracted) : Known W scope (W.contentHash fact) s ∨
      ∃ memory ∈ selectExtracted W s.memories (scopeFilters scope) existing extracted,
        W.contentHash (extractedText memory) = W.contentHash fact := by
  obtain ⟨hmem, hne⟩ := List.mem_filter.mp h
  obtain ⟨memory, hmemory, rfl⟩ := List.mem_map.mp hmem
  have htext : memory ∈ extracted.filter fun m => extractedText m ≠ "" := List.mem_filter.mpr ⟨hmemory, hne⟩
  refine (selectNew_covers (fun m => W.contentHash (extractedText m)) _ htext).imp_left fun hknown => ?_
  rcases List.mem_append.mp hknown with hknown | hshown
  · exact (mem_existing.mp hknown).2
  · exact known_of_shown hs hexisting hshown

variable [Score S]

/-- The rows of an extraction. -/
def extractedPool (W : Writer V S) (O : Providers V) (metadata : Entries) (scope : ScopeIds)
    (existing : List (Row V)) (extracted : List Entries) (s : MemoryState V) : List (Row V) :=
  let selected := selectExtracted W s.memories (scopeFilters scope) existing extracted
  selected.map (extractedRow W O metadata scope (embedTexts O (selected.map extractedText)))

theorem addExtracted_run (messages : List Entries) (pre : Nat → Except PyError Unit) :
    Appends (extractedPool W O metadata scope existing extracted s) s
        ((addExtracted W O messages metadata scope pre existing extracted).run s).2 ∧
      ∀ r, ((addExtracted W O messages metadata scope pre existing extracted).run s).1 = .ok r →
        ∀ row ∈ extractedPool W O metadata scope existing extracted s, row.id ≠ "" →
          row.id ∈ ((addExtracted W O messages metadata scope pre existing extracted).run s).2.memories.rows.map
            Row.id := by
  unfold addExtracted extractedPool
  rw [Effect.run_bind_read]
  generalize selectExtracted W s.memories (scopeFilters scope) existing extracted = selected
  rw [Effect.run_bind, Effect.run_lift]
  cases pre selected.length with
  | error e => exact ⟨.nil rfl, fun r hr => by cases hr⟩
  | ok u =>
      dsimp only
      split
      · rename_i hempty
        rw [List.isEmpty_iff] at hempty
        subst hempty
        refine ⟨.nil (Effect.Within.bind (saveMessages_within _ _ _) (fun _ => .pure _) s), ?_⟩
        simp
      · obtain ⟨happends, hids⟩ := persistRows_run
          (selected.map (extractedRow W O metadata scope (embedTexts O (selected.map extractedText)))) s
        rw [Effect.run_bind]
        revert happends hids
        rcases persistRows _ |>.run s with ⟨_ | persisted, s₁⟩
        · exact fun happends _ => ⟨happends, fun r hr => by cases hr⟩
        · intro happends hids
          have hsame := finishAdd_within W O messages scope persisted s₁
          refine ⟨happends.same hsame, fun r _ row hrow hname => ?_⟩
          rw [hsame]
          exact hids row hrow hname

theorem addExtracted_single
    (hmetadata : ∀ e ∈ scope, e.1 ∈ sessionScopeKeys ∧ metadata.lookup e.1 = some (.str e.2))
    (messages : List Entries) (pre : Nat → Except PyError Unit) :
    Single W scope s ((addExtracted W O messages metadata scope pre existing extracted).run s).2 := by
  refine single_of_appends (addExtracted_run messages pre).1 ?_ fun row hrow old hold hscope hhash => ?_
  · have hnodup : ((selectExtracted W s.memories (scopeFilters scope) existing extracted).map
        fun m => W.contentHash (extractedText m)).Nodup := selectNew_nodup _ _ _
    have hsome := hnodup.map (Option.some_injective String)
    rw [extractedPool, List.map_map]
    rw [List.map_map] at hsome
    convert hsome using 2
    exact funext fun m => (extractedRow_carries hmetadata _ m).hashText
  · obtain ⟨m, hm, rfl⟩ := List.mem_map.mp hrow
    exact selectExtracted_fresh hm ⟨old, hold, hscope, hhash.trans (extractedRow_carries hmetadata _ m).hashText⟩

/-- An extracted fact is held after the inserts: only a row under its own id keeps it out. -/
theorem addExtracted_held {messages : List Entries} {pre : Nat → Except PyError Unit} {r : List AddedMemory}
    (hname : ∀ scope hash, memoryIdForHash W scope hash ≠ "") (hs : Digested W s)
    (hexisting : ∀ row ∈ existing, row ∈ s.memories.rows ∧ inScope W.platform scope row.payload = true)
    (hmetadata : ∀ e ∈ scope, e.1 ∈ sessionScopeKeys ∧ metadata.lookup e.1 = some (.str e.2))
    (hclear : (Intake.extracted (newFacts extracted)).Clear W scope s)
    (hrun : ((addExtracted W O messages metadata scope pre existing extracted).run s).1 = .ok r)
    {fact : String} (hfact : fact ∈ newFacts extracted) :
    Held W scope fact ((addExtracted W O messages metadata scope pre existing extracted).run s).2 := by
  obtain ⟨hseparates, hids, hfree⟩ := hclear
  obtain ⟨happends, hstands⟩ := @addExtracted_run _ _ W O metadata scope s existing extracted _ messages pre
  have hsub := happends.subset
  rcases selectExtracted_covers hs hexisting hfact with hknown | ⟨memory, hmemory, hhash⟩
  · exact (held_of_known hs hseparates hfact hknown).mono hsub
  · have hrow : extractedRow W O metadata scope (embedTexts O ((selectExtracted W s.memories
        (scopeFilters scope) existing extracted).map extractedText)) memory ∈
        extractedPool W O metadata scope existing extracted s := List.mem_map_of_mem hmemory
    obtain ⟨row, hfinal, hid⟩ := List.mem_map.mp (hstands r hrun _ hrow (hname _ _))
    obtain ⟨kept, hkept, hrows⟩ := happends
    have hid : row.id = factId W scope fact := by rw [hid, factId, ← hhash]; rfl
    rcases List.mem_append.mp (hrows ▸ hfinal) with hold | hnew
    · rcases hfree fact hfact with hheld | hnone
      · exact hheld.mono hsub
      · rw [← hid, Table.get_of_mem _ hold] at hnone
        cases hnone
    · obtain ⟨memory', hmemory', rfl⟩ := List.mem_map.mp (hkept.subset hnew)
      have hcarries := extractedRow_carries (W := W) (O := O) hmetadata (embedTexts O ((selectExtracted W
        s.memories (scopeFilters scope) existing extracted).map extractedText)) memory'
      have htext := selectExtracted_mem hmemory'
      exact ⟨_, hfinal, hcarries.inScope, _, hcarries.data,
        hseparates.facts _ htext _ hfact (hids _ htext _ hfact hid)⟩

end

/-! ## Adding -/

section

variable {W : Writer V S} {O : Providers V} {metadata : Entries} {scope : ScopeIds} {s : MemoryState V}

theorem procedural_run {messages : List Value} {prompt : Option String} {text : String}
    (pre : Nat → Except PyError Unit) (htext : O.summarize messages prompt = some text)
    (hmetadata : ∀ e ∈ scope, e.1 ∈ sessionScopeKeys ∧ metadata.lookup e.1 = some (.str e.2)) :
    (∃ row, Carries W scope text row ∧
        Appends [row] s ((createProceduralMemory W O messages metadata prompt pre).run s).2) ∧
      ∀ r, ((createProceduralMemory W O messages metadata prompt pre).run s).1 = .ok r →
        Held W scope text ((createProceduralMemory W O messages metadata prompt pre).run s).2 := by
  have hcarries : ∀ id vector, Carries W scope text ⟨id, vector, createdPayload W O.now text
      (Dict.set "memory_type" (.str "procedural_memory") metadata)⟩ := fun id vector =>
    carries_of_agrees hmetadata
      (createdPayload_agrees text ((Agrees.refl metadata).set (k := "memory_type") (by decide) _))
  unfold createProceduralMemory
  rw [htext]
  dsimp only
  rw [Effect.run_bind, Effect.run_lift]
  cases pre 1 with
  | error e => exact ⟨⟨_, hcarries "" none, .nil rfl⟩, fun r hr => by cases hr⟩
  | ok u =>
      cases O.embed .add text with
      | none => exact ⟨⟨_, hcarries "" none, .nil rfl⟩, fun r hr => by cases hr⟩
      | some vector =>
          dsimp only [drawId]
          simp only [Effect.run_bind, Effect.run_read, Effect.run_modify, Effect.run_pure]
          obtain ⟨happends, hstands⟩ := createMemory_run W O.now text (some vector)
            (Dict.set "memory_type" (.str "procedural_memory") metadata) (W.uuid4 s.supply) false
            { s with supply := s.supply + 1 }
          revert happends hstands
          rcases createMemory W O.now text (some vector) _ (W.uuid4 s.supply) false |>.run
            { s with supply := s.supply + 1 } with ⟨_ | created, s₁⟩
          · exact fun happends _ => ⟨⟨_, hcarries _ _, happends⟩, fun r hr => by cases hr⟩
          · exact fun happends hstands => ⟨⟨_, hcarries _ _, happends⟩, fun r _ =>
              (hcarries _ _).held ((hstands created rfl).2 rfl)⟩

theorem Single.of_same {s' : MemoryState V} (h : SameMemories s s') : Single W scope s s' := by
  have hrows : s'.memories.rows = s.memories.rows ++ [] := by rw [h, List.append_nil]
  intro row hrow
  rw [newborn_of_append hrows] at hrow
  cases hrow

theorem extractMemories_run (scope : ScopeIds) (messages : List Entries) (prompt : Option String) (existing : List (Row V)) :
    ((extractMemories W O messages scope prompt existing).run s).2 = s := by
  unfold extractMemories getLastMessages
  rw [Effect.run_bind_read]
  dsimp only
  split <;> rfl

variable [Score S]

/-- How an add goes on, as what it takes in decides it. -/
inductive Adding (W : Writer V S) (O : Providers V) (request : AddRequest) (s : MemoryState V) :
    Intake → Except PyError (List AddedMemory) × MemoryState V → Prop where
  | nothing (e : PyError) : Adding W O request s .nothing (.error e, s)
  | raw {metadata : Entries} {messages : List Entries} {texts : List (Entries × String)} (unavailable : Bool)
      (htexts : rawTexts messages = .ok texts)
      (hmetadata : ∀ e ∈ request.scope W, e.1 ∈ sessionScopeKeys ∧ metadata.lookup e.1 = some (.str e.2)) :
      Adding W O request s (.raw (texts.map Prod.snd)) ((addRawMessages W O messages metadata (request.scope W)
        request.preVectorWrite unavailable).run s)
  | extracted {metadata : Entries} {existing : List (Row V)} {extracted : List Entries} (messages : List Entries)
      (hexisting : ∀ row ∈ existing, row ∈ s.memories.rows ∧
        inScope W.platform (request.scope W) row.payload = true)
      (hmetadata : ∀ e ∈ request.scope W, e.1 ∈ sessionScopeKeys ∧ metadata.lookup e.1 = some (.str e.2)) :
      Adding W O request s (.extracted (newFacts extracted)) ((addExtracted W O messages metadata
        (request.scope W) request.preVectorWrite existing extracted).run s)
  | procedural {metadata : Entries} {messages : List Value} {text : String}
      (htext : O.summarize messages request.prompt = some text)
      (hmetadata : ∀ e ∈ request.scope W, e.1 ∈ sessionScopeKeys ∧ metadata.lookup e.1 = some (.str e.2)) :
      Adding W O request s (.procedural text)
        ((createProceduralMemory W O messages metadata request.prompt request.preVectorWrite).run s)

theorem adding_raw {request : AddRequest} {metadata : Entries} {messages : List Entries} (unavailable : Bool)
    (hmetadata : ∀ e ∈ request.scope W, e.1 ∈ sessionScopeKeys ∧ metadata.lookup e.1 = some (.str e.2)) :
    Adding W O request s (rawIntake messages) ((addRawMessages W O messages metadata (request.scope W)
      request.preVectorWrite unavailable).run s) := by
  unfold rawIntake
  cases htexts : rawTexts messages with
  | ok texts => exact .raw unavailable htexts hmetadata
  | error e =>
      have hrun : (addRawMessages W O messages metadata (request.scope W) request.preVectorWrite
          unavailable).run s = (.error e, s) := by
        rw [rawTexts] at htexts
        simp only [addRawMessages, Effect.run_bind_read, htexts]
        rfl
      rw [hrun]
      exact .nothing e

/-- The memories shown to the language model stand in the scope. -/
theorem adding_extracted {request : AddRequest} {metadata : Entries} (messages : List Entries) (vector : V)
    (hmetadata : ∀ e ∈ request.scope W, e.1 ∈ sessionScopeKeys ∧ metadata.lookup e.1 = some (.str e.2)) :
    Adding W O request s (extractedIntake W O messages (request.scope W) request.prompt vector s)
      ((do
        let memories ← Effect.read fun s => s.memories
        let hits ← Effect.lift
          (memories.search W.platform W.distance vector 10 (scopeFilters (request.scope W)))
        let existing := hits.map Hit.row
        let extracted ← extractMemories W O messages (request.scope W) request.prompt existing
        addExtracted W O messages metadata (request.scope W) request.preVectorWrite existing extracted :
        Op V (List AddedMemory)).run s) := by
  unfold extractedIntake
  rw [Effect.run_bind_read, Effect.run_bind, Effect.run_lift]
  cases hsearch : s.memories.search W.platform W.distance vector 10 (scopeFilters (request.scope W)) with
  | error e => exact .nothing e
  | ok hits =>
      have hexisting : ∀ row ∈ hits.map Hit.row, row ∈ s.memories.rows ∧
          inScope W.platform (request.scope W) row.payload = true := by
        intro row hrow
        obtain ⟨hit, hhit, rfl⟩ := List.mem_map.mp hrow
        exact inScope_of_admits (Table.mem_search hsearch hhit)
      dsimp only
      rw [Effect.run_bind]
      have hstate := extractMemories_run (W := W) (O := O) (s := s) (request.scope W) messages
        request.prompt (hits.map Hit.row)
      revert hstate
      rcases extractMemories W O messages (request.scope W) request.prompt (hits.map Hit.row) |>.run s with
        ⟨e | extracted, s₁⟩
      · rintro rfl
        exact .nothing e
      · rintro rfl
        exact .extracted messages hexisting hmetadata

theorem adding (request : AddRequest) :
    Adding W O request s (intake W O request s) ((add W O request).run s) := by
  unfold add intake
  rw [Effect.run_bind, Effect.run_lift]
  cases hprepared : prepareAdd W request with
  | error e => exact .nothing e
  | ok prepared =>
      obtain ⟨metadata, scope, messages⟩ := prepared
      have hscope : request.scope W = scope := by rw [AddRequest.scope, hprepared]
      have hmetadata : ∀ e ∈ request.scope W, e.1 ∈ sessionScopeKeys ∧
          metadata.lookup e.1 = some (.str e.2) := by
        intro e he
        obtain ⟨stored, date, rfl, hbuild⟩ := prepareAdd_builds hprepared
        obtain ⟨hkey, hlookup⟩ := metadata_carries hbuild (hscope ▸ he)
        exact ⟨hkey, (withExpiration_lookup hkey).trans hlookup⟩
      dsimp only
      split
      · unfold proceduralIntake
        cases htext : O.summarize messages request.prompt with
        | some text => exact .procedural htext hmetadata
        | none =>
            have hrun : (createProceduralMemory W O messages metadata request.prompt
                request.preVectorWrite).run s = (.error .providerError, s) := by
              rw [createProceduralMemory, htext]
              rfl
            rw [hrun]
            exact .nothing _
      · rw [Effect.run_bind, Effect.run_lift]
        cases hparsed : parseVisionMessages W O messages with
        | error e => exact .nothing e
        | ok parsed =>
            subst hscope
            dsimp only
            unfold addToVectorStore
            split
            · exact adding_raw false hmetadata
            · cases O.embed .search (parseMessages W.platform parsed) with
              | none => exact adding_raw true hmetadata
              | some vector => exact adding_extracted parsed vector hmetadata

/-- No add creates a second row with a hash of the scope, whether it returns or raises. -/
theorem add_single {request : AddRequest} (hclear : (intake W O request s).Clear W (request.scope W) s) :
    Single W (request.scope W) s ((add W O request).run s).2 := by
  have hadding := adding (W := W) (O := O) (s := s) request
  generalize intake W O request s = taken at hadding hclear
  generalize (add W O request).run s = run at hadding
  cases hadding with
  | nothing e => exact .of_same rfl
  | raw unavailable htexts hmetadata => exact addRawMessages_single htexts hmetadata
  | extracted messages hexisting hmetadata => exact addExtracted_single hmetadata messages _
  | procedural htext hmetadata =>
      obtain ⟨⟨row, hcarries, happends⟩, _⟩ := procedural_run request.preVectorWrite htext hmetadata
      refine single_of_appends happends (List.nodup_singleton _) fun row' hrow old hold hscope hhash => hclear ?_
      rw [List.mem_singleton.mp hrow, hcarries.hashText] at hhash
      exact ⟨old, hold, hscope, hhash⟩

/-- An add that returns holds every fact it took in. -/
theorem add_held {request : AddRequest} {r : List AddedMemory}
    (hname : ∀ scope hash, memoryIdForHash W scope hash ≠ "") (hs : Digested W s)
    (hclear : (intake W O request s).Clear W (request.scope W) s)
    (hrun : ((add W O request).run s).1 = .ok r) {fact : String} (hfact : fact ∈ (intake W O request s).facts) :
    Held W (request.scope W) fact ((add W O request).run s).2 := by
  have hadding := adding (W := W) (O := O) (s := s) request
  generalize intake W O request s = taken at hadding hclear hfact
  generalize (add W O request).run s = run at hadding hrun
  cases hadding with
  | nothing e => cases hrun
  | raw unavailable htexts hmetadata => exact addRawMessages_held hs htexts hmetadata hclear hrun hfact
  | extracted messages hexisting hmetadata =>
      exact addExtracted_held hname hs hexisting hmetadata hclear hrun hfact
  | procedural htext hmetadata =>
      cases List.mem_singleton.mp hfact
      exact (procedural_run _ htext hmetadata).2 r hrun

end

/-! ## Runs -/

/-- A call on the memories of a session, with the providers that answer while it runs. -/
inductive SessionCall (V : Type) where
  | add (O : Providers V) (request : AddRequest)
  | update (O : Providers V) (request : UpdateRequest)
  | delete (O : Providers V) (id : String)
  | deleteAll (O : Providers V) (scope : DeleteScope)

section

variable [Score S] {W : Writer V S}

/-- The state a call leaves, whether it returned or raised. -/
def SessionCall.perform (W : Writer V S) : SessionCall V → MemoryState V → MemoryState V
  | .add O request, s => ((YiQiao.add W O request).run s).2
  | .update O request, s => ((YiQiao.update W O request).run s).2
  | .delete O id, s => ((YiQiao.delete W O id).run s).2
  | .deleteAll O scope, s => ((YiQiao.deleteAll W O scope).run s).2

def performAll (W : Writer V S) (s : MemoryState V) (calls : List (SessionCall V)) : MemoryState V :=
  calls.foldl (fun s call => call.perform W s) s

/-- Hashes that the call meets do not collide, and the facts it takes in find their places. -/
def SessionCall.Clear (W : Writer V S) : SessionCall V → MemoryState V → Prop
  | .add O request, s => (intake W O request s).Clear W (request.scope W) s
  | _, _ => True

/-- Every call of the run is clear in the state it meets. -/
def AllClear (W : Writer V S) : MemoryState V → List (SessionCall V) → Prop
  | _, [] => True
  | s, call :: calls => call.Clear W s ∧ AllClear W (call.perform W s) calls

/-- An add holds what it took in once it has returned, and creates no second row of a hash. -/
def SessionCall.Recalls (W : Writer V S) : SessionCall V → MemoryState V → Prop
  | .add O request, s =>
      (∀ r, ((YiQiao.add W O request).run s).1 = .ok r → ∀ fact ∈ (intake W O request s).facts,
        Held W (request.scope W) fact ((YiQiao.add W O request).run s).2) ∧
      Single W (request.scope W) s ((YiQiao.add W O request).run s).2
  | _, _ => True

theorem digests_update {O : Providers V} {request : UpdateRequest} {imported : Bool} {s : MemoryState V}
    (hs : ∀ row ∈ s.memories.rows, Digests W imported row.payload) :
    ∀ row ∈ ((YiQiao.update W O request).run s).2.memories.rows, Digests W imported row.payload := by
  rcases update_memories W O request s with hsame | ⟨row, text, metadata, hrewritten⟩
  · rw [hsame]
    exact hs
  · rw [hrewritten.memories, Table.rows_update]
    intro row' hrow
    obtain ⟨old, hold, rfl⟩ := List.mem_map.mp hrow
    split
    · exact textBase_digests updatedPayload_agrees (.inl rfl)
    · exact hs old hold

/-- The hash of every row stays that of its text. -/
theorem digests_perform {call : SessionCall V} {imported : Bool} {s : MemoryState V}
    (hs : ∀ row ∈ s.memories.rows, Digests W imported row.payload) :
    ∀ row ∈ (call.perform W s).memories.rows, Digests W imported row.payload := by
  cases call with
  | add O request =>
      have hgrows : Effect.Within (Grows fun row => Digests W imported row.payload) (YiQiao.add W O request) :=
        add_grows fun _ _ _ _ _ _ hagrees _ _ => textBase_digests hagrees (.inl rfl)
      obtain ⟨rows, hrows, hnew⟩ := hgrows s
      intro row hrow
      rcases List.mem_append.mp (hrows ▸ hrow) with hold | hrow
      · exact hs row hold
      · exact hnew row hrow
  | update O request => exact digests_update hs
  | delete O id => exact fun row hrow => hs row ((delete_within W O id s).subset hrow)
  | deleteAll O scope => exact fun row hrow => hs row ((deleteAll_within W O scope s).subset hrow)

theorem digested_perform {call : SessionCall V} {s : MemoryState V} (hs : Digested W s) :
    Digested W (call.perform W s) := digests_perform hs

theorem recalls_of_clear {call : SessionCall V} {s : MemoryState V}
    (hname : ∀ scope hash, memoryIdForHash W scope hash ≠ "") (hs : Digested W s)
    (hclear : call.Clear W s) : call.Recalls W s := by
  cases call with
  | add O request =>
      exact ⟨fun r hrun fact hfact => add_held hname hs hclear hrun hfact, add_single hclear⟩
  | _ => trivial

/-- In a run of clear calls over a collection that was empty, every add that returns leaves each fact it
took in in a row of its scope, and no add creates a second row of the scope with a hash. -/
theorem facts_recalled (hname : ∀ scope hash, memoryIdForHash W scope hash ≠ "") {s : MemoryState V}
    (hs : s.memories.rows = []) {calls : List (SessionCall V)} (hclear : AllClear W s calls)
    {done rest : List (SessionCall V)} {call : SessionCall V} (hsplit : calls = done ++ call :: rest) :
    call.Recalls W (performAll W s done) := by
  have hdigested : Digested W s := by
    rw [Digested, hs]
    simp
  clear hs
  induction done generalizing s calls with
  | nil =>
      subst hsplit
      exact recalls_of_clear hname hdigested hclear.1
  | cons first done ih =>
      subst hsplit
      exact ih hclear.2 rfl (digested_perform hdigested)

end

/-! ## An edited fact is lost -/

theorem memoryIdForHash_plain (scope : ScopeIds) (hash : String) :
    memoryIdForHash (Writer.plain .ascii : Writer Unit ℚ) scope hash ≠ "" := by
  intro h
  have hlength := congrArg String.length h
  simp [memoryIdForHash, Writer.plain] at hlength

/-- A first fact finds its place. -/
theorem facts_recalled_first : (SessionCall.add (.silent "now") addForUser).Recalls
    (Writer.plain .ascii : Writer Unit ℚ) noMemories := by
  have hclear : AllClear (Writer.plain .ascii : Writer Unit ℚ) noMemories [.add (.silent "now") addForUser] := by
    refine ⟨⟨⟨fun fact hfact row hrow => ?_, fun fact hfact other hother _ => ?_⟩,
      fun fact hfact => .inr rfl⟩, trivial⟩
    · cases hrow
    · rw [List.mem_singleton.mp hfact, List.mem_singleton.mp hother]
  exact facts_recalled memoryIdForHash_plain rfl hclear (List.nil_append _).symm

/-- Providers whose language model extracts the fact `x` from what it is shown. -/
def extractingX : Providers Unit :=
  { Providers.silent "now" with
    embed := fun _ _ => some ()
    extract := fun _ => some (.dict [("memory", .list [.dict [("text", .str "x")]])]) }

def addExtractedForUser : AddRequest := { addForUser with infer := true }

/-- `update(id, data="y")` on the memory of the fact `x`. -/
def rewordX : UpdateRequest := ⟨"user_id=u\x00x", some "y", none, none⟩

/-- The memories of a user who added the fact `x` and reworded it as `y`. -/
def rewordedMemories : MemoryState Unit :=
  performAll (Writer.plain .ascii : Writer Unit ℚ) noMemories
    [.add extractingX addExtractedForUser, .update extractingX rewordX]

theorem addAgain_run :
    ((add (Writer.plain .ascii : Writer Unit ℚ) extractingX addExtractedForUser).run rewordedMemories).1 = .ok [] ∧
      ((add (Writer.plain .ascii : Writer Unit ℚ) extractingX addExtractedForUser).run
        rewordedMemories).2.memories.rows.map (fun row => row.payload.lookup "data") = [some (.str "y")] ∧
      (intake (Writer.plain .ascii : Writer Unit ℚ) extractingX addExtractedForUser rewordedMemories).facts =
        ["x"] := by
  simp only [rewordedMemories, performAll, List.foldl, SessionCall.perform, add, addToVectorStore, addExtracted,
    selectExtracted, existingPayloadValues_scope, Table.search, select_scope, intake, extractedIntake]
  exact ⟨rfl, rfl, rfl⟩

/-- A fact that was added and edited is lost when it is added again, and the add returns. -/
theorem edited_fact_lost : ¬ ∀ (W : Writer Unit ℚ) (done : List (SessionCall Unit)) (call : SessionCall Unit),
    call.Recalls W (performAll W noMemories done) := by
  intro h
  obtain ⟨hok, hrows, hfacts⟩ := addAgain_run
  obtain ⟨hheld, _⟩ := h (.plain .ascii) [.add extractingX addExtractedForUser, .update extractingX rewordX]
    (.add extractingX addExtractedForUser)
  obtain ⟨row, hrow, _, text, hdata, htext⟩ := hheld [] hok "x" (hfacts ▸ List.mem_singleton.mpr rfl)
  have hmem : row.payload.lookup "data" ∈ [some (Value.str "y")] := by
    rw [← hrows]
    exact List.mem_map.mpr ⟨row, hrow, rfl⟩
  rw [hdata, List.mem_singleton] at hmem
  cases hmem
  exact absurd (show "y" = "x" from htext) (by decide)

end YiQiao
