import YiQiao.Memory.Recall

/-!
# Crossing paths

The interactive add hashes a text after it is normalized and looks its hash up in the whole scope.
The import hashes a text as it stands and compares it with the memories it was shown and with the claims.
-/

namespace YiQiao

open Lib Filters

variable {V S : Type}

/-- A memory of the scope with this text and this hash. -/
def StoredAs (W : Writer V S) (scope : ScopeIds) (text hash : String) (s : MemoryState V) : Prop :=
  ∃ row ∈ s.memories.rows, inScope W.platform scope row.payload = true ∧
    row.payload.lookup "data" = some (.str text) ∧ row.payload.lookup "hash" = some (.str hash)

/-- The memories that an import shows to the language model. -/
def importShown [Score S] (W : Writer V S) (O : Providers V) (messages : List Entries) (scope : ScopeIds)
    (s : MemoryState V) : List (Row V) :=
  match O.embed .search (parseMessages W.platform messages) with
  | none => []
  | some vector => match s.memories.search W.platform W.distance vector 10 (scopeFilters scope) with
    | .ok hits => hits.map Hit.row
    | .error _ => []

/-- A fact is recognised as a stored memory: it has the memory's hash, and no row is stored for it. -/
structure Recognised (W : Writer V S) (stored fact : String) (s s' : MemoryState V) : Prop where
  sameHash : fact = stored
  noSecond : ∀ row ∈ newborn s s', row.payload.text W.platform "hash" ≠ some fact

/-! ## Facts of an import -/

theorem importedRow_hash (W : Writer V S) (now : String) (context : OperationContext) (existing : List (Row V))
    (metadata : Entries) (memory : Entries × V) :
    (importedRow W now context existing metadata memory).payload.text W.platform "hash" =
      some (W.md5 (extractedText memory.1)) := by
  have hagrees := @importedPayload_agrees _ _ W now metadata memory.1 existing
  rw [Payload.text, importedRow, (textFields_of_agrees hagrees).2.2]
  rfl

section

variable {W : Writer V S} {context : OperationContext} {existing : List (Row V)} {extracted : List Entries}

/-- A hash is selected exactly where a fact has it, no shown memory has it and the claim is granted. -/
theorem mem_selectImported {hash : String} :
    (∃ memory ∈ selectImported W context existing extracted, W.md5 (extractedText memory) = hash) ↔
      (∃ memory ∈ extracted, W.md5 (extractedText memory) = hash) ∧ hash ∉ storedHashes W.platform existing ∧
        context.memoryHashClaim hash = true := by
  rw [selectImported]
  constructor
  · rintro ⟨memory, hmemory, rfl⟩
    obtain ⟨hselected, hclaim⟩ := List.mem_filter.mp hmemory
    exact ⟨⟨memory, (selectNew_sublist _).subset hselected, rfl⟩,
      @selectNew_fresh _ (fun m => W.md5 (extractedText m)) _ _ _ hselected, hclaim⟩
  · rintro ⟨⟨memory, hmemory, rfl⟩, hfresh, hclaim⟩
    rcases selectNew_covers (fun m => W.md5 (extractedText m)) (storedHashes W.platform existing) hmemory with
      hknown | ⟨first, hfirst, hhash⟩
    · exact absurd hknown hfresh
    · exact ⟨first, List.mem_filter.mpr ⟨hfirst, by rw [hhash]; exact hclaim⟩, hhash⟩

end

section

variable [Score S] {W : Writer V S} {O : Providers V} {messages : List Entries} {metadata : Entries} {scope : ScopeIds}
  {context : OperationContext} {s s' : MemoryState V} {rows : List (Row V)} {extracted : List Entries}

theorem length_of_mapM {α β : Type} {f : α → Option β} {xs : List α} {ys : List β} (h : xs.mapM f = some ys) :
    ys.length = xs.length := by
  induction xs generalizing ys with
  | nil =>
      cases h
      rfl
  | cons x xs ih =>
      rw [List.mapM_cons] at h
      obtain ⟨y, _, h⟩ := Option.bind_eq_some_iff.mp h
      obtain ⟨ys', hys, h⟩ := Option.bind_eq_some_iff.mp h
      cases h
      rw [List.length_cons, List.length_cons, ih hys]

theorem embedImported_length {texts : List String} {vectors : List V} (h : embedImported O texts = .ok vectors) :
    vectors.length = texts.length := by
  rw [embedImported] at h
  split at h
  · split at h
    · rename_i hlength
      cases h
      exact hlength
    · cases h
  · split at h
    · rename_i hmap
      cases h
      exact length_of_mapM hmap
    · cases h

/-- A strict import that returns stored one row for each fact it selected. -/
theorem addImported_stores (hstrict : context.strictVectorWrite = true) (hextracted : context.extracted = .ok extracted)
    (h : (addImported W O messages metadata scope context).run s = (.ok rows, s')) :
    s'.memories.rows = s.memories.rows ++ rows ∧ ∀ hash,
      (∃ row ∈ rows, row.payload.text W.platform "hash" = some hash) ↔
        ∃ memory ∈ selectImported W context (importShown W O messages scope s) extracted,
          W.md5 (extractedText memory) = hash := by
  rw [addImported] at h
  rw [importShown]
  cases hvector : O.embed .search (parseMessages W.platform messages) with
  | none =>
    rw [hvector] at h
    cases h
  | some vector =>
    rw [hvector] at h
    dsimp only at h ⊢
    rw [Effect.run_bind_read, Effect.run_bind, Effect.run_lift] at h
    cases hsearch : s.memories.search W.platform W.distance vector 10 (scopeFilters scope) with
    | error e =>
        rw [hsearch] at h
        cases h
    | ok hits =>
        rw [hsearch] at h
        dsimp only at h ⊢
        rw [hextracted, Effect.run_bind, Effect.run_lift] at h
        dsimp only at h
        split at h
        · rename_i hempty
          rw [List.isEmpty_iff] at hempty
          cases h
          rw [hempty, List.append_nil]
          refine ⟨rfl, fun hash => ⟨?_, ?_⟩⟩
          · rintro ⟨row, hrow, _⟩
            cases hrow
          · rintro ⟨memory, hmemory, _⟩
            cases hmemory
        · rw [Effect.bind_ok] at h
          obtain ⟨_, _, hpre, h⟩ := h
          cases (Effect.lift_ok.mp hpre).2
          rw [Effect.bind_ok] at h
          obtain ⟨vectors, _, hvectors, h⟩ := h
          obtain ⟨hembed, hstate⟩ := Effect.lift_ok.mp hvectors
          cases hstate
          split at h
          · rw [persistImported, if_pos hstrict, Effect.bind_ok] at h
            obtain ⟨_, _, hinsert, h⟩ := h
            cases h
            have hlength := embedImported_length hembed
            rw [List.length_map] at hlength
            generalize selectImported W context (hits.map Hit.row) extracted = selected at *
            rcases insertMemories_run _ s with ⟨_, hrun, hrows⟩ | ⟨hrun, _⟩
            · rw [hrun] at hinsert
              cases hinsert
              refine ⟨hrows, fun hash => ?_⟩
              have hfirst : (selected.zip vectors).map Prod.fst = selected := List.map_fst_zip hlength.ge
              constructor
              · rintro ⟨row, hrow, hhash⟩
                obtain ⟨memory, hmemory, rfl⟩ := List.mem_map.mp hrow
                rw [importedRow_hash] at hhash
                exact ⟨memory.1, hfirst ▸ List.mem_map_of_mem hmemory, Option.some.inj hhash⟩
              · rintro ⟨memory, hmemory, rfl⟩
                rw [← hfirst] at hmemory
                obtain ⟨pair, hpair, rfl⟩ := List.mem_map.mp hmemory
                exact ⟨_, List.mem_map_of_mem hpair, importedRow_hash ..⟩
            · rw [hrun] at hinsert
              cases hinsert
          · cases h

/-- The part of an interactive add that stores facts gives no row a hash that is known in the scope. -/
theorem add_fresh {request : AddRequest} (hprocedural : (request.ids.agentId.isSome && request.memoryType.isSome) = false)
    {row : Row V} (hrow : row ∈ newborn s ((add W O request).run s).2) {hash : String}
    (hhash : row.payload.text W.platform "hash" = some hash) : ¬ Known W (request.scope W) hash s := by
  have hsingle : ∀ {pool : List (Row V)} {s' : MemoryState V}, Appends pool s s' → row ∈ newborn s s' → row ∈ pool := by
    rintro pool s' ⟨kept, hkept, hrows⟩ hborn
    rw [newborn_of_append hrows] at hborn
    exact hkept.subset hborn
  have hadding := adding (W := W) (O := O) (s := s) request
  have htaken : ∀ fact, intake W O request s ≠ .procedural fact := by
    intro fact
    have hraw : ∀ messages, rawIntake messages ≠ .procedural fact := by
      intro messages heq
      rw [rawIntake] at heq
      split at heq
      · cases heq
      · cases heq
    rw [intake]
    split
    · exact fun heq => by cases heq
    · rw [if_neg (by rw [hprocedural]; exact Bool.false_ne_true)]
      split
      · exact fun heq => by cases heq
      · split
        · exact hraw _
        · split
          · exact hraw _
          · intro heq
            rw [extractedIntake] at heq
            split at heq
            · cases heq
            · split at heq
              · cases heq
              · cases heq
  generalize intake W O request s = taken at hadding htaken
  generalize (add W O request).run s = run at hadding hrow
  cases hadding with
  | nothing e =>
      rw [newborn_of_append (List.append_nil _).symm] at hrow
      cases hrow
  | @raw metadata messages texts unavailable htexts hmetadata =>
      have hpool : Appends ((selectRaw W (request.scope W) s texts).map (rawRow W O metadata (request.scope W) unavailable))
          s ((addRawMessages W O messages metadata (request.scope W) request.preVectorWrite unavailable).run s).2 := by
        rw [addRawMessages_run htexts]
        split
        · exact (addRawLoop_run _ _ _).1
        · exact .nil rfl
      obtain ⟨e, he, rfl⟩ := List.mem_map.mp (hsingle hpool hrow)
      rw [(rawRow_carries hmetadata unavailable e).hashText] at hhash
      cases hhash
      exact selectRaw_fresh he
  | @extracted metadata existing extracted messages hexisting hmetadata =>
      obtain ⟨memory, hmemory, rfl⟩ := List.mem_map.mp (hsingle (addExtracted_run messages request.preVectorWrite).1 hrow)
      rw [(extractedRow_carries hmetadata _ memory).hashText] at hhash
      cases hhash
      exact selectExtracted_fresh hmemory
  | procedural => exact absurd rfl (htaken _)

end

/-! ## Both paths -/

/-- An import recognises a stored fact exactly where its text is left as it is by normalization, and a shown
memory has its hash or its claim is refused. An interactive add recognises an imported fact exactly where
the imported text is left as it is. -/
theorem paths_recognise_iff [Score S] (W : Writer V S) (O : Providers V) (s : MemoryState V) :
    (∀ messages metadata scope context rows s' extracted, context.strictVectorWrite = true →
      context.extracted = .ok extracted →
      (addImported W O messages metadata scope context).run s = (.ok rows, s') →
      ∀ text, StoredAs W scope text (W.contentHash text) s → ∀ memory ∈ extracted,
        W.normalizeMemoryText (extractedText memory) = W.normalizeMemoryText text →
        (Recognised W (W.contentHash text) (W.md5 (extractedText memory)) s s' ↔
          W.md5 (extractedText memory) = W.contentHash (extractedText memory) ∧
            (W.md5 (extractedText memory) ∈ storedHashes W.platform (importShown W O messages scope s) ∨
              context.memoryHashClaim (W.md5 (extractedText memory)) = false))) ∧
    (∀ request : AddRequest, (request.ids.agentId.isSome && request.memoryType.isSome) = false →
      ∀ text, StoredAs W (request.scope W) text (W.md5 text) s → ∀ fact ∈ (intake W O request s).facts,
        W.normalizeMemoryText fact = W.normalizeMemoryText text →
        (Recognised W (W.md5 text) (W.contentHash fact) s ((add W O request).run s).2 ↔
          W.md5 text = W.contentHash text)) := by
  constructor
  · intro messages metadata scope context rows s' extracted hstrict hextracted hrun text _ memory hmemory hnormal
    obtain ⟨hrows, hstored⟩ := addImported_stores hstrict hextracted hrun
    have hhash : W.contentHash (extractedText memory) = W.contentHash text := by
      rw [Writer.contentHash, Writer.contentHash, hnormal]
    have hnew : (∀ row ∈ newborn s s', row.payload.text W.platform "hash" ≠ some (W.md5 (extractedText memory))) ↔
        (W.md5 (extractedText memory) ∈ storedHashes W.platform (importShown W O messages scope s) ∨
          context.memoryHashClaim (W.md5 (extractedText memory)) = false) := by
      rw [newborn_of_append hrows, ← not_iff_not]
      push Not
      rw [hstored, mem_selectImported, and_iff_right ⟨memory, hmemory, rfl⟩, ne_eq, Bool.not_eq_false]
    rw [← hnew, hhash]
    exact ⟨fun h => ⟨h.sameHash, h.noSecond⟩, fun h => ⟨h.1, h.2⟩⟩
  · intro request hprocedural text hstored fact _ hnormal
    have hhash : W.contentHash fact = W.contentHash text := by
      rw [Writer.contentHash, Writer.contentHash, hnormal]
    rw [hhash]
    refine ⟨fun h => h.sameHash.symm, fun h => ⟨h.symm, fun row hrow hnew => ?_⟩⟩
    obtain ⟨stored, hmem, hscope, _, hmd5⟩ := hstored
    refine add_fresh hprocedural hrow hnew ⟨stored, hmem, hscope, ?_⟩
    rw [Payload.text, hmd5, ← h]
    rfl

/-- `" ".join(text.split())`, of spaces. -/
def collapseSpaces (text : String) : String :=
  String.ofList ([' '].intercalate ((text.toList.splitOn ' ').filter fun word => word ≠ []))

def spacedWriter : Writer Unit ℚ := { Writer.plain .ascii with normalizeMemoryText := collapseSpaces }

/-- An import whose extraction finds one fact. -/
def importingFact (text : String) : OperationContext where
  extracted := .ok [[("text", .str text)]]
  memoryHashClaim _ := true
  idFactory hash := "id-" ++ hash
  strictVectorWrite := true
  preVectorWrite _ := .ok ()

def answering : Providers Unit := { Providers.silent "now" with embed := fun _ _ => some () }

def addSpaced : AddRequest := { addForUser with messages := .str "a b" }

/-- The memories after the import of `a  b` for a user. -/
def importedState (text : String) : MemoryState Unit :=
  ((addImported spacedWriter answering [] [("user_id", .str "u")] [("user_id", "u")] (importingFact text)).run
    noMemories).2

theorem importedState_stored : StoredAs spacedWriter (addSpaced.scope spacedWriter) "a b" "a b" (importedState "a b") ∧
    StoredAs spacedWriter (addSpaced.scope spacedWriter) "a  b" "a  b" (importedState "a  b") := by
  have hrows : ∀ text, (importedState text).memories.rows = [⟨strip ("id-" ++ text), some (),
      importedPayload spacedWriter "now" [] [("user_id", .str "u")] [("text", .str text)]⟩] →
      StoredAs spacedWriter (addSpaced.scope spacedWriter) text text (importedState text) := by
    intro text h
    refine ⟨_, by rw [h]; exact List.mem_singleton.mpr rfl, ?_, rfl, rfl⟩
    rfl
  constructor
  · refine hrows "a b" ?_
    simp only [importedState, addImported, Table.search, select_scope]
    rfl
  · refine hrows "a  b" ?_
    simp only [importedState, addImported, Table.search, select_scope]
    rfl

/-- A fact in one spacing is recognised. -/
theorem plain_fact_recognised : Recognised spacedWriter "a b" "a b" (importedState "a b")
    ((add spacedWriter answering addSpaced).run (importedState "a b")).2 :=
  ((paths_recognise_iff spacedWriter answering (importedState "a b")).2 addSpaced rfl "a b" importedState_stored.1 "a b"
    (List.mem_singleton.mpr rfl) rfl).mpr (by decide)

/-- An imported fact with two spaces is stored again with one. -/
theorem spaced_fact_stored_twice :
    StoredAs spacedWriter (addSpaced.scope spacedWriter) "a  b" (spacedWriter.md5 "a  b") (importedState "a  b") ∧
      "a b" ∈ (intake spacedWriter answering addSpaced (importedState "a  b")).facts ∧
      spacedWriter.normalizeMemoryText "a b" = spacedWriter.normalizeMemoryText "a  b" ∧
      ((add spacedWriter answering addSpaced).run (importedState "a  b")).2.memories.rows.map
        (fun row => row.payload.lookup "data") = [some (.str "a  b"), some (.str "a b")] ∧
      ¬ Recognised spacedWriter (spacedWriter.md5 "a  b") (spacedWriter.contentHash "a b") (importedState "a  b")
        ((add spacedWriter answering addSpaced).run (importedState "a  b")).2 := by
  refine ⟨importedState_stored.2, List.mem_singleton.mpr rfl, by decide, ?_, fun h => absurd h.sameHash (by decide)⟩
  simp only [importedState, addImported, Table.search, select_scope, add, addToVectorStore, addRawMessages,
    existingPayloadValues_scope]
  rfl

end YiQiao
