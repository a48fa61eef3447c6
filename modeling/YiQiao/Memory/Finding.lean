import YiQiao.Memory.Listing

/-!
# What a search finds

A search by identifiers, with a limit that leaves no memory out, finds every memory with a text that its query
matches: by its vector, by its words where the query is not embedded, or by its words while it waits for its
embedding.
-/

namespace YiQiao

open Lib Filters Fallible

variable {V S : Type}

/-- The payload makes an item. -/
def Payload.Formats (payload : Payload) : Prop := ∃ item : MemoryItem Unit, formatItem "" () payload = .ok item

/-- Every row that carries the identifiers and is not hidden makes an item. -/
def AllFormat (E : Engine V S) (t : Table V) (ids : List (String × String)) (showExpired : Bool) : Prop :=
  ∀ row ∈ t.rows, carriesIds E.platform ids row.payload = true → hidden E showExpired row.payload = false →
    row.payload.Formats

/-- A reranker orders the results; it leaves none out within its limit. -/
def Reranker.Complete (reranker : Reranker S) : Prop :=
  ∀ query items limit out, items.length ≤ limit → reranker query items limit = some out → out.Perm items

section

variable [Score S] (E : Engine V S) (embedder : Embedder V) (t : Table V) (query : String) (threshold : S)
  (row : Row V)

/-- The words of the query match the text of the row. -/
def WordsMatch : Prop := max threshold 0 ≤ lexicalTextScore E query (Payload.get row.payload "data")

/-- The query matches the row. -/
inductive QueryMatches : Prop
  | dense {vector v : V} : embedder.embed query = some vector → row.vector = some v →
      threshold ≤ max 0 (1 - E.distance v vector) → QueryMatches
  | lexical : embedder.embed query = none → t.rows.length ≤ lexicalFallbackScanLimit →
      WordsMatch E query threshold row → QueryMatches
  | pending {vector : V} : embedder.embed query = some vector →
      idMatches E.platform row.payload "embedding_status" "pending" = true →
      (if hasCjkRun query then t.rows.length ≤ lexicalFallbackScanLimit
        else (Table.textMatch E.platform E.textRank (E.lemmatize query) row).isSome = true) →
      WordsMatch E query threshold row → QueryMatches

end

section

variable [Score S] {E : Engine V S} {t : Table V} {row : Row V} {query : String} {limit : Nat} {threshold : S}
  {showExpired : Bool}

theorem mem_topK {α : Type} {r : α → α → Prop} [DecidableRel r] {k : Nat} {l : List α} (h : l.length ≤ k) {a : α}
    (ha : a ∈ l) : a ∈ topK r k l := by
  rw [topK_of_length_le h]
  exact mem_ranked.mpr ha

omit [Score S] in
/-- The results of hits whose payloads make items. -/
theorem formatResults_ok {hits : List (Hit V S)} (h : ∀ hit ∈ hits, hit.row.payload.Formats) :
    ∃ items, formatResults hits = .ok items ∧ ∀ hit ∈ hits, (Payload.get hit.row.payload "data").truthy = true →
      hit.row.id ∈ items.map MemoryItem.id := by
  induction hits with
  | nil => exact ⟨[], rfl, by simp⟩
  | cons hit hits ih =>
    obtain ⟨hhit, hrest⟩ := List.forall_mem_cons.mp h
    obtain ⟨items, hitems, hfound⟩ := ih hrest
    rw [formatResults] at hitems ⊢
    by_cases hdata : (Payload.get hit.row.payload "data").truthy = true
    · obtain ⟨item, hitem⟩ := hhit
      obtain ⟨made, hmade⟩ := formatItem_ok hitem hit.row.id hit.score
      refine ⟨made :: items, ?_, ?_⟩
      · rw [List.filter_cons, if_pos hdata, List.mapM_cons, hmade, hitems]
        rfl
      · intro hit' hhit' hdata'
        rcases List.mem_cons.mp hhit' with rfl | hhit'
        · rw [List.map_cons, (formatItem_spec hmade).1]
          exact List.mem_cons_self
        · exact List.mem_cons_of_mem _ (hfound hit' hhit' hdata')
    · refine ⟨items, ?_, ?_⟩
      · rw [List.filter_cons, if_neg hdata, hitems]
      · intro hit' hhit' hdata'
        rcases List.mem_cons.mp hhit' with rfl | hhit'
        · exact absurd hdata' hdata
        · exact hfound hit' hhit' hdata'

theorem lexicalResultsFromRows_ok {rows : List (Row V)} (hformat : ∀ r ∈ rows,
    hidden E showExpired r.payload = false → r.payload.Formats) (hlimit : rows.length ≤ limit) :
    ∃ items, lexicalResultsFromRows E rows query limit threshold showExpired = .ok items ∧ ∀ r ∈ rows,
      hidden E showExpired r.payload = false → (Payload.get r.payload "data").truthy = true →
      WordsMatch E query threshold r → r.id ∈ items.map MemoryItem.id := by
  unfold lexicalResultsFromRows
  dsimp only
  generalize hscored : ((rows.filter fun r => !hidden E showExpired r.payload).map fun r =>
    (⟨r, lexicalTextScore E query (Payload.get r.payload "data")⟩ : Hit V S)) = scored
  have hlength : (scored.filter fun hit => max threshold 0 ≤ hit.score).length ≤ limit := by
    refine (List.length_filter_le _ _).trans ?_
    rw [← hscored, List.length_map]
    exact (List.length_filter_le _ _).trans hlimit
  have hmade : ∀ hit ∈ topK (fun a b => lexicalKey E a ≤ lexicalKey E b) limit
      (scored.filter fun hit => max threshold 0 ≤ hit.score), hit.row.payload.Formats := by
    intro hit hhit
    have hin := List.mem_of_mem_filter (mem_of_mem_topK hhit)
    rw [← hscored] at hin
    obtain ⟨r, hr, rfl⟩ := List.mem_map.mp hin
    obtain ⟨hr, hvisible⟩ := List.mem_filter.mp hr
    exact hformat r hr (by simpa using hvisible)
  obtain ⟨items, hitems, hfound⟩ := formatResults_ok hmade
  refine ⟨items, hitems, fun r hr hvisible hdata hmatch => ?_⟩
  refine hfound ⟨r, lexicalTextScore E query (Payload.get r.payload "data")⟩
    (mem_topK hlength (List.mem_filter.mpr ⟨?_, decide_eq_true hmatch⟩)) hdata
  rw [← hscored]
  exact List.mem_map.mpr ⟨r, List.mem_filter.mpr ⟨hr, by simp [hvisible]⟩, rfl⟩

/-! ## What the store answers -/

variable {ids : List (String × String)}

/-- The answers of the store to a vector, with room for every row. -/
theorem search_ids {P : Platform} {distance : V → V → S} (hkeys : ∀ e ∈ ids, e.1 ≠ "$or" ∧ e.1 ≠ "$not")
    (hlimit : t.rows.length ≤ limit) (vector : V) :
    ∃ hits, t.search P distance vector limit (idFilters ids) = .ok hits ∧ hits.length ≤ t.rows.length ∧
      (∀ hit ∈ hits, hit.row ∈ t.rows ∧ carriesIds P ids hit.row.payload = true) ∧
      ∀ row ∈ t.rows, carriesIds P ids row.payload = true → ∀ v, row.vector = some v →
        (⟨row, max 0 (1 - distance v vector)⟩ : Hit V S) ∈ hits := by
  rw [Table.search, select_ids hkeys]
  simp only [bind, Except.bind]
  generalize hmeasured : (((t.rows.filter fun row => row.vector.isSome).filter fun row =>
    ids.all fun e => idMatches P row.payload e.1 e.2).filterMap fun row =>
      row.vector.map fun v => (row, distance v vector)) = measured
  have hlength : measured.length ≤ t.rows.length := by
    rw [← hmeasured]
    exact (List.length_filterMap_le _ _).trans
      ((List.length_filter_le _ _).trans (List.length_filter_le _ _))
  refine ⟨_, rfl, ?_, ?_, ?_⟩
  · rw [List.length_map, topK_of_length_le (hlength.trans hlimit), length_ranked]
    exact hlength
  · intro hit hhit
    obtain ⟨m, hm, rfl⟩ := List.mem_map.mp hhit
    have hin := mem_of_mem_topK hm
    rw [← hmeasured] at hin
    obtain ⟨row, hrow, hmap⟩ := List.mem_filterMap.mp hin
    obtain ⟨v, -, rfl⟩ := Option.map_eq_some_iff.mp hmap
    obtain ⟨hrow, hcarries⟩ := List.mem_filter.mp hrow
    exact ⟨List.mem_of_mem_filter hrow, hcarries⟩
  · intro row hrow hcarries v hv
    refine List.mem_map.mpr ⟨(row, distance v vector), mem_topK (hlength.trans hlimit) ?_, rfl⟩
    rw [← hmeasured]
    refine List.mem_filterMap.mpr ⟨row, List.mem_filter.mpr ⟨List.mem_filter.mpr ⟨hrow, by simp [hv]⟩, hcarries⟩, ?_⟩
    rw [hv]
    rfl

theorem keywordSearch_ids {P : Platform} {textRank : String → String → Option S} {words : String}
    (hkeys : ∀ e ∈ ids, e.1 ≠ "$or" ∧ e.1 ≠ "$not") (hlimit : t.rows.length ≤ limit) :
    ∃ hits, t.keywordSearch P textRank words limit (idFilters ids) = some hits ∧ hits.length ≤ t.rows.length ∧
      (∀ hit ∈ hits, hit.row ∈ t.rows ∧ carriesIds P ids hit.row.payload = true) ∧
      ∀ row ∈ t.rows, carriesIds P ids row.payload = true →
        (Table.textMatch P textRank words row).isSome = true → row ∈ hits.map Hit.row := by
  rw [Table.keywordSearch, select_ids hkeys]
  dsimp only
  generalize hmatched : (((t.rows.filter fun row => (Table.textMatch P textRank words row).isSome).filter fun row =>
    ids.all fun e => idMatches P row.payload e.1 e.2).filterMap fun row =>
      (Table.textMatch P textRank words row).map fun score => (⟨row, score⟩ : Hit V S)) = matched
  have hlength : matched.length ≤ t.rows.length := by
    rw [← hmatched]
    exact (List.length_filterMap_le _ _).trans
      ((List.length_filter_le _ _).trans (List.length_filter_le _ _))
  refine ⟨_, rfl, ?_, ?_, ?_⟩
  · rw [topK_of_length_le (hlength.trans hlimit), length_ranked]
    exact hlength
  · intro hit hhit
    have hin := mem_of_mem_topK hhit
    rw [← hmatched] at hin
    obtain ⟨row, hrow, hmap⟩ := List.mem_filterMap.mp hin
    obtain ⟨score, -, rfl⟩ := Option.map_eq_some_iff.mp hmap
    obtain ⟨hrow, hcarries⟩ := List.mem_filter.mp hrow
    exact ⟨List.mem_of_mem_filter hrow, hcarries⟩
  · intro row hrow hcarries hsome
    obtain ⟨score, hscore⟩ := Option.isSome_iff_exists.mp hsome
    refine List.mem_map.mpr ⟨⟨row, score⟩, mem_topK (hlength.trans hlimit) ?_, rfl⟩
    rw [← hmatched]
    refine List.mem_filterMap.mpr ⟨row, List.mem_filter.mpr ⟨List.mem_filter.mpr ⟨hrow, hsome⟩, hcarries⟩, ?_⟩
    rw [hscore]
    rfl

/-! ## What the ways of searching find -/

theorem searchWithoutEmbedding_finds (hkeys : ∀ e ∈ ids, e.1 ≠ "$or" ∧ e.1 ≠ "$not")
    (hformat : AllFormat E t ids showExpired) (hlimit : t.rows.length ≤ limit) :
    (∃ items, searchWithoutEmbedding E t query (idFilters ids) limit threshold showExpired = .ok items) ∧
      (t.rows.length ≤ lexicalFallbackScanLimit → ∃ items,
        searchWithoutEmbedding E t query (idFilters ids) limit threshold showExpired = .ok items ∧ ∀ r ∈ t.rows,
          carriesIds E.platform ids r.payload = true → hidden E showExpired r.payload = false →
          (Payload.get r.payload "data").truthy = true → WordsMatch E query threshold r →
          r.id ∈ items.map MemoryItem.id) := by
  rw [searchWithoutEmbedding]
  have hlist : t.list E.platform (idFilters ids) lexicalFallbackScanLimit =
      .ok ((t.rows.filter fun row => carriesIds E.platform ids row.payload).take lexicalFallbackScanLimit) := by
    rw [Table.list, select_ids hkeys]
    rfl
  have hscan : ∀ r ∈ (t.rows.filter fun row => carriesIds E.platform ids row.payload).take lexicalFallbackScanLimit,
      hidden E showExpired r.payload = false → r.payload.Formats := by
    intro r hr hvisible
    obtain ⟨hr, hcarries⟩ := List.mem_filter.mp (List.mem_of_mem_take hr)
    exact hformat r hr hcarries hvisible
  have hlength : ((t.rows.filter fun row => carriesIds E.platform ids row.payload).take
      lexicalFallbackScanLimit).length ≤ limit :=
    (List.length_take_le' _ _).trans ((List.length_filter_le _ _).trans hlimit)
  obtain ⟨items, hitems, hfound⟩ := @lexicalResultsFromRows_ok _ _ _ E query limit threshold showExpired _ hscan hlength
  rw [hlist]
  refine ⟨⟨items, hitems⟩, fun hshort => ⟨items, hitems, fun r hr hcarries hvisible => ?_⟩⟩
  refine hfound r ?_ hvisible
  rw [List.take_of_length_le ((List.length_filter_le _ _).trans hshort)]
  exact List.mem_filter.mpr ⟨hr, hcarries⟩

/-- What a search asks for besides the identifiers while memories wait for their embedding. -/
theorem pendingFilters_ids (hpending : ids.lookup "embedding_status" = none) :
    pendingFilters (idFilters ids) = idFilters (ids ++ [("embedding_status", "pending")]) := by
  have hnew : "embedding_status" ∉ (idFilters ids).map Prod.fst := by
    rw [keys_idFilters]
    exact Dict.lookup_eq_none_iff_keys.mp hpending
  rw [pendingFilters, Dict.set_of_notMem hnew]
  simp [idFilters]

theorem carriesIds_append {P : Platform} {ids ids' : List (String × String)} {payload : Payload} :
    carriesIds P (ids ++ ids') payload = (carriesIds P ids payload && carriesIds P ids' payload) := by
  rw [carriesIds, List.all_append]
  rfl

theorem searchPendingEmbeddings_finds (hkeys : ∀ e ∈ ids, e.1 ≠ "$or" ∧ e.1 ≠ "$not")
    (hpending : ids.lookup "embedding_status" = none) (hformat : AllFormat E t ids showExpired)
    (hlimit : t.rows.length ≤ limit) :
    ∃ items, searchPendingEmbeddings E t query (idFilters ids) limit threshold showExpired = .ok items ∧
      ∀ r ∈ t.rows, carriesIds E.platform ids r.payload = true → hidden E showExpired r.payload = false →
        (Payload.get r.payload "data").truthy = true →
        idMatches E.platform r.payload "embedding_status" "pending" = true →
        (if hasCjkRun query then t.rows.length ≤ lexicalFallbackScanLimit
          else (Table.textMatch E.platform E.textRank (E.lemmatize query) r).isSome = true) →
        WordsMatch E query threshold r → r.id ∈ items.map MemoryItem.id := by
  have hkeys' : ∀ e ∈ ids ++ [("embedding_status", "pending")], e.1 ≠ "$or" ∧ e.1 ≠ "$not" := by
    intro e he
    rcases List.mem_append.mp he with he | he
    · exact hkeys e he
    · rw [List.mem_singleton.mp he]
      decide
  have hcarries : ∀ payload, carriesIds E.platform (ids ++ [("embedding_status", "pending")]) payload = true ↔
      carriesIds E.platform ids payload = true ∧
        idMatches E.platform payload "embedding_status" "pending" = true := by
    intro payload
    rw [carriesIds_append, Bool.and_eq_true]
    simp [carriesIds]
  have hformat' : AllFormat E t (ids ++ [("embedding_status", "pending")]) showExpired :=
    fun r hr hboth => hformat r hr ((hcarries r.payload).mp hboth).1
  have hexcludes : excludesPending (idFilters ids) = false := by
    rw [excludesPending, lookup_idFilters, hpending]
    rfl
  rw [searchPendingEmbeddings, if_neg (by simp [hexcludes]), pendingFilters_ids hpending]
  by_cases hcjk : hasCjkRun query = true
  · obtain ⟨⟨items, hitems⟩, hfound⟩ := @searchWithoutEmbedding_finds _ _ _ E t query limit threshold showExpired _
      hkeys' hformat' hlimit
    refine ⟨items, ?_, fun r hr hids hvisible hdata hstatus hscan hmatch => ?_⟩
    · rw [if_pos hcjk, pendingScan, hitems]
    · rw [if_pos hcjk] at hscan
      obtain ⟨items', hitems', hfound⟩ := hfound hscan
      rw [hitems] at hitems'
      cases hitems'
      exact hfound r hr ((hcarries _).mpr ⟨hids, hstatus⟩) hvisible hdata hmatch
  · have hroom : t.rows.length ≤ internalLimit limit := by
      rw [internalLimit]
      omega
    obtain ⟨hits, hhits, hlength, hrows, hall⟩ := @keywordSearch_ids _ _ _ t (internalLimit limit) _ E.platform
      E.textRank (E.lemmatize query) hkeys' hroom
    obtain ⟨items, hitems, hfound⟩ := @lexicalResultsFromRows_ok _ _ _ E query limit threshold showExpired
      (hits.map Hit.row) (by
        intro r hr hvisible
        obtain ⟨hit, hhit, rfl⟩ := List.mem_map.mp hr
        exact hformat' _ (hrows hit hhit).1 (hrows hit hhit).2 hvisible)
      (by rw [List.length_map]; exact hlength.trans hlimit)
    refine ⟨items, ?_, fun r hr hids hvisible hdata hstatus hscan hmatch => ?_⟩
    · rw [if_neg hcjk, hhits]
      exact hitems
    · rw [if_neg hcjk] at hscan
      exact hfound r (hall r hr ((hcarries _).mpr ⟨hids, hstatus⟩) hscan) hvisible hdata hmatch

theorem denseResults_finds {embedder : Embedder V} {stores : Stores V} {vector : V}
    (hkeys : ∀ e ∈ ids, e.1 ≠ "$or" ∧ e.1 ≠ "$not") (hformat : AllFormat E stores.memories ids showExpired)
    (hlimit : stores.memories.rows.length ≤ limit) :
    ∃ items, denseResults E embedder stores query vector (idFilters ids) limit threshold showExpired = .ok items ∧
      ∀ r ∈ stores.memories.rows, carriesIds E.platform ids r.payload = true →
        hidden E showExpired r.payload = false → (Payload.get r.payload "data").truthy = true →
        ∀ v, r.vector = some v → threshold ≤ max 0 (1 - E.distance v vector) → r.id ∈ items.map MemoryItem.id := by
  have hroom : stores.memories.rows.length ≤ internalLimit limit := by
    rw [internalLimit]
    omega
  obtain ⟨hits, hhits, hlength, hrows, hall⟩ := @search_ids _ _ _ stores.memories (internalLimit limit) _ E.platform
    E.distance hkeys hroom vector
  rw [denseResults, hhits]
  simp only [bind, Except.bind]
  generalize bm25Scores E (E.lemmatize query) _ = bm25
  generalize computeEntityBoosts E embedder stores.entities (E.extractEntities query) (idFilters ids) = boosts
  rw [scoreAndRank]
  generalize hscored : ((hits.filter fun hit => !hidden E showExpired hit.row.payload).filter fun hit =>
    decide (threshold ≤ hit.score)).map (fun hit => { hit with score := combinedScore E bm25 boosts hit }) = scored
  have hshort : scored.length ≤ limit := by
    rw [← hscored, List.length_map]
    exact (List.length_filter_le _ _).trans ((List.length_filter_le _ _).trans (hlength.trans hlimit))
  obtain ⟨items, hitems, hfound⟩ := @formatResults_ok V S
    (topK (fun a b => b.score ≤ a.score) limit scored) (by
      intro hit hhit
      have hin := mem_of_mem_topK hhit
      rw [← hscored] at hin
      obtain ⟨hit', hhit', rfl⟩ := List.mem_map.mp hin
      obtain ⟨hhit', hvisible⟩ := List.mem_filter.mp (List.mem_of_mem_filter hhit')
      exact hformat _ (hrows hit' hhit').1 (hrows hit' hhit').2 (by simpa using hvisible))
  refine ⟨items, hitems, fun r hr hids hvisible hdata v hv hscore => ?_⟩
  refine hfound ⟨r, combinedScore E bm25 boosts ⟨r, max 0 (1 - E.distance v vector)⟩⟩ (mem_topK hshort ?_) hdata
  rw [← hscored]
  refine List.mem_map.mpr ⟨⟨r, max 0 (1 - E.distance v vector)⟩, ?_, rfl⟩
  refine List.mem_filter.mpr ⟨List.mem_filter.mpr ⟨hall r hr hids v hv, by simp [hvisible]⟩, ?_⟩
  exact decide_eq_true hscore

/-! ## Merging keeps the memories -/

omit [Score S] in
/-- Distinct ids of rows are at most as many as the rows. -/
theorem length_le_rows {items : List (MemoryItem S)} (hnodup : (items.map MemoryItem.id).Nodup)
    (hrows : ∀ item ∈ items, item.id ∈ t.rows.map Row.id) : items.length ≤ t.rows.length := by
  have hsub : items.map MemoryItem.id ⊆ t.rows.map Row.id := by
    intro id hid
    obtain ⟨item, hitem, rfl⟩ := List.mem_map.mp hid
    exact hrows item hitem
  have hlength := (List.subperm_of_subset hnodup hsub).length_le
  rwa [List.length_map, List.length_map] at hlength

theorem mem_mergeItem {byId : List (String × MemoryItem S)} {item : MemoryItem S} {key : String}
    (h : key ∈ byId.map Prod.fst ∨ (key = item.id ∧ key ≠ "")) : key ∈ (mergeItem byId item).map Prod.fst := by
  rw [mergeItem]
  split
  · rename_i hid
    rcases h with hkey | ⟨hitem, hnamed⟩
    · exact hkey
    · exact absurd (hitem.trans hid) hnamed
  · split
    · rw [List.map_append, List.mem_append]
      rcases h with hkey | ⟨hitem, -⟩
      · exact .inl hkey
      · exact .inr (by simp [hitem])
    · rename_i existing hsome
      have hin : key ∈ byId.map Prod.fst := by
        rcases h with hkey | ⟨hitem, -⟩
        · exact hkey
        · rw [hitem]
          exact List.mem_map_of_mem (Dict.mem_of_lookup hsome)
      split
      · rw [Dict.keys_set]
        split
        · exact hin
        · exact List.mem_append_left _ hin
      · exact hin

theorem mem_foldl_mergeItem {items : List (MemoryItem S)} {byId : List (String × MemoryItem S)} {key : String}
    (h : key ∈ byId.map Prod.fst ∨ (key ∈ items.map MemoryItem.id ∧ key ≠ "")) :
    key ∈ (items.foldl mergeItem byId).map Prod.fst := by
  induction items generalizing byId with
  | nil =>
    rcases h with hkey | ⟨hitem, -⟩
    · exact hkey
    · cases hitem
  | cons item items ih =>
    apply ih
    rcases h with hkey | ⟨hitem, hnamed⟩
    · exact .inl (mem_mergeItem (.inl hkey))
    · rcases List.mem_cons.mp hitem with hfirst | hrest
      · exact .inl (mem_mergeItem (.inr ⟨hfirst, hnamed⟩))
      · exact .inr ⟨hrest, hnamed⟩

/-- With room for every row merging leaves no memory out. -/
theorem mergeMemorySearchResults_keeps {primary supplemental : List (MemoryItem S)}
    (hrows : ∀ item ∈ primary ++ supplemental, item.id ∈ t.rows.map Row.id) (hlimit : t.rows.length ≤ limit)
    {key : String} (hkey : key ∈ (primary ++ supplemental).map MemoryItem.id) :
    key ∈ (mergeMemorySearchResults primary supplemental limit).map MemoryItem.id := by
  have hmerged := mergeMemorySearchResults_merged (primary ++ supplemental)
  have hids : (((primary ++ supplemental).foldl mergeItem []).map Prod.snd).map MemoryItem.id =
      ((primary ++ supplemental).foldl mergeItem []).map Prod.fst := by
    rw [List.map_map]
    exact List.map_congr_left fun e he => (hmerged.keyed e he).1.symm
  have hnamed : key ≠ "" := by
    obtain ⟨item, hitem, rfl⟩ := List.mem_map.mp hkey
    obtain ⟨row, hrow, hid⟩ := List.mem_map.mp (hrows item hitem)
    rw [← hid]
    exact t.named row hrow
  have hlength := @length_le_rows _ _ t (((primary ++ supplemental).foldl mergeItem []).map Prod.snd)
    (hids ▸ hmerged.unique) (by
      intro item hitem
      obtain ⟨e, he, rfl⟩ := List.mem_map.mp hitem
      exact hrows e.2 (hmerged.keyed e he).2.2)
  have hin : key ∈ (((primary ++ supplemental).foldl mergeItem []).map Prod.snd).map MemoryItem.id := by
    rw [hids]
    exact mem_foldl_mergeItem (.inr ⟨hkey, hnamed⟩)
  obtain ⟨item, hitem, rfl⟩ := List.mem_map.mp hin
  exact List.mem_map_of_mem (mem_topK (hlength.trans hlimit) hitem)

/-! ## The whole search -/

omit [Score S] in
theorem Shows.stored {filters : Entries} {item : MemoryItem S} (h : Shows E t filters showExpired item) :
    item.id ∈ t.rows.map Row.id := by
  obtain ⟨row, hadmits, -, -, hid⟩ := h
  rw [← hid]
  exact List.mem_map_of_mem hadmits.1

omit [Score S] in
theorem Answers.stored {filters : Entries} {items : List (MemoryItem S)}
    (h : Answers E t filters showExpired limit items) : ∀ item ∈ items, item.id ∈ t.rows.map Row.id := by
  intro item hitem
  rcases h.shows item hitem with hshows | ⟨-, hshows⟩
  · exact hshows.stored
  · exact hshows.stored

theorem searchVectorStore_finds {embedder : Embedder V} {stores : Stores V}
    (hkeys : ∀ e ∈ ids, e.1 ≠ "$or" ∧ e.1 ≠ "$not") (hpending : ids.lookup "embedding_status" = none)
    (hformat : AllFormat E stores.memories ids showExpired) (hlimit : stores.memories.rows.length ≤ limit) :
    ∃ items, searchVectorStore E embedder stores query (idFilters ids) limit threshold showExpired = .ok items ∧
      ∀ r ∈ stores.memories.rows, carriesIds E.platform ids r.payload = true →
        hidden E showExpired r.payload = false → (Payload.get r.payload "data").truthy = true →
        QueryMatches E embedder stores.memories query threshold r → r.id ∈ items.map MemoryItem.id := by
  rw [searchVectorStore]
  cases hembed : embedder.embed query with
  | none =>
    obtain ⟨⟨items, hitems⟩, hfound⟩ := @searchWithoutEmbedding_finds _ _ _ E stores.memories query limit threshold
      showExpired _ hkeys hformat hlimit
    refine ⟨items, hitems, fun r hr hcarries hvisible hdata hmatch => ?_⟩
    cases hmatch with
    | dense hembed' => rw [hembed] at hembed'; cases hembed'
    | pending hembed' => rw [hembed] at hembed'; cases hembed'
    | lexical _ hshort hwords =>
      obtain ⟨items', hitems', hfound⟩ := hfound hshort
      rw [hitems] at hitems'
      cases hitems'
      exact hfound r hr hcarries hvisible hdata hwords
  | some vector =>
    obtain ⟨primary, hprimary, hdense⟩ := @denseResults_finds _ _ _ E query limit threshold showExpired _ embedder
      stores vector hkeys hformat hlimit
    obtain ⟨supplemental, hsupplemental, hwaiting⟩ := @searchPendingEmbeddings_finds _ _ _ E stores.memories query
      limit threshold showExpired _ hkeys hpending hformat hlimit
    have hrows : ∀ item ∈ primary ++ supplemental, item.id ∈ stores.memories.rows.map Row.id := by
      intro item hitem
      rcases List.mem_append.mp hitem with hitem | hitem
      · exact (shows_of_denseResults hprimary item hitem).stored
      · exact (shows_of_searchPendingEmbeddings hsupplemental item hitem).2.stored
    refine ⟨mergeMemorySearchResults primary supplemental limit, ?_, ?_⟩
    · simp only [hprimary, hsupplemental, bind, Except.bind]
      rfl
    · intro r hr hcarries hvisible hdata hmatch
      apply mergeMemorySearchResults_keeps hrows hlimit
      rw [List.map_append, List.mem_append]
      cases hmatch with
      | lexical hembed' => rw [hembed] at hembed'; cases hembed'
      | dense hembed' hv hscore =>
        rw [hembed] at hembed'
        cases hembed'
        exact .inl (hdense r hr hcarries hvisible hdata _ hv hscore)
      | pending _ hstatus hscan hwords => exact .inr (hwaiting r hr hcarries hvisible hdata hstatus hscan hwords)

theorem validateSearch_ok {request : SearchRequest S} (hthreshold : 0 ≤ request.threshold ∧ request.threshold ≤ 1)
    (htopK : 0 ≤ request.topK) (hquery : strip request.query ≠ "") :
    validateSearch request = .ok (strip request.query) := by
  rw [validateSearch, if_neg (by simp [hthreshold.1, hthreshold.2]), if_neg (by omega), if_neg hquery]

omit [Score S] in
theorem applyReranker_keeps {reranker : Option (Reranker S)} (hreranker : ∀ r ∈ reranker, r.Complete) {rerank : Bool}
    {items : List (MemoryItem S)} (hlength : items.length ≤ limit) :
    (applyReranker reranker rerank query limit items).Perm items := by
  unfold applyReranker
  cases reranker with
  | none => exact .refl _
  | some r =>
    dsimp only
    split
    · cases hout : r query items limit with
      | none => exact .refl _
      | some out => exact hreranker r rfl query items limit out hlength hout
    · exact .refl _

/-- A search by identifiers with room for every row answers every memory with a text that its query matches. -/
theorem search_finds {embedder : Embedder V} {reranker : Option (Reranker S)} {stores : Stores V}
    {request : SearchRequest S} (hids : AcceptedIds ids) (hfilters : request.filters = idFilters ids)
    (hformat : AllFormat E stores.memories (trimScopeIds ids) request.showExpired)
    (hthreshold : 0 ≤ request.threshold ∧ request.threshold ≤ 1) (hquery : strip request.query ≠ "")
    (hlimit : (stores.memories.rows.length : Int) ≤ request.topK) (hreranker : ∀ r ∈ reranker, r.Complete) :
    ∃ items, search E embedder reranker stores request = .ok items ∧ (items.map MemoryItem.id).Nodup ∧
      (∀ item ∈ items, item.id ∈ stores.memories.rows.map Row.id) ∧ ∀ r ∈ stores.memories.rows,
        carriesIds E.platform (trimScopeIds ids) r.payload = true → hidden E request.showExpired r.payload = false →
        (Payload.get r.payload "data").truthy = true →
        QueryMatches E embedder stores.memories (strip request.query) request.threshold r →
        r.id ∈ items.map MemoryItem.id := by
  have hkeys := trimScopeIds_keys hids.keys
  have hunique : Dict.Unique (trimScopeIds ids) := by
    rw [Dict.Unique, keys_trimScopeIds]
    exact hids.unique
  have hlogical : ∀ e ∈ trimScopeIds ids, e.1 ∉ logicalKeys := by
    have hall : ∀ key ∈ sessionScopeKeys, key ∉ logicalKeys := by decide
    exact fun e he => hall e.1 (hkeys e he)
  have hpending : (trimScopeIds ids).lookup "embedding_status" = none := by
    rw [Dict.lookup_eq_none_iff_keys]
    intro hmem
    obtain ⟨e, he, hname⟩ := List.mem_map.mp hmem
    have hnot : "embedding_status" ∉ sessionScopeKeys := by decide
    exact hnot (hname ▸ hkeys e he)
  have hlimit' : stores.memories.rows.length ≤ request.topK.toNat := by omega
  obtain ⟨original, horiginal, hfound⟩ := @searchVectorStore_finds _ _ _ E (strip request.query) request.topK.toNat
    request.threshold request.showExpired _ embedder stores (storeKeys hkeys) hpending hformat hlimit'
  have hanswers := searchVectorStore_answers horiginal
  have hperm := @applyReranker_keeps _ (strip request.query) request.topK.toNat _ hreranker request.rerank original
    hanswers.length
  refine ⟨applyReranker reranker request.rerank (strip request.query) request.topK.toNat original, ?_,
    (hperm.map MemoryItem.id).nodup_iff.mpr hanswers.nodup, ?_, ?_⟩
  · rw [search, validateSearch_ok hthreshold (by omega) hquery, hfilters, validateFilters_ids hids]
    simp only [bind, Except.bind, effectiveFilters_ids hunique hlogical, telemetryFilters_ids, horiginal]
    rfl
  · exact fun item hitem => hanswers.stored item (hperm.mem_iff.mp hitem)
  · intro r hr hcarries hvisible hdata hmatch
    exact (hperm.map MemoryItem.id).mem_iff.mpr (hfound r hr hcarries hvisible hdata hmatch)

end

end YiQiao
