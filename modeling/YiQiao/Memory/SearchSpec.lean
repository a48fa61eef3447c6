import YiQiao.Memory.Search

/-!
# What a search returns

Every result of a search is a stored row that the effective filters admit, possibly with the filter
for pending embeddings on top, and that is not hidden. No memory is returned twice.
-/

namespace YiQiao

open Lib Filters Fallible

variable {V S : Type}
variable {E : Engine V S} {t : Table V} {filters : Entries}

/-! ## Formatting -/

theorem mem_formatResults {hits : List (Hit V S)} {items : List (MemoryItem S)}
    (h : formatResults hits = .ok items) {item : MemoryItem S} (hitem : item ∈ items) :
    ∃ hit ∈ hits, item.id = hit.row.id ∧ hit.row.payload.Showable := by
  obtain ⟨hit, hhit, hformat⟩ := exists_left_of_mem (mapM_ok.mp h) hitem
  obtain ⟨hhit, hdata⟩ := List.mem_filter.mp hhit
  exact ⟨hit, hhit, (formatItem_spec hformat).1, hdata, formatItem_ok hformat "" ()⟩

theorem formatResults_nodup {hits : List (Hit V S)} {items : List (MemoryItem S)}
    (h : formatResults hits = .ok items) (hn : (hits.map fun hit => hit.row.id).Nodup) :
    (items.map MemoryItem.id).Nodup := by
  have hids : items.map MemoryItem.id =
      (hits.filter fun hit => (Payload.get hit.row.payload "data").truthy).map fun hit => hit.row.id := by
    refine (forall₂_map_eq (mapM_ok.mp h) fun hit item hformat => ?_).symm
    exact (formatItem_spec hformat).1.symm
  rw [hids]
  exact hn.sublist (List.filter_sublist.map _)

theorem formatResults_length {hits : List (Hit V S)} {items : List (MemoryItem S)}
    (h : formatResults hits = .ok items) : items.length ≤ hits.length := by
  rw [← (mapM_ok.mp h).length_eq]
  exact List.length_filter_le _ _

/-! ## Where a result comes from -/

variable [Score S]

/-- The item shows a stored row that the filters admit and the request does not hide. -/
def Shows (E : Engine V S) (t : Table V) (filters : Entries) (showExpired : Bool)
    (item : MemoryItem S) : Prop :=
  ∃ row, t.Admits E.platform filters row ∧ hidden E showExpired row.payload = false ∧
    row.payload.Showable ∧ row.id = item.id

theorem shows_of_lexical {rows : List (Row V)} {query : String} {limit : Nat} {threshold : S}
    {showExpired : Bool} {items : List (MemoryItem S)}
    (h : lexicalResultsFromRows E rows query limit threshold showExpired = .ok items)
    (hrows : ∀ row ∈ rows, t.Admits E.platform filters row) :
    ∀ item ∈ items, Shows E t filters showExpired item := by
  intro item hitem
  obtain ⟨hit, hhit, hid, hshow⟩ := mem_formatResults h hitem
  obtain ⟨row, hrow, rfl⟩ := List.mem_map.mp (List.mem_of_mem_filter (mem_of_mem_topK hhit))
  obtain ⟨hrow, hvisible⟩ := List.mem_filter.mp hrow
  exact ⟨row, hrows row hrow, by simpa using hvisible, hshow, hid.symm⟩

theorem shows_of_searchWithoutEmbedding {query : String} {limit : Nat} {threshold : S}
    {showExpired : Bool} {items : List (MemoryItem S)}
    (h : searchWithoutEmbedding E t query filters limit threshold showExpired = .ok items) :
    ∀ item ∈ items, Shows E t filters showExpired item := by
  simp only [searchWithoutEmbedding, bind_ok] at h
  obtain ⟨rows, hrows, h⟩ := h
  exact shows_of_lexical h fun row hrow => Table.mem_list hrows hrow

theorem shows_of_pendingScan {query : String} {limit : Nat} {threshold : S} {showExpired : Bool} :
    ∀ item ∈ pendingScan E t query filters limit threshold showExpired,
      Shows E t filters showExpired item := by
  intro item hitem
  unfold pendingScan at hitem
  split at hitem
  · rename_i items h
    exact shows_of_searchWithoutEmbedding h item hitem
  · cases hitem

/-- Pending results satisfy the filters with the pending status put in. -/
theorem shows_of_searchPendingEmbeddings {query : String} {limit : Nat} {threshold : S}
    {showExpired : Bool} {items : List (MemoryItem S)}
    (h : searchPendingEmbeddings E t query filters limit threshold showExpired = .ok items) :
    ∀ item ∈ items, excludesPending filters = false ∧
      Shows E t (pendingFilters filters) showExpired item := by
  intro item hitem
  unfold searchPendingEmbeddings at h
  split at h
  · cases h
    cases hitem
  · rename_i hexcludes
    refine ⟨by simpa using hexcludes, ?_⟩
    split at h
    · cases h
      exact shows_of_pendingScan item hitem
    · split at h
      · rename_i hits hhits
        refine shows_of_lexical h (fun row hrow => ?_) item hitem
        obtain ⟨hit, hhit, rfl⟩ := List.mem_map.mp hrow
        exact Table.mem_keywordSearch hhits hhit
      · cases h
        exact shows_of_pendingScan item hitem

theorem shows_of_denseResults {embedder : Embedder V} {stores : Stores V} {query : String} {vector : V}
    {limit : Nat} {threshold : S} {showExpired : Bool} {items : List (MemoryItem S)}
    (h : denseResults E embedder stores query vector filters limit threshold showExpired = .ok items) :
    ∀ item ∈ items, Shows E stores.memories filters showExpired item := by
  intro item hitem
  simp only [denseResults, bind_ok] at h
  obtain ⟨semantic, hsemantic, h⟩ := h
  obtain ⟨hit, hhit, hid, hshow⟩ := mem_formatResults h hitem
  obtain ⟨hit', hhit', rfl⟩ := List.mem_map.mp (mem_of_mem_topK hhit)
  obtain ⟨hcandidate, hvisible⟩ := List.mem_filter.mp (List.mem_of_mem_filter hhit')
  exact ⟨hit'.row, Table.mem_search hsemantic hcandidate, by simpa using hvisible, hshow,
    hid.symm⟩

/-! ## Merging -/

/-- What merging keeps: each key is the id of its item, and items come from the input. -/
structure Merged (byId : List (String × MemoryItem S)) (items : List (MemoryItem S)) : Prop where
  unique : Dict.Unique byId
  keyed : ∀ e ∈ byId, e.1 = e.2.id ∧ e.2.id ≠ "" ∧ e.2 ∈ items

theorem mergeItem_merged {byId : List (String × MemoryItem S)} {items : List (MemoryItem S)}
    {item : MemoryItem S} (h : Merged byId items) (hitem : item ∈ items) :
    Merged (mergeItem byId item) items := by
  unfold mergeItem
  split
  · exact h
  · rename_i hid
    split
    · rename_i hnone
      have hnew := Dict.lookup_eq_none_iff_keys.mp hnone
      rw [← Dict.set_of_notMem hnew]
      refine ⟨h.unique.set _ _, fun e he => ?_⟩
      rcases Dict.mem_set he with rfl | he
      · exact ⟨rfl, hid, hitem⟩
      · exact h.keyed e he
    · split
      · refine ⟨h.unique.set _ _, fun e he => ?_⟩
        rcases Dict.mem_set he with rfl | he
        · exact ⟨rfl, hid, hitem⟩
        · exact h.keyed e he
      · exact h

theorem foldl_mergeItem_merged {byId : List (String × MemoryItem S)} {items rest : List (MemoryItem S)}
    (h : Merged byId items) (hrest : ∀ item ∈ rest, item ∈ items) :
    Merged (rest.foldl mergeItem byId) items := by
  induction rest generalizing byId with
  | nil => exact h
  | cons item rest ih =>
      exact ih (mergeItem_merged h (hrest item List.mem_cons_self))
        fun item' h' => hrest item' (List.mem_cons_of_mem _ h')

theorem mergeMemorySearchResults_merged (items : List (MemoryItem S)) :
    Merged (items.foldl mergeItem []) items :=
  foldl_mergeItem_merged ⟨List.nodup_nil, by simp⟩ fun _ h => h

theorem mem_mergeMemorySearchResults {primary supplemental : List (MemoryItem S)} {limit : Nat}
    {item : MemoryItem S} (h : item ∈ mergeMemorySearchResults primary supplemental limit) :
    item ∈ primary ∨ item ∈ supplemental := by
  obtain ⟨e, he, rfl⟩ := List.mem_map.mp (mem_of_mem_topK h)
  exact List.mem_append.mp ((mergeMemorySearchResults_merged _).keyed e he).2.2

theorem mergeMemorySearchResults_nodup (primary supplemental : List (MemoryItem S)) (limit : Nat) :
    ((mergeMemorySearchResults primary supplemental limit).map MemoryItem.id).Nodup := by
  have hmerged := mergeMemorySearchResults_merged (primary ++ supplemental)
  have hkeys : (((primary ++ supplemental).foldl mergeItem []).map Prod.snd).map MemoryItem.id =
      ((primary ++ supplemental).foldl mergeItem []).map Prod.fst := by
    rw [List.map_map]
    exact List.map_congr_left fun e he => (hmerged.keyed e he).1.symm
  exact topK_map_nodup (hkeys ▸ hmerged.unique)

/-! ## The whole search -/

theorem lexicalResultsFromRows_nodup {rows : List (Row V)} {query : String} {limit : Nat} {threshold : S}
    {showExpired : Bool} {items : List (MemoryItem S)}
    (h : lexicalResultsFromRows E rows query limit threshold showExpired = .ok items)
    (hrows : (rows.map Row.id).Nodup) :
    (items.map MemoryItem.id).Nodup ∧ items.length ≤ limit := by
  refine ⟨formatResults_nodup h ?_, (formatResults_length h).trans (length_topK_le _ _)⟩
  refine topK_map_nodup ?_
  have hsub := (List.filter_sublist (p := fun hit : Hit V S => max threshold 0 ≤ hit.score)
    (l := (rows.filter fun row => !hidden E showExpired row.payload).map fun row =>
      (⟨row, lexicalTextScore E query (Payload.get row.payload "data")⟩ : Hit V S))).map
    fun hit => hit.row.id
  refine List.Nodup.sublist hsub ?_
  rw [List.map_map]
  exact hrows.sublist (List.filter_sublist.map _)

/-- A faithful reranker returns some of the results it was given, in any order. -/
def Reranker.Faithful (reranker : Reranker S) : Prop :=
  ∀ query items limit out, reranker query items limit = some out → out.Subperm items

/-- What the results of a search satisfy. -/
structure Answers (E : Engine V S) (t : Table V) (filters : Entries) (showExpired : Bool) (limit : Nat)
    (items : List (MemoryItem S)) : Prop where
  shows : ∀ item ∈ items, Shows E t filters showExpired item ∨
    (excludesPending filters = false ∧ Shows E t (pendingFilters filters) showExpired item)
  nodup : (items.map MemoryItem.id).Nodup
  length : items.length ≤ limit

theorem searchVectorStore_answers {embedder : Embedder V} {stores : Stores V} {query : String}
    {limit : Nat} {threshold : S} {showExpired : Bool} {items : List (MemoryItem S)}
    (h : searchVectorStore E embedder stores query filters limit threshold showExpired = .ok items) :
    Answers E stores.memories filters showExpired limit items := by
  unfold searchVectorStore at h
  split at h
  · have hlex := h
    simp only [searchWithoutEmbedding, bind_ok] at hlex
    obtain ⟨rows, hrows, hlex⟩ := hlex
    obtain ⟨hnodup, hlength⟩ := lexicalResultsFromRows_nodup hlex (Table.list_nodup hrows)
    exact ⟨fun item hitem => .inl (shows_of_searchWithoutEmbedding h item hitem), hnodup, hlength⟩
  · simp only [bind_ok, pure_ok] at h
    obtain ⟨primary, hprimary, pending, hpending, rfl⟩ := h
    refine ⟨fun item hitem => ?_, mergeMemorySearchResults_nodup _ _ _, length_topK_le _ _⟩
    rcases mem_mergeMemorySearchResults hitem with hitem | hitem
    · exact .inl (shows_of_denseResults hprimary item hitem)
    · exact .inr (shows_of_searchPendingEmbeddings hpending item hitem)

omit [Score S] in
theorem Answers.subperm {showExpired : Bool} {limit : Nat} {items out : List (MemoryItem S)}
    (h : Answers E t filters showExpired limit items) (hout : out.Subperm items) :
    Answers E t filters showExpired limit out where
  shows := fun item hitem => h.shows item (hout.subset hitem)
  nodup := by
    obtain ⟨l, hperm, hsub⟩ := hout
    exact ((hperm.map _).nodup_iff.mp (h.nodup.sublist (hsub.map _)))
  length := hout.length_le.trans h.length

/-- A search that returns has filters the store could compile. -/
theorem searchVectorStore_builds {embedder : Embedder V} {stores : Stores V} {query : String}
    {limit : Nat} {threshold : S} {showExpired : Bool} {items : List (MemoryItem S)}
    (h : searchVectorStore E embedder stores query filters limit threshold showExpired = .ok items) :
    ∃ conds, buildFilterConditions E.platform filters = .ok conds := by
  unfold searchVectorStore at h
  split at h
  · simp only [searchWithoutEmbedding, Table.list, bind_ok] at h
    obtain ⟨_, ⟨rows, hrows, _⟩, _⟩ := h
    exact Table.select_builds hrows
  · simp only [denseResults, Table.search, bind_ok] at h
    obtain ⟨_, ⟨_, ⟨rows, hrows, _⟩, _⟩, _⟩ := h
    exact Table.select_builds hrows

/-- The filters are accepted, and these are the effective ones. -/
def Accepted (P : Platform) (filters effective : Entries) : Prop :=
  ∃ validated, validateFilters filters = .ok validated ∧ effectiveFilters validated = .ok effective ∧
    telemetryFilters effective = .ok () ∧ ∃ conds, buildFilterConditions P effective = .ok conds

/-- The results of a search, whatever the engine, the providers and the stores. -/
theorem search_answers {embedder : Embedder V} {reranker : Option (Reranker S)} {stores : Stores V}
    {request : SearchRequest S} {items : List (MemoryItem S)}
    (h : search E embedder reranker stores request = .ok items)
    (hr : ∀ r ∈ reranker, r.Faithful) :
    ∃ effective, Accepted E.platform request.filters effective ∧
      Answers E stores.memories effective request.showExpired request.topK.toNat items := by
  simp only [search, bind_ok, pure_ok] at h
  obtain ⟨query, _, validated, hvalidated, effective, heffective, _, htelemetry, original, horiginal,
    rfl⟩ := h
  refine ⟨effective, ⟨validated, hvalidated, heffective, htelemetry, searchVectorStore_builds horiginal⟩,
    ?_⟩
  have answers := searchVectorStore_answers horiginal
  unfold applyReranker
  cases reranker with
  | none => exact answers
  | some r =>
      simp only
      split
      · cases hout : r query original request.topK.toNat with
        | none => exact answers
        | some out => exact answers.subperm (hr r rfl query original _ out hout)
      · exact answers

end YiQiao
