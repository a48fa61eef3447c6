import YiQiao.Server.Search

/-!
# Project isolation of the search

The endpoint puts the caller's project into the filters, but a branch of `AND` that follows the
entry may put another constraint in its place. A request stays inside its project exactly when the
project is the last word on `project_id`, or no memory of another project meets the filter.
-/

namespace YiQiao

open Lib Filters Fallible

variable {V S : Type} [Score S]

/-! ## The property and its condition -/

variable (V S) in
/-- No search with these filters returns a memory of another project, whatever else it asks and
whatever the stores, the graph and the providers hold. -/
def Isolated (project : ProjectId) (filters : Entries) : Prop :=
  ∀ (W : SearchWorld V S) (threshold : S) (body : SearchBody S) (items : List (MemoryItem S)),
    (∀ r ∈ W.reranker, r.Faithful) → body.projectFilters project = filters →
    searchMemories W project threshold body = .ok items →
    ∀ item ∈ items, ∃ row ∈ W.stores.memories.rows, row.id = item.id ∧
      row.payload.OfProject W.engine.platform project

/-- The constraint the endpoint puts in. -/
def ownConstraint (project : ProjectId) : Constraint := ⟨"project_id", none, .str project.text⟩

/-- No later branch of `AND` replaces the caller's project. -/
def OwnProjectLast (project : ProjectId) (filters : Entries) : Prop :=
  ownConstraint project ∈ lastWord (conjuncts filters)

/-- Conditions a search with these effective filters selects rows by. -/
def Answering (P : Platform) (effective : Entries) (conds : List Cond) : Prop :=
  buildFilterConditions P effective = .ok conds ∨
    (excludesPending effective = false ∧ buildFilterConditions P (pendingFilters effective) = .ok conds)

/-- No showable memory of another project meets the filter. -/
def NoForeignMatch (project : ProjectId) (filters : Entries) : Prop :=
  ∀ P effective conds (payload : Payload),
    Accepted P filters effective → Answering P effective conds → payload.Showable →
    selects P conds payload = true → payload.OfProject P project

/-! ## The condition is enough -/

omit [Score S] in
/-- A stored row that a search with the effective filters may show. -/
theorem answering_of_answers {E : Engine V S} {t : Table V} {effective : Entries} {showExpired : Bool}
    {limit : Nat} {items : List (MemoryItem S)}
    (h : Answers E t effective showExpired limit items) {item : MemoryItem S} (hitem : item ∈ items) :
    ∃ row ∈ t.rows, row.id = item.id ∧ row.payload.Showable ∧
      ∃ conds, Answering E.platform effective conds ∧ selects E.platform conds row.payload = true := by
  rcases h.shows item hitem with hshow | ⟨hpending, hshow⟩
  · obtain ⟨row, ⟨hrow, conds, hconds, hsel⟩, _, hshowable, hid⟩ := hshow
    exact ⟨row, hrow, hid, hshowable, conds, .inl hconds, hsel⟩
  · obtain ⟨row, ⟨hrow, conds, hconds, hsel⟩, _, hshowable, hid⟩ := hshow
    exact ⟨row, hrow, hid, hshowable, conds, .inr ⟨hpending, hconds⟩, hsel⟩

/-- It suffices that the rows the filters select are of the project: appended memories are. -/
theorem isolated_of_noForeignMatch {project : ProjectId} {filters : Entries}
    (h : (Value.dict filters).WF → NoForeignMatch project filters) : Isolated V S project filters := by
  rintro W threshold body items hfaithful rfl hsearch item hitem
  simp only [searchMemories, bind_ok, pure_ok] at hsearch
  obtain ⟨response, hresponse, rfl⟩ := hsearch
  obtain ⟨effective, accepted, answers⟩ := search_answers hresponse hfaithful
  have hrelated := relatedMemories_nodup W.tools W.graph body.query project
    (body.projectFilters project) (max body.limit.toNat 10)
  obtain ⟨extended, _⟩ := @addGraphResults_spec V S _ W.engine.platform W.stores.memories project _ _ _
    answers.nodup hrelated answers.length
  rcases extended.source item hitem with hmem | ⟨_, r, _, happ⟩
  · obtain ⟨found, hfound, hid⟩ := List.mem_map.mp hmem
    obtain ⟨row, hrow, hrowid, hshowable, conds, hconds, hsel⟩ := answering_of_answers answers hfound
    exact ⟨row, hrow, hrowid.trans hid,
      h (projectFilters_wf body project) _ effective conds _ accepted hconds hshowable hsel⟩
  · obtain ⟨hid, row, hrow, hrowid, hproject⟩ := appendedItem_spec happ
    exact ⟨row, hrow, hrowid.trans hid.symm, .inr hproject⟩

/-- The caller's project is matched exactly by whatever the filter selects. -/
theorem noForeignMatch_of_own {project : ProjectId} {filters : Entries} (hwf : (Value.dict filters).WF)
    (hown : OwnProjectLast project filters) : NoForeignMatch project filters := by
  rintro P effective conds payload ⟨validated, hv, he, _⟩ hconds _ hsel
  have hvalid := validateFilters_validated hv hwf
  have hlast : ownConstraint project ∈ lastWord (conjuncts validated) :=
    (validateFilters_lastWord hv (by simp [ownConstraint, scopeIds])).mpr hown
  have hlookup : effective.lookup "project_id" = some (.str project.text) := by
    obtain ⟨v, hv', hmem⟩ := ((effectiveFilters_tracks he hvalid).denotes (ownConstraint project)
      ⟨by simp [ownConstraint], by simp [ownConstraint]⟩).mpr hlast
    cases v with
    | dict ops => simp [constraintsOf, ownConstraint] at hmem
    | _ =>
        rw [constraintsOf_not_dict rfl, List.mem_singleton] at hmem
        rw [ownConstraint, Constraint.mk.injEq] at hmem
        rw [hmem.2.2]
        exact hv'
  refine .inl ?_
  rcases hconds with hconds | ⟨_, hconds⟩
  · exact text_of_selects hconds (by decide) project.text_ne_star hlookup hsel
  · refine text_of_selects hconds (by decide) project.text_ne_star ?_ hsel
    rw [pendingFilters, Dict.lookup_set_of_ne (by decide), hlookup]

/-! ## The condition is necessary -/

/-- An engine whose scores are all zero and which knows no language. -/
def quietEngine (P : Platform) : Engine V S where
  platform := P
  calendar := ⟨fun _ => none, 0⟩
  distance := fun _ _ => 0
  textRank := fun _ _ => none
  lemmatize := id
  normalizeBm25 := fun _ score => score
  lexicalScore := fun _ _ => 0
  extractEntities := fun _ => []
  normalizeEntityText := id
  entityBoostWeight := 0
  entityThreshold := 0
  memoryCountWeight := fun _ => 0

/-- A store with one memory that waits for its embedding. -/
def oneMemory (payload : Payload) : Table V where
  rows := [⟨"m", none, payload⟩]
  unique := List.nodup_singleton _
  named := by simp

def oneMemoryWorld (P : Platform) (vector : Option V) (payload : Payload) : SearchWorld V S where
  engine := quietEngine P
  tools := ⟨fun _ => [], fun _ _ => 0⟩
  embedder := ⟨fun _ => vector, fun _ => none⟩
  reranker := none
  stores := ⟨oneMemory payload, Table.empty⟩
  graph := none

/-- The request that asks for one memory, whatever its score. -/
def SearchBody.probe (body : SearchBody S) : SearchBody S :=
  { body with query := "中", topK := some 1, threshold := some 0, rerank := none, showExpired := some true }

section

variable {P : Platform} {payload : Payload} {filters : Entries} {conds : List Cond}

theorem list_oneMemory (hconds : buildFilterConditions P filters = .ok conds)
    (hsel : selects P conds payload = true) :
    (oneMemory payload : Table V).list P filters lexicalFallbackScanLimit =
      .ok [⟨"m", none, payload⟩] := by
  have hsafe : (Kleene.Expr.atomsList conds).any (Test.fails P payload) = false := by
    simpa using (selects_iff.mp hsel).1
  simp [Table.list, Table.select, oneMemory, hconds, hsafe, hsel, lexicalFallbackScanLimit, bind,
    Except.bind, pure, Except.pure]

theorem lexicalResults_oneMemory (hshow : payload.Showable) :
    ∃ item : MemoryItem S, item.id = "m" ∧
      lexicalResultsFromRows (quietEngine P : Engine V S) [⟨"m", none, payload⟩] "中" 1 0 true =
        .ok [item] := by
  obtain ⟨hdata, _, hformat⟩ := hshow
  obtain ⟨item, hitem⟩ := formatItem_ok hformat "m" (0 : S)
  refine ⟨item, (formatItem_spec hitem).1, ?_⟩
  have hscore : lexicalTextScore (quietEngine P : Engine V S) "中" (Payload.get payload "data") = 0 := by
    cases Payload.get payload "data" <;> rfl
  simp [lexicalResultsFromRows, hidden, hscore, topK, ranked, formatResults, hdata, hitem]

theorem searchWithoutEmbedding_oneMemory (hconds : buildFilterConditions P filters = .ok conds)
    (hsel : selects P conds payload = true) (hshow : payload.Showable) :
    ∃ item : MemoryItem S, item.id = "m" ∧
      searchWithoutEmbedding (quietEngine P : Engine V S) (oneMemory payload) "中" filters 1 0 true =
        .ok [item] := by
  obtain ⟨item, hid, hitem⟩ := lexicalResults_oneMemory (V := V) (S := S) (P := P) hshow
  refine ⟨item, hid, ?_⟩
  have hlist := list_oneMemory (V := V) hconds hsel
  rw [searchWithoutEmbedding, show (quietEngine P : Engine V S).platform = P from rfl, hlist]
  exact hitem

theorem denseResults_oneMemory (hconds : buildFilterConditions P filters = .ok conds) (vector : V)
    (entities : Table V) :
    denseResults (quietEngine P : Engine V S) ⟨fun _ => some vector, fun _ => none⟩
      ⟨oneMemory payload, entities⟩ "中" vector filters 1 0 true = .ok [] := by
  have hselect : Table.select P filters ([] : List (Row V)) = .ok [] := by
    simp [Table.select, hconds, bind, Except.bind, pure, Except.pure]
  have hdense : (oneMemory payload : Table V).search P (fun _ _ => (0 : S)) vector (internalLimit 1)
      filters = .ok [] := by
    rw [Table.search, show ((oneMemory payload : Table V).rows.filter fun row => row.vector.isSome) = []
      from rfl, hselect]
    rfl
  rw [denseResults, show (quietEngine P : Engine V S).platform = P from rfl,
    show (quietEngine P : Engine V S).distance = fun _ _ => 0 from rfl, hdense]
  rfl

/-- A memory that a search with these effective filters selects is found. -/
theorem searchVectorStore_oneMemory [Inhabited V] {conds₀ : List Cond}
    (hbuild : buildFilterConditions P filters = .ok conds₀) (hconds : Answering P filters conds)
    (hsel : selects P conds payload = true) (hshow : payload.Showable) :
    ∃ (vector : Option V) (item : MemoryItem S), item.id = "m" ∧
      searchVectorStore (quietEngine P) ⟨fun _ => vector, fun _ => none⟩
        ⟨oneMemory payload, Table.empty⟩ "中" filters 1 0 true = .ok [item] := by
  rcases hconds with hconds | ⟨hpending, hconds⟩
  · obtain ⟨item, hid, hitem⟩ := searchWithoutEmbedding_oneMemory (V := V) (S := S) hconds hsel hshow
    exact ⟨none, item, hid, hitem⟩
  · obtain ⟨item, hid, hitem⟩ := searchWithoutEmbedding_oneMemory (V := V) (S := S) hconds hsel hshow
    refine ⟨some default, item, hid, ?_⟩
    have hscan : searchPendingEmbeddings (quietEngine P : Engine V S) (oneMemory payload) "中" filters 1 0
        true = .ok [item] := by
      rw [searchPendingEmbeddings, hpending, if_neg (by simp), if_pos (by decide), pendingScan, hitem]
    have hdense := @denseResults_oneMemory V S _ P payload filters conds₀ hbuild default Table.empty
    simp only [searchVectorStore, hdense, hscan, bind, Except.bind, pure, Except.pure]
    rw [mergeMemorySearchResults]
    simp [mergeItem, hid, topK, ranked]

end

/-- In an isolated project no memory of another project meets the filter. -/
theorem noForeignMatch_of_isolated [Inhabited V] {project : ProjectId} {body : SearchBody S}
    (h : Isolated V S project (body.projectFilters project)) :
    NoForeignMatch project (body.projectFilters project) := by
  rintro P effective conds payload ⟨validated, hv, he, htelemetry, conds₀, hbuild⟩ hconds hshow hsel
  obtain ⟨vector, item, hid, hitem⟩ := searchVectorStore_oneMemory (V := V) (S := S) hbuild hconds hsel hshow
  have hsearch : search (quietEngine P) ⟨fun _ => vector, fun _ => none⟩ none
      ⟨oneMemory payload, Table.empty⟩ (body.probe.request project 0) = .ok [item] := by
    have hvalid : validateSearch (body.probe.request project 0) = .ok "中" := by
      have hone : ¬(1 : S) < 0 := not_lt.mpr Score.zero_le_one
      have htop : ¬(1 : Int) < 0 := by decide
      have hstrip : strip "中" = "中" := by decide
      simp [validateSearch, SearchBody.request, SearchBody.probe, SearchBody.limit, hone, htop, hstrip]
    have hfilters : (body.probe.request project 0).filters = body.projectFilters project := rfl
    simp only [search, hvalid, hfilters, hv, he, htelemetry, bind, Except.bind]
    exact congrArg (· >>= _) hitem
  have hmem := h (oneMemoryWorld P vector payload) 0 body.probe [item] (by simp [oneMemoryWorld]) rfl
    (by rw [searchMemories, show (oneMemoryWorld P vector payload : SearchWorld V S).engine = quietEngine P
          from rfl]
        exact congrArg (· >>= _) hsearch)
    item List.mem_cons_self
  obtain ⟨row, hrow, hrowid, hproject⟩ := hmem
  rw [List.mem_singleton.mp hrow] at hproject
  exact hproject

/-! ## Isolation -/

/-- The searches with a filter stay in the caller's project exactly when no later branch of `AND`
replaces the project, or what replaces it admits no memory of another project. -/
theorem isolated_iff [Inhabited V] (project : ProjectId) (body : SearchBody S) :
    Isolated V S project (body.projectFilters project) ↔
      OwnProjectLast project (body.projectFilters project) ∨
        NoForeignMatch project (body.projectFilters project) := by
  constructor
  · exact fun h => .inr (noForeignMatch_of_isolated h)
  · rintro (hown | hforeign)
    · exact isolated_of_noForeignMatch fun hwf => noForeignMatch_of_own hwf hown
    · exact isolated_of_noForeignMatch fun _ => hforeign

/-- A client names its project before an `AND` that names another one. -/
def switchingBody : SearchBody ℚ where
  query := "q"
  userId := none
  runId := none
  agentId := none
  appId := none
  filters := some {
    entries := [("user_id", .str "u"), ("project_id", .str "mine"),
      ("AND", .list [.dict [("project_id", .str "other")]])]
    wf := by simp [Value.WF, Value.WFList, Value.WFEntries, Dict.Unique] }
  topK := none
  threshold := none
  rerank := none
  showExpired := none

def otherPayload : Payload :=
  [("user_id", .str "u"), ("project_id", .str "other"), ("data", .str "secret")]

/-- The search in the default project returns a memory of the other one. -/
theorem later_branch_leaks :
    ¬Isolated Unit ℚ ProjectId.default (switchingBody.projectFilters ProjectId.default) := by
  intro h
  have built : buildFilterConditions .ascii [("user_id", .str "u"), ("project_id", .str "other")] =
      .ok [.atom (.eq "user_id" "u"), .atom (.eq "project_id" "other")] := by
    simp [buildFilterConditions, buildEntry, buildField, Value.isStar, Value.pyStr]
  have accepted : Accepted .ascii (switchingBody.projectFilters ProjectId.default)
      [("user_id", .str "u"), ("project_id", .str "other")] := ⟨_, rfl, rfl, rfl, _, built⟩
  have foreign := noForeignMatch_of_isolated h .ascii _ _ otherPayload accepted (.inl built)
    ⟨rfl, _, rfl⟩ (by decide)
  rcases foreign with htext | hproject
  · revert htext
    decide
  · revert hproject
    decide

end YiQiao
