import YiQiao.Filter.Reading
import YiQiao.Memory.Entities
import YiQiao.Memory.Expiry
import YiQiao.Server.Project

/-!
# What a search reads of other projects

A search in a project selects memories of the project only. The records of entities have no project: those that the
user, the agent and the run of the search select link memories of any project, and a match among them changes the scores.
-/

namespace YiQiao

open Lib Filters

variable {V S : Type}

/-! ## Two stores -/

def Row.inProject (P : Platform) (project : ProjectId) (row : Row V) : Bool :=
  row.payload.text P "project_id" == some project.text

/-- The tables have the same memories of the project. -/
def SameProject (P : Platform) (project : ProjectId) (t t' : Table V) : Prop :=
  t.rows.filter (Row.inProject P project) = t'.rows.filter (Row.inProject P project)

/-- The links of the entity records to memories of the project. -/
def Stores.projectLinks (P : Platform) (project : ProjectId) (stores : Stores V) : List (String × List String) :=
  let memories := (stores.memories.rows.filter (Row.inProject P project)).map Row.id
  stores.entities.rows.filterMap fun row =>
    let linked := (((linkedIds row.payload).getD []).map (Value.pyStr P)).filter (· ∈ memories)
    if linked.isEmpty then none else some (row.id, linked)

/-- The search is one in the project, and its statements do not fail on the table. -/
structure SearchesProject (P : Platform) (project : ProjectId) (filters : Entries) (t : Table V) : Prop where
  filtered : filters.lookup "project_id" = some (.str project.text)
  castable : ∀ row ∈ t.rows, CastSafe P filters row.payload
  pendingCastable : ∀ row ∈ t.rows, CastSafe P (pendingFilters filters) row.payload

/-! ## What the statements select -/

section

variable {P : Platform} {project : ProjectId} {filters : Entries} {t t' : Table V}

/-- A statement over the project needs only its rows. -/
theorem select_inProject (hfiltered : filters.lookup "project_id" = some (.str project.text)) {rows : List (Row V)}
    (hcast : ∀ row ∈ rows, CastSafe P filters row.payload) :
    Table.select P filters (rows.filter (Row.inProject P project)) = Table.select P filters rows := by
  rw [select_filter fun row hrow _ => hcast row hrow]
  cases hselect : Table.select P filters rows with
  | error e => rfl
  | ok out =>
    have hall : out.filter (Row.inProject P project) = out := by
      apply List.filter_eq_self.mpr
      intro row hrow
      obtain ⟨-, conds, hconds, hsel⟩ := Table.mem_select hselect hrow
      have htext := text_of_selects hconds (by decide) project.text_ne_star hfiltered hsel
      simp [Row.inProject, htext]
    rw [Except.map, hall]

theorem select_same (hfiltered : filters.lookup "project_id" = some (.str project.text))
    (hcast : ∀ row ∈ t.rows, CastSafe P filters row.payload) (hcast' : ∀ row ∈ t'.rows, CastSafe P filters row.payload)
    (h : SameProject P project t t') (q : Row V → Bool) :
    Table.select P filters (t.rows.filter q) = Table.select P filters (t'.rows.filter q) := by
  rw [← select_inProject hfiltered fun row hrow => hcast row (List.mem_of_mem_filter hrow),
    ← select_inProject hfiltered fun row hrow => hcast' row (List.mem_of_mem_filter hrow),
    List.filter_comm, h, List.filter_comm]

theorem list_same (hfiltered : filters.lookup "project_id" = some (.str project.text))
    (hcast : ∀ row ∈ t.rows, CastSafe P filters row.payload) (hcast' : ∀ row ∈ t'.rows, CastSafe P filters row.payload)
    (h : SameProject P project t t') (limit : Nat) : t.list P filters limit = t'.list P filters limit := by
  have hselect := select_same hfiltered hcast hcast' h fun _ => true
  simp only [List.filter_true] at hselect
  rw [Table.list, Table.list, hselect]

variable [Score S]

theorem search_same (hfiltered : filters.lookup "project_id" = some (.str project.text))
    (hcast : ∀ row ∈ t.rows, CastSafe P filters row.payload) (hcast' : ∀ row ∈ t'.rows, CastSafe P filters row.payload)
    (h : SameProject P project t t') (distance : V → V → S) (vector : V) (limit : Nat) :
    t.search P distance vector limit filters = t'.search P distance vector limit filters := by
  rw [Table.search, Table.search, select_same hfiltered hcast hcast' h]

theorem keywordSearch_same (hfiltered : filters.lookup "project_id" = some (.str project.text))
    (hcast : ∀ row ∈ t.rows, CastSafe P filters row.payload) (hcast' : ∀ row ∈ t'.rows, CastSafe P filters row.payload)
    (h : SameProject P project t t') (textRank : String → String → Option S) (query : String) (limit : Nat) :
    t.keywordSearch P textRank query limit filters = t'.keywordSearch P textRank query limit filters := by
  rw [Table.keywordSearch, Table.keywordSearch, select_same hfiltered hcast hcast' h]

end

/-! ## What the entity records add -/

variable [Score S]

section

variable (E : Engine V S) (embedder : Embedder V)

/-- The vectors that the entity records are searched with. -/
def entityVectors (query : String) : List V :=
  let texts := dedupEntities E (E.extractEntities query)
  match embedder.embedBatch texts with
  | none => []
  | some vectors => if texts.isEmpty || vectors.length != texts.length then [] else vectors

/-- The similarity and the links of a record, if it matches. -/
def linkedMatch (hit : Hit V S) : Option (S × List Value) :=
  if hit.score < E.entityThreshold then none else (linkedIds hit.row.payload).map fun ids => (hit.score, ids)

/-- The records that match a vector. -/
def matchedLinks (entities : Table V) (filters : Entries) (vector : V) : List (S × List Value) :=
  match entities.search E.platform E.distance vector 500 (sessionFilters filters) with
  | .ok hits => hits.filterMap (linkedMatch E)
  | .error _ => []

/-- The boosts of one matched record. -/
def boostLinks (boosts : List (String × S)) (m : S × List Value) : List (String × S) :=
  ((m.2.filter Value.truthy).map (Value.pyStr E.platform)).foldl
    (addBoost (m.1 * E.entityBoostWeight * E.memoryCountWeight (max m.2.length 1))) boosts

end

section

variable {E : Engine V S} {embedder : Embedder V} {query : String} {filters : Entries} {entities : Table V}

theorem boostMatch_eq (boosts : List (String × S)) (hit : Hit V S) :
    boostMatch E boosts hit = ((linkedMatch E hit).map (boostLinks E boosts)).getD boosts := by
  rw [boostMatch, linkedMatch, linkedIds]
  by_cases hlow : hit.score < E.entityThreshold
  · simp [hlow]
  · rw [if_neg hlow, if_neg hlow]
    cases hit.row.payload.lookup "linked_memory_ids" with
    | none => rfl
    | some linked => cases linked with
      | list ids => rfl
      | _ => rfl

theorem foldl_boostMatch (hits : List (Hit V S)) (boosts : List (String × S)) :
    hits.foldl (boostMatch E) boosts = (hits.filterMap (linkedMatch E)).foldl (boostLinks E) boosts := by
  induction hits generalizing boosts with
  | nil => rfl
  | cons hit hits ih =>
    rw [List.foldl_cons, List.filterMap_cons, boostMatch_eq, ih]
    cases linkedMatch E hit with
    | none => rfl
    | some m => rfl

theorem computeEntityBoosts_eq : computeEntityBoosts E embedder entities (E.extractEntities query) filters =
    (entityVectors E embedder query).foldl
      (fun boosts vector => (matchedLinks E entities filters vector).foldl (boostLinks E) boosts) [] := by
  rw [computeEntityBoosts, entityVectors]
  cases embedder.embedBatch (dedupEntities E (E.extractEntities query)) with
  | none => rfl
  | some vectors =>
    simp only
    split
    · rfl
    · congr 1
      funext boosts vector
      rw [matchedLinks]
      cases entities.search E.platform E.distance vector 500 (sessionFilters filters) with
      | error e => rfl
      | ok hits => exact foldl_boostMatch hits boosts

end

/-! ## The same results -/

/-- The records that match the query link the same memories in both stores. -/
def SameMatches (E : Engine V S) (embedder : Embedder V) (query : String) (filters : Entries)
    (entities entities' : Table V) : Prop :=
  ∀ vector ∈ entityVectors E embedder query, matchedLinks E entities filters vector = matchedLinks E entities' filters vector

section

variable {E : Engine V S} {embedder : Embedder V} {project : ProjectId} {query : String} {filters : Entries}
  {stores stores' : Stores V} {limit : Nat} {threshold : S} {showExpired : Bool}

theorem computeEntityBoosts_same {entities entities' : Table V}
    (h : SameMatches E embedder query filters entities entities') :
    computeEntityBoosts E embedder entities (E.extractEntities query) filters =
      computeEntityBoosts E embedder entities' (E.extractEntities query) filters := by
  rw [computeEntityBoosts_eq, computeEntityBoosts_eq]
  apply List.foldl_ext
  intro boosts vector hvector
  rw [h vector hvector]

theorem searchWithoutEmbedding_same {t t' : Table V}
    (hlist : ∀ limit, t.list E.platform filters limit = t'.list E.platform filters limit) :
    searchWithoutEmbedding E t query filters limit threshold showExpired =
      searchWithoutEmbedding E t' query filters limit threshold showExpired := by
  rw [searchWithoutEmbedding, searchWithoutEmbedding, hlist]

theorem searchVectorStore_same (hsame : SameProject E.platform project stores.memories stores'.memories)
    (h : SearchesProject E.platform project filters stores.memories)
    (h' : SearchesProject E.platform project filters stores'.memories)
    (hmatches : (embedder.embed query).isSome = true →
      SameMatches E embedder query filters stores.entities stores'.entities) :
    searchVectorStore E embedder stores query filters limit threshold showExpired =
      searchVectorStore E embedder stores' query filters limit threshold showExpired := by
  have hlist := list_same h.filtered h.castable h'.castable hsame
  have hpending : (pendingFilters filters).lookup "project_id" = some (.str project.text) := by
    rw [pendingFilters, Dict.lookup_set_of_ne (by decide), h.filtered]
  have hpendingList := list_same hpending h.pendingCastable h'.pendingCastable hsame
  rw [searchVectorStore, searchVectorStore]
  cases hembed : embedder.embed query with
  | none => exact searchWithoutEmbedding_same hlist
  | some vector =>
    have hdense : denseResults E embedder stores query vector filters limit threshold showExpired =
        denseResults E embedder stores' query vector filters limit threshold showExpired := by
      rw [denseResults, denseResults, search_same h.filtered h.castable h'.castable hsame,
        keywordSearch_same h.filtered h.castable h'.castable hsame, computeEntityBoosts_same (hmatches (by rw [hembed]; rfl))]
    have hwaiting : searchPendingEmbeddings E stores.memories query filters limit threshold showExpired =
        searchPendingEmbeddings E stores'.memories query filters limit threshold showExpired := by
      rw [searchPendingEmbeddings, searchPendingEmbeddings, pendingScan, pendingScan,
        searchWithoutEmbedding_same hpendingList, keywordSearch_same hpending h.pendingCastable h'.pendingCastable hsame]
    simp only [hdense, hwaiting]

end

def teaEngine : Engine Unit ℚ :=
  { matchingEngine with
    textRank := fun _ _ => none
    extractEntities := fun _ => [("PROPER", "tea")]
    entityBoostWeight := 1 / 2
    entityThreshold := 1 / 2
    memoryCountWeight := fun n => 1 / (1 + (n - 1) ^ 2 / 1000) }

def teaEmbedder : Embedder Unit := ⟨fun _ => some (), fun texts => some (texts.map fun _ => ())⟩

def ownMemory : Row Unit :=
  ⟨"a", some (), [("user_id", .str "u"), ("project_id", .str "default-project"), ("data", .str "x")]⟩

def foreignMemory : Row Unit := ⟨"b", some (), [("user_id", .str "u"), ("project_id", .str "q"), ("data", .str "tea")]⟩

def teaEntity : Row Unit :=
  ⟨"e", some (), [("data", .str "tea"), ("entity_type", .str "PROPER"), ("linked_memory_ids", .list [.str "b"]),
    ("user_id", .str "u")]⟩

/-- The store without the other project, with its memory, and with its entity too. -/
def ownStores : Stores Unit := ⟨⟨[ownMemory], by simp, by simp [ownMemory]⟩, Table.empty⟩

def neighbourStores : Stores Unit :=
  ⟨⟨[ownMemory, foreignMemory], by simp [ownMemory, foreignMemory], by simp [ownMemory, foreignMemory]⟩, Table.empty⟩

def sharedStores : Stores Unit :=
  { neighbourStores with entities := ⟨[teaEntity], by simp, by simp [teaEntity]⟩ }

def ownIds : List (String × String) := [("user_id", "u"), ("project_id", "default-project")]

def teaRequest : SearchRequest ℚ := ⟨"tea", idFilters ownIds, 10, 0, false, false⟩

theorem ownIds_keys : ∀ e ∈ ownIds, e.1 ≠ "$or" ∧ e.1 ≠ "$not" := by decide

theorem searchesProject_own (t : Table Unit) : SearchesProject .ascii .default (idFilters ownIds) t where
  filtered := rfl
  castable := by
    intro row _ conds hconds
    rw [buildFilterConditions_ids .ascii ownIds_keys] at hconds
    cases hconds
    rfl
  pendingCastable := by
    intro row _ conds hconds
    rw [show pendingFilters (idFilters ownIds) = idFilters (ownIds ++ [("embedding_status", "pending")]) from rfl,
      buildFilterConditions_ids .ascii (by decide)] at hconds
    cases hconds
    rfl

theorem sameProject_own : SameProject .ascii .default ownStores.memories neighbourStores.memories := by
  with_unfolding_all rfl

def teaBoosts (entities : Table Unit) : List (String × ℚ) :=
  computeEntityBoosts teaEngine teaEmbedder entities (teaEngine.extractEntities "tea") (idFilters ownIds)

theorem sessionFilters_own : sessionFilters (idFilters ownIds) = idFilters [("user_id", "u")] := by
  with_unfolding_all rfl

theorem matchedLinks_shared : matchedLinks teaEngine sharedStores.entities (idFilters ownIds) () = [(1, [.str "b"])] := by
  have hsearch : sharedStores.entities.search teaEngine.platform teaEngine.distance () 500
      (idFilters [("user_id", "u")]) = .ok [⟨teaEntity, 1⟩] := by
    rw [Table.search, select_ids (by decide)]
    with_unfolding_all rfl
  rw [matchedLinks, sessionFilters_own, hsearch]
  have hmatch : linkedMatch teaEngine ⟨teaEntity, 1⟩ = some (1, [.str "b"]) := by
    have hnear : ¬ (1 : ℚ) < teaEngine.entityThreshold := by norm_num [teaEngine]
    rw [linkedMatch, if_neg hnear]
    rfl
  simp [hmatch]

theorem teaBoosts_eq (entities : Table Unit) :
    teaBoosts entities = (matchedLinks teaEngine entities (idFilters ownIds) ()).foldl (boostLinks teaEngine) [] := by
  have hvectors : entityVectors teaEngine teaEmbedder "tea" = [()] := by with_unfolding_all rfl
  rw [teaBoosts, computeEntityBoosts_eq, hvectors]
  rfl

theorem teaBoosts_shared : teaBoosts sharedStores.entities = [("b", 1 / 2)] := by
  rw [teaBoosts_eq, matchedLinks_shared]
  with_unfolding_all rfl

theorem denseResults_tea (stores : Stores Unit)
    (h : stores.memories.rows.filter (Row.inProject .ascii .default) = [ownMemory]) :
    denseResults teaEngine teaEmbedder stores "tea" () (idFilters ownIds) 10 0 false =
      formatResults (scoreAndRank teaEngine [⟨ownMemory, 1⟩] [] (teaBoosts stores.entities) 0 10) := by
  have hsame : SameProject .ascii .default stores.memories ownStores.memories := h
  have hown := searchesProject_own stores.memories
  have hown' := searchesProject_own ownStores.memories
  have hsearch : stores.memories.search teaEngine.platform teaEngine.distance () (internalLimit 10) (idFilters ownIds) =
      .ok [⟨ownMemory, 1⟩] := by
    change stores.memories.search .ascii teaEngine.distance () 60 (idFilters ownIds) = _
    rw [search_same hown.filtered hown.castable hown'.castable hsame, Table.search, select_ids ownIds_keys]
    with_unfolding_all rfl
  have hkeyword : stores.memories.keywordSearch teaEngine.platform teaEngine.textRank (teaEngine.lemmatize "tea")
      (internalLimit 10) (idFilters ownIds) = some [] := by
    change stores.memories.keywordSearch .ascii teaEngine.textRank "tea" 60 (idFilters ownIds) = _
    rw [keywordSearch_same hown.filtered hown.castable hown'.castable hsame, Table.keywordSearch, select_ids ownIds_keys]
    with_unfolding_all rfl
  rw [denseResults, hsearch, hkeyword]
  rfl


theorem searchPendingEmbeddings_tea (stores : Stores Unit) :
    searchPendingEmbeddings teaEngine stores.memories "tea" (idFilters ownIds) 10 0 false = .ok [] := by
  have hkeyword : stores.memories.keywordSearch teaEngine.platform teaEngine.textRank (teaEngine.lemmatize "tea")
      (internalLimit 10) (pendingFilters (idFilters ownIds)) = some [] := by
    have hnone : (stores.memories.rows.filter fun row =>
        (Table.textMatch teaEngine.platform teaEngine.textRank (teaEngine.lemmatize "tea") row).isSome) = [] := by
      rw [List.filter_eq_nil_iff]
      intro row _
      simp [Table.textMatch, teaEngine]
    rw [Table.keywordSearch, hnone,
      show pendingFilters (idFilters ownIds) = idFilters (ownIds ++ [("embedding_status", "pending")]) from rfl,
      select_ids (by decide)]
    rfl
  have hexcl : excludesPending (idFilters ownIds) = false := rfl
  have hcjk : hasCjkRun "tea" = false := by decide
  simp only [searchPendingEmbeddings, hexcl, hcjk, Bool.false_eq_true, if_false, hkeyword]
  rfl

theorem search_tea (stores : Stores Unit) (score : ℚ)
    (h : stores.memories.rows.filter (Row.inProject .ascii .default) = [ownMemory])
    (hscore : combinedScore teaEngine [] (teaBoosts stores.entities) ⟨ownMemory, 1⟩ = score) :
    (search teaEngine teaEmbedder none stores teaRequest).map (List.map fun item => (item.id, item.score)) =
      .ok [("a", score)] := by
  have hvalidate : validateSearch teaRequest = .ok "tea" := by
    norm_num [validateSearch, teaRequest]
    decide
  have hvector : searchVectorStore teaEngine teaEmbedder stores "tea" (idFilters ownIds) 10 0 false =
      (do
        let primary ← denseResults teaEngine teaEmbedder stores "tea" () (idFilters ownIds) 10 0 false
        let pending ← searchPendingEmbeddings teaEngine stores.memories "tea" (idFilters ownIds) 10 0 false
        pure (mergeMemorySearchResults primary pending 10)) := rfl
  rw [denseResults_tea stores h, searchPendingEmbeddings_tea] at hvector
  have hrank : scoreAndRank teaEngine [⟨ownMemory, 1⟩] [] (teaBoosts stores.entities) 0 10 = [⟨ownMemory, score⟩] := by
    rw [← hscore]
    rfl
  rw [hrank] at hvector
  unfold search
  rw [hvalidate]
  change Except.map _ (do
    let original ← searchVectorStore teaEngine teaEmbedder stores "tea" (idFilters ownIds) 10 0 false
    pure (applyReranker none false "tea" 10 original)) = _
  rw [hvector]
  rfl

end YiQiao
