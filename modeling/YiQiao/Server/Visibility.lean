import YiQiao.Server.Isolation
import YiQiao.Store.IdFilters

/-!
# What the search endpoint shows

Memories found by the vector search satisfy the filters of the request and its expiration rule. The
graph reads only the top-level identifiers, so the memories it appends satisfy them exactly when
the graph agrees with the store.
-/

namespace YiQiao

open Lib Filters Fallible

variable {V S : Type} [Score S]

/-! ## The property and its condition -/

/-- The compiled filter admits the payload. -/
def Satisfies (P : Platform) (filters : Entries) (payload : Payload) : Prop :=
  ∃ conds, compile P filters = .ok conds ∧ selects P conds payload = true

/-- Every memory of the response satisfies the filters and is not hidden; at most `limit` distinct
memories are in it. -/
structure Visible (W : SearchWorld V S) (project : ProjectId) (body : SearchBody S)
    (items : List (MemoryItem S)) : Prop where
  satisfies : ∀ item ∈ items, ∃ row ∈ W.stores.memories.rows, row.id = item.id ∧
    Satisfies W.engine.platform (body.projectFilters project) row.payload ∧
    hidden W.engine (body.showExpired.getD false) row.payload = false
  nodup : (items.map MemoryItem.id).Nodup
  length : items.length ≤ body.limit.toNat

/-- The memories the graph relates to a request. -/
def SearchWorld.related (W : SearchWorld V S) (project : ProjectId) (body : SearchBody S) :
    List (Related S) :=
  relatedMemories W.tools W.graph body.query project (body.projectFilters project)
    (max body.limit.toNat 10)

/-- Each related memory that can be appended satisfies the filters and is not hidden. -/
def GraphAgrees (W : SearchWorld V S) (project : ProjectId) (body : SearchBody S) : Prop :=
  ∀ r ∈ W.related project body, ∀ row ∈ W.stores.memories.rows, row.id = r.id →
    (appendedItem W.engine.platform W.stores.memories project r).isSome →
    Satisfies W.engine.platform (body.projectFilters project) row.payload ∧
      hidden W.engine (body.showExpired.getD false) row.payload = false

/-- The filter does not ask for a null embedding status. -/
def NoNullStatus (filters : Entries) : Prop :=
  ⟨"embedding_status", none, .null⟩ ∉ lastWord (conjuncts filters)

/-! ## Pending results satisfy the filters -/

/-- A filter that does not exclude pending records loses nothing when it asks for them. -/
theorem selects_of_pending {P : Platform} {effective : Entries} {conds : List Cond} {payload : Payload}
    (hnull : effective.lookup "embedding_status" ≠ some .null)
    (hpending : excludesPending effective = false)
    (hconds : buildFilterConditions P (pendingFilters effective) = .ok conds)
    (hsel : selects P conds payload = true) :
    ∃ conds', buildFilterConditions P effective = .ok conds' ∧ selects P conds' payload = true := by
  unfold excludesPending at hpending
  split at hpending
  · rename_i hnone
    rw [pendingFilters, Dict.set_of_notMem (Dict.lookup_eq_none_iff_keys.mp hnone)] at hconds
    obtain ⟨cd, ce, hd, _, rfl⟩ := buildFilterConditions_append hconds
    exact ⟨cd, hd, selects_of_subset (fun c hc => List.mem_append_left _ hc) hsel⟩
  · rename_i h
    exact absurd h hnull
  · rename_i s hs
    have hpend : s = "pending" := by simpa using hpending
    have hset : pendingFilters effective = effective := Dict.set_of_lookup (hpend ▸ hs)
    exact ⟨conds, hset ▸ hconds, hsel⟩
  · cases hpending

theorem compile_of_accepted {P : Platform} {filters effective : Entries} {conds : List Cond}
    (h : Accepted P filters effective) (hconds : buildFilterConditions P effective = .ok conds) :
    compile P filters = .ok conds := by
  obtain ⟨validated, hv, he, ht, _⟩ := h
  simp only [compile, hv, he, ht, hconds, bind, Except.bind]

/-- A filter without a null status has no effective one. -/
theorem effective_status_ne_null {P : Platform} {filters effective : Entries}
    (hwf : (Value.dict filters).WF) (h : Accepted P filters effective) (hnull : NoNullStatus filters) :
    effective.lookup "embedding_status" ≠ some .null := by
  obtain ⟨validated, hv, he, _⟩ := h
  intro hlookup
  have hvalid := validateFilters_validated hv hwf
  have hmem := ((effectiveFilters_tracks he hvalid).denotes ⟨"embedding_status", none, .null⟩
    ⟨by simp, by simp⟩).mp ⟨.null, hlookup, List.mem_singleton.mpr rfl⟩
  exact hnull ((validateFilters_lastWord hv (by simp [scopeIds])).mp hmem)

/-! ## The vector results -/

omit [Score S] in
/-- Every result of the vector search comes from a row that satisfies the filters. -/
theorem answers_satisfy {E : Engine V S} {t : Table V} {filters effective : Entries}
    {showExpired : Bool} {limit : Nat} {items : List (MemoryItem S)} (hwf : (Value.dict filters).WF)
    (accepted : Accepted E.platform filters effective) (hnull : NoNullStatus filters)
    (h : Answers E t effective showExpired limit items) {item : MemoryItem S} (hitem : item ∈ items) :
    ∃ row ∈ t.rows, row.id = item.id ∧ Satisfies E.platform filters row.payload ∧
      hidden E showExpired row.payload = false := by
  rcases h.shows item hitem with hshow | ⟨hpending, hshow⟩
  · obtain ⟨row, ⟨hrow, conds, hconds, hsel⟩, hvisible, _, hid⟩ := hshow
    exact ⟨row, hrow, hid, ⟨conds, compile_of_accepted accepted hconds, hsel⟩, hvisible⟩
  · obtain ⟨row, ⟨hrow, conds, hconds, hsel⟩, hvisible, _, hid⟩ := hshow
    obtain ⟨conds', hconds', hsel'⟩ := selects_of_pending
      (effective_status_ne_null hwf accepted hnull) hpending hconds hsel
    exact ⟨row, hrow, hid, ⟨conds', compile_of_accepted accepted hconds', hsel'⟩, hvisible⟩

omit [Score S] in
theorem answers_length_le {E : Engine V S} {t : Table V} {effective : Entries} {showExpired : Bool}
    {limit : Nat} {items : List (MemoryItem S)} (h : Answers E t effective showExpired limit items) :
    items.length ≤ t.rows.length := by
  have hsub : items.map MemoryItem.id ⊆ t.rows.map Row.id := by
    intro id hid
    obtain ⟨item, hitem, rfl⟩ := List.mem_map.mp hid
    obtain ⟨row, hrow, hrowid, _⟩ := answering_of_answers h hitem
    exact List.mem_map.mpr ⟨row, hrow, hrowid⟩
  simpa using (List.subperm_of_subset h.nodup hsub).length_le

/-! ## The graph results -/

section

variable {P : Platform} {memories : Table V} {project : ProjectId} {known : List String}
  {results : List (MemoryItem S)} {r : Related S}

theorem length_addGraphResult_le :
    (addGraphResult P memories project known results r).length ≤ results.length + 1 := by
  unfold addGraphResult
  split
  · exact Nat.le_succ _
  · split
    · rw [List.length_map]
      exact Nat.le_succ _
    · split
      · rw [List.length_append, List.length_singleton]
      · exact Nat.le_succ _

/-- An appended memory is in the results, and no result leaves them. -/
theorem ids_addGraphResult {id : String} (h : id ∈ results.map MemoryItem.id ∨
    (id = r.id ∧ id ∉ known ∧ (appendedItem P memories project r).isSome)) :
    id ∈ (addGraphResult P memories project known results r).map MemoryItem.id := by
  unfold addGraphResult
  have named : (appendedItem P memories project r).isSome → r.id ≠ "" := by
    intro hsome
    obtain ⟨item, hitem⟩ := Option.isSome_iff_exists.mp hsome
    obtain ⟨_, row, hrow, hid, _⟩ := appendedItem_spec hitem
    exact hid ▸ memories.named row hrow
  split
  · rename_i hempty
    rcases h with h | ⟨_, _, hsome⟩
    · exact h
    · exact absurd hempty (named hsome)
  · split
    · rename_i hknown
      rcases h with h | ⟨rfl, hn, _⟩
      · rw [List.map_map]
        simpa only [Function.comp_def, boostItem_id] using h
      · exact absurd hknown hn
    · split
      · rename_i item hitem
        rw [List.map_append, List.mem_append, List.map_singleton, List.mem_singleton]
        rcases h with h | ⟨rfl, _, _⟩
        · exact .inl h
        · exact .inr (appendedItem_spec hitem).1.symm
      · rename_i hnone
        rcases h with h | ⟨_, _, hsome⟩
        · exact h
        · simp [hnone] at hsome

theorem foldl_addGraphResult_complete {related : List (Related S)} :
    (related.foldl (addGraphResult P memories project known) results).length ≤
        results.length + related.length ∧
      ∀ id, (id ∈ results.map MemoryItem.id ∨ ∃ r ∈ related, id = r.id ∧ id ∉ known ∧
          (appendedItem P memories project r).isSome) →
        id ∈ (related.foldl (addGraphResult P memories project known) results).map MemoryItem.id := by
  induction related generalizing results with
  | nil => exact ⟨le_rfl, fun id h => h.elim (·) fun ⟨_, h, _⟩ => nomatch h⟩
  | cons r related ih =>
      obtain ⟨hlen, hids⟩ := @ih (addGraphResult P memories project known results r)
      refine ⟨hlen.trans ?_, fun id h => hids id ?_⟩
      · have hstep := @length_addGraphResult_le V S _ P memories project known results r
        rw [List.length_cons]
        omega
      · rcases h with h | ⟨r', hr', hid⟩
        · exact .inl (ids_addGraphResult (.inl h))
        · rcases List.mem_cons.mp hr' with rfl | hr'
          · exact .inl (ids_addGraphResult (.inr hid))
          · exact .inr ⟨r', hr', hid⟩

end

/-! ## The response -/

variable {W : SearchWorld V S} {project : ProjectId} {body : SearchBody S} {threshold : S}
  {items : List (MemoryItem S)}

theorem visible_of_agrees (h : searchMemories W project threshold body = .ok items)
    (hr : ∀ r ∈ W.reranker, r.Faithful) (hnull : NoNullStatus (body.projectFilters project))
    (hagrees : GraphAgrees W project body) : Visible W project body items := by
  simp only [searchMemories, bind_ok, pure_ok] at h
  obtain ⟨response, hresponse, rfl⟩ := h
  obtain ⟨effective, accepted, answers⟩ := search_answers hresponse hr
  have hrelated := relatedMemories_nodup W.tools W.graph body.query project
    (body.projectFilters project) (max body.limit.toNat 10)
  obtain ⟨extended, hlength⟩ := @addGraphResults_spec V S _ W.engine.platform W.stores.memories project
    _ _ _ answers.nodup hrelated answers.length
  refine ⟨fun item hitem => ?_, extended.nodup, hlength⟩
  rcases extended.source item hitem with hmem | ⟨_, r, hrel, happ⟩
  · obtain ⟨found, hfound, hid⟩ := List.mem_map.mp hmem
    obtain ⟨row, hrow, hrowid, hsat⟩ :=
      answers_satisfy (projectFilters_wf body project) accepted hnull answers hfound
    exact ⟨row, hrow, hrowid.trans hid, hsat⟩
  · obtain ⟨hid, row, hrow, hrowid, _⟩ := appendedItem_spec happ
    exact ⟨row, hrow, hrowid.trans hid.symm, hagrees r hrel row hrow hrowid (by rw [happ]; rfl)⟩

/-- Where nothing is cut off, every memory that can be appended is shown. -/
theorem agrees_of_visible (h : searchMemories W project threshold body = .ok items)
    (hr : ∀ r ∈ W.reranker, r.Faithful)
    (hroom : W.stores.memories.rows.length + (W.related project body).length ≤ body.limit.toNat)
    (hvisible : Visible W project body items) : GraphAgrees W project body := by
  intro r hrel row hrow hrowid hsome
  simp only [searchMemories, bind_ok, pure_ok] at h
  obtain ⟨response, hresponse, rfl⟩ := h
  obtain ⟨effective, accepted, answers⟩ := search_answers hresponse hr
  have hmem : r.id ∈ (addGraphResults W.engine.platform W.stores.memories project
      (W.related project body) body.limit.toNat response).map MemoryItem.id := by
    have hne : (W.related project body).isEmpty = false := by
      cases hrels : W.related project body with
      | nil => rw [hrels] at hrel; cases hrel
      | cons _ _ => rfl
    obtain ⟨hlen, hids⟩ := @foldl_addGraphResult_complete V S _ W.engine.platform W.stores.memories
      project (response.map MemoryItem.id) response (W.related project body)
    rw [addGraphResults, hne, if_neg (by simp), topK_of_length_le
      (hlen.trans ((Nat.add_le_add_right (answers_length_le answers) _).trans hroom))]
    rw [((ranked_perm _).map _).mem_iff]
    refine hids r.id ?_
    by_cases hknown : r.id ∈ response.map MemoryItem.id
    · exact .inl hknown
    · exact .inr ⟨r, hrel, rfl, hknown, hsome⟩
  obtain ⟨item, hitem, hid⟩ := List.mem_map.mp hmem
  obtain ⟨row', hrow', hrowid', hsat⟩ := hvisible.satisfies item hitem
  have hsame : row' = row := List.inj_on_of_nodup_map W.stores.memories.unique hrow' hrow
    (hrowid'.trans (hid.trans hrowid.symm))
  exact hsame ▸ hsat

/-- The user is named under `AND`, where the graph does not look. -/
def nestedUserBody : SearchBody ℚ where
  query := "acme"
  userId := none
  runId := none
  agentId := none
  appId := none
  filters := some {
    entries := [("agent_id", .str "a"), ("AND", .list [.dict [("user_id", .str "u")]])]
    wf := by simp [Value.WF, Value.WFList, Value.WFEntries, Dict.Unique] }
  topK := none
  threshold := some 1
  rerank := none
  showExpired := none

def userPayload (user : String) : Payload :=
  [("user_id", .str user), ("agent_id", .str "a"), ("project_id", .str "default-project"),
    ("data", .str "secret")]

/-- One memory of the user in the store, and the same memory in the graph. -/
def graphWorld (user : String) : SearchWorld Unit ℚ :=
  { oneMemoryWorld .ascii none (userPayload user) with
    tools := ⟨fun query => [query], fun _ _ => 1⟩
    graph := some {
      memories := [⟨"m", "secret", "default-project", [("user_id", user), ("agent_id", "a")],
        [⟨"Acme", "acme", "default-project", true⟩], 0⟩]
      unique := List.nodup_singleton _ } }

def nestedUserConds : List Cond :=
  [.atom (.eq "agent_id" "a"), .atom (.eq "project_id" "default-project"), .atom (.eq "user_id" "u")]

theorem build_nestedUser : buildFilterConditions .ascii [("agent_id", .str "a"),
    ("project_id", .str "default-project"), ("user_id", .str "u")] = .ok nestedUserConds := by
  simp [buildFilterConditions, buildEntry, buildField, Value.isStar, Value.pyStr, nestedUserConds]

theorem satisfies_nestedUser {payload : Payload} :
    Satisfies .ascii (nestedUserBody.projectFilters .default) payload ↔
      selects .ascii nestedUserConds payload = true := by
  have compiled : compile .ascii (nestedUserBody.projectFilters .default) = .ok nestedUserConds :=
    build_nestedUser
  constructor
  · rintro ⟨conds, hconds, hsel⟩
    rw [compiled] at hconds
    cases hconds
    exact hsel
  · exact fun h => ⟨_, compiled, h⟩

/-- The vector search finds nothing whose score reaches the threshold. -/
theorem searchMemories_graphWorld (user : String) :
    ∃ items, searchMemories (graphWorld user) .default 0 nestedUserBody = .ok items := by
  have hlexical : ∀ rows, lexicalResultsFromRows (quietEngine .ascii : Engine Unit ℚ) rows "acme" 10 1
      false = .ok [] := by
    intro rows
    have hnone : ∀ hit ∈ ((rows.filter fun row => !hidden (quietEngine .ascii : Engine Unit ℚ) false
        row.payload).map fun row => (⟨row, lexicalTextScore (quietEngine .ascii : Engine Unit ℚ) "acme"
          (Payload.get row.payload "data")⟩ : Hit Unit ℚ)), ¬max (1 : ℚ) 0 ≤ hit.score := by
      intro hit hhit
      obtain ⟨row, _, rfl⟩ := List.mem_map.mp hhit
      have hscore : lexicalTextScore (quietEngine .ascii : Engine Unit ℚ) "acme"
          (Payload.get row.payload "data") = 0 := by
        cases Payload.get row.payload "data" <;> rfl
      show ¬max (1 : ℚ) 0 ≤ lexicalTextScore _ _ _
      rw [hscore]
      decide
    rw [lexicalResultsFromRows, List.filter_eq_nil_iff.mpr (by simpa using hnone)]
    rfl
  have hlist : ∃ rows, (graphWorld user).stores.memories.list .ascii [("agent_id", .str "a"),
      ("project_id", .str "default-project"), ("user_id", .str "u")] lexicalFallbackScanLimit = .ok rows := by
    simp only [Table.list, Table.select, build_nestedUser]
    exact ⟨_, rfl⟩
  obtain ⟨rows, hrows⟩ := hlist
  have hsearch : search (graphWorld user).engine (graphWorld user).embedder (graphWorld user).reranker
      (graphWorld user).stores (nestedUserBody.request .default 0) = .ok [] := by
    have hvalid : validateSearch (nestedUserBody.request .default 0) = .ok "acme" := rfl
    have hscan : searchWithoutEmbedding (graphWorld user).engine (graphWorld user).stores.memories "acme"
        [("agent_id", .str "a"), ("project_id", .str "default-project"), ("user_id", .str "u")] 10
        1 false = .ok [] := by
      rw [searchWithoutEmbedding, show (graphWorld user).engine = quietEngine .ascii from rfl]
      exact (congrArg (· >>= _) hrows).trans (hlexical rows)
    rw [search, hvalid]
    exact congrArg (· >>= _) hscan
  exact ⟨_, congrArg (· >>= _) hsearch⟩

theorem related_graphWorld (user : String) :
    (graphWorld user).related .default nestedUserBody = [⟨"m", "secret", 1⟩] := rfl

end YiQiao
