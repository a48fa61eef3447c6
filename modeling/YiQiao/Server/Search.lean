import YiQiao.Memory.SearchSpec
import YiQiao.Server.Graph

/-!
# The search endpoint

`POST /search` puts the caller's project into the filters, searches the memories, and then boosts and
appends what the graph relates to the query.
-/

namespace YiQiao

open Lib Filters Fallible

variable {V S : Type}

structure SearchBody (S : Type) where
  query : String
  userId : Option String
  runId : Option String
  agentId : Option String
  appId : Option String
  filters : Option Object
  topK : Option Int
  threshold : Option S
  rerank : Option Bool
  showExpired : Option Bool

/-- Everything a search request meets: engine, graph tools, provider, reranker, stores and graph. -/
structure SearchWorld (V S : Type) where
  engine : Engine V S
  tools : GraphTools S
  embedder : Embedder V
  reranker : Option (Reranker S)
  stores : Stores V
  graph : Option Graph

/-! ## The request -/

/-- The deprecated top-level identifiers that are set. -/
def SearchBody.deprecated (body : SearchBody S) : List (String × String) :=
  [("user_id", body.userId), ("run_id", body.runId), ("agent_id", body.agentId),
    ("app_id", body.appId)].filterMap fun e => match e.2 with
      | some s => if s = "" then none else some (e.1, s)
      | none => none

/-- `search_req.filters or {}`. -/
def SearchBody.given (body : SearchBody S) : Object := body.filters.getD ⟨[], List.nodup_nil, trivial⟩

/-- The filters the endpoint searches with. -/
def SearchBody.projectFilters (body : SearchBody S) (project : ProjectId) : Entries :=
  body.deprecated.foldl (fun filters e => Dict.set e.1 (.str e.2) filters)
    (Dict.set "project_id" (.str project.text) body.given.entries)

def SearchBody.limit (body : SearchBody S) : Int := body.topK.getD 10

/-- The call of `Memory.search`; `defaultThreshold` is `0.1`. -/
def SearchBody.request (body : SearchBody S) (project : ProjectId) (defaultThreshold : S) :
    SearchRequest S where
  query := body.query
  filters := body.projectFilters project
  topK := body.limit
  threshold := body.threshold.getD defaultThreshold
  rerank := body.rerank.getD false
  showExpired := body.showExpired.getD false

/-! ## Graph results -/

variable [Score S]

/-- `Memory.get` of a related memory that is in the project, as a result. -/
def appendedItem (P : Platform) (memories : Table V) (project : ProjectId) (related : Related S) :
    Option (MemoryItem S) :=
  match memories.get related.id with
  | none => none
  | some row => match formatItem row.id (min 1 related.boost) row.payload with
    | .error _ => none
    | .ok item =>
        if row.payload.projectId P = project.text then
          some { item with
            memory := if item.memory = "" then related.text else item.memory
            hash := none
            createdAt := none
            updatedAt := none
            promoted := [] }
        else none

def boostItem (related : Related S) (item : MemoryItem S) : MemoryItem S :=
  if item.id = related.id then { item with score := min 1 (item.score + related.boost) } else item

@[simp] theorem boostItem_id (related : Related S) (item : MemoryItem S) :
    (boostItem related item).id = item.id := by
  unfold boostItem
  split <;> rfl

/-- One iteration over the related memories: a result is boosted, another memory appended. -/
def addGraphResult (P : Platform) (memories : Table V) (project : ProjectId) (known : List String)
    (results : List (MemoryItem S)) (related : Related S) : List (MemoryItem S) :=
  if related.id = "" then results
  else if related.id ∈ known then results.map (boostItem related)
  else match appendedItem P memories project related with
    | some item => results ++ [item]
    | none => results

/-- `_add_graph_results`. -/
def addGraphResults (P : Platform) (memories : Table V) (project : ProjectId)
    (related : List (Related S)) (limit : Nat) (results : List (MemoryItem S)) : List (MemoryItem S) :=
  if related.isEmpty then results
  else topK (fun a b => b.score ≤ a.score) limit
    (related.foldl (addGraphResult P memories project (results.map MemoryItem.id)) results)

/-- `search_memories`. -/
def searchMemories (W : SearchWorld V S) (project : ProjectId) (defaultThreshold : S)
    (body : SearchBody S) : Except PyError (List (MemoryItem S)) := do
  let response ← search W.engine W.embedder W.reranker W.stores (body.request project defaultThreshold)
  let related := relatedMemories W.tools W.graph body.query project (body.projectFilters project)
    (max body.limit.toNat 10)
  pure (addGraphResults W.engine.platform W.stores.memories project related body.limit.toNat response)

/-! ## Where graph results come from -/

omit [Score S] in
theorem projectFilters_wf (body : SearchBody S) (project : ProjectId) :
    (Value.dict (body.projectFilters project)).WF := by
  unfold SearchBody.projectFilters
  generalize body.deprecated = deprecated
  have hstart := body.given.wf.set "project_id" (v := .str project.text) trivial
  generalize Dict.set "project_id" (.str project.text) body.given.entries = filters at hstart
  induction deprecated generalizing filters with
  | nil => exact hstart
  | cons e deprecated ih => exact ih (Dict.set e.1 (.str e.2) filters) (hstart.set e.1 trivial)

variable {P : Platform} {memories : Table V} {project : ProjectId}

theorem appendedItem_spec {related : Related S} {item : MemoryItem S}
    (h : appendedItem P memories project related = some item) :
    item.id = related.id ∧ ∃ row ∈ memories.rows, row.id = related.id ∧
      row.payload.projectId P = project.text := by
  unfold appendedItem at h
  split at h
  · cases h
  · rename_i row hget
    have hid : row.id = related.id := by simpa using List.find?_some hget
    split at h
    · cases h
    · rename_i formatted hformat
      split at h
      · rename_i hproject
        cases h
        exact ⟨(formatItem_spec hformat).1.trans hid, row, List.mem_of_find?_eq_some hget, hid, hproject⟩
      · cases h

/-- What appending keeps: ids stay distinct, and each is an id of a result or of a stored row of the
project that the graph related. -/
structure Extends (P : Platform) (memories : Table V) (project : ProjectId)
    (results : List (MemoryItem S)) (related : List (Related S)) (out : List (MemoryItem S)) : Prop where
  nodup : (out.map MemoryItem.id).Nodup
  source : ∀ item ∈ out, item.id ∈ results.map MemoryItem.id ∨
    (item.id ∉ results.map MemoryItem.id ∧ ∃ r ∈ related, appendedItem P memories project r = some item)

theorem addGraphResult_extends {results out : List (MemoryItem S)} {done : List (Related S)}
    {related : Related S} (h : Extends P memories project results done out)
    (hfresh : related.id ∉ done.map Related.id) :
    Extends P memories project results (done ++ [related])
      (addGraphResult P memories project (results.map MemoryItem.id) out related) := by
  have widen : ∀ item, (item.id ∈ results.map MemoryItem.id ∨ (item.id ∉ results.map MemoryItem.id ∧
      ∃ r ∈ done, appendedItem P memories project r = some item)) →
      item.id ∈ results.map MemoryItem.id ∨ (item.id ∉ results.map MemoryItem.id ∧
        ∃ r ∈ done ++ [related], appendedItem P memories project r = some item) := by
    rintro item (h | ⟨hn, r, hr, hitem⟩)
    · exact .inl h
    · exact .inr ⟨hn, r, List.mem_append_left _ hr, hitem⟩
  unfold addGraphResult
  split
  · exact ⟨h.nodup, fun item hitem => widen item (h.source item hitem)⟩
  · split
    · rename_i hknown
      refine ⟨?_, fun item hitem => ?_⟩
      · rw [List.map_map]
        simpa only [Function.comp_def, boostItem_id] using h.nodup
      · obtain ⟨old, hold, rfl⟩ := List.mem_map.mp hitem
        by_cases hid : old.id = related.id
        · rw [boostItem_id]
          exact .inl (hid ▸ hknown)
        · rw [boostItem, if_neg hid]
          exact widen old (h.source old hold)
    · rename_i hunknown
      split
      · rename_i item happ
        obtain ⟨hid, _⟩ := appendedItem_spec happ
        refine ⟨?_, fun item' hitem' => ?_⟩
        · rw [List.map_append, List.map_singleton]
          refine List.Nodup.append h.nodup (List.nodup_singleton _) ?_
          rw [List.disjoint_singleton]
          intro hmem
          obtain ⟨old, hold, hold_id⟩ := List.mem_map.mp hmem
          rcases h.source old hold with hres | ⟨_, r, hr, hrold⟩
          · exact hunknown (hid ▸ hold_id ▸ hres)
          · refine hfresh (List.mem_map.mpr ⟨r, hr, ?_⟩)
            rw [← (appendedItem_spec hrold).1, hold_id, hid]
        · rcases List.mem_append.mp hitem' with hitem' | hitem'
          · exact widen item' (h.source item' hitem')
          · rw [List.mem_singleton.mp hitem']
            exact .inr ⟨by rwa [hid], related, by simp, happ⟩
      · exact ⟨h.nodup, fun item hitem => widen item (h.source item hitem)⟩

theorem foldl_addGraphResult_extends {results : List (MemoryItem S)} {related : List (Related S)}
    (hres : (results.map MemoryItem.id).Nodup) (hrel : (related.map Related.id).Nodup) :
    Extends P memories project results related
      (related.foldl (addGraphResult P memories project (results.map MemoryItem.id)) results) := by
  suffices ∀ done rest out, done ++ rest = related → Extends P memories project results done out →
      Extends P memories project results related
        (rest.foldl (addGraphResult P memories project (results.map MemoryItem.id)) out) from
    this [] related results rfl ⟨hres, fun item hitem => .inl (List.mem_map_of_mem hitem)⟩
  intro done rest
  induction rest generalizing done with
  | nil =>
      intro out hsplit h
      rw [List.append_nil] at hsplit
      exact hsplit ▸ h
  | cons r rest ih =>
      intro out hsplit h
      refine ih (done ++ [r]) _ (by simp [← hsplit]) (addGraphResult_extends h ?_)
      intro hmem
      rw [← hsplit, List.map_append, List.map_cons, List.nodup_append] at hrel
      exact hrel.2.2 _ hmem _ List.mem_cons_self rfl

theorem addGraphResults_spec {results : List (MemoryItem S)} {related : List (Related S)} {limit : Nat}
    (hres : (results.map MemoryItem.id).Nodup) (hrel : (related.map Related.id).Nodup)
    (hlen : results.length ≤ limit) :
    Extends P memories project results related
        (addGraphResults P memories project related limit results) ∧
      (addGraphResults P memories project related limit results).length ≤ limit := by
  unfold addGraphResults
  split
  · exact ⟨⟨hres, fun item hitem => .inl (List.mem_map_of_mem hitem)⟩, hlen⟩
  · have h : Extends P memories project results related _ := foldl_addGraphResult_extends hres hrel
    exact ⟨⟨topK_map_nodup h.nodup, fun item hitem => h.source item (mem_of_mem_topK hitem)⟩,
      length_topK_le _ _⟩

end YiQiao
