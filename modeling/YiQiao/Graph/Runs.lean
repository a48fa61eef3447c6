import YiQiao.Graph.Batch
import YiQiao.Lib.Fallible

/-!
# Runs of graph requests

After any requests the graph is that of the latest upserts. A batch differs from upserts one by one in the names and
types of entities at most.
-/

namespace YiQiao

open Lib Fallible

/-! ## Deletions -/

/-- The latest upserts but for those of dead memories. -/
def Latest.without (latest : Latest) (dead : String → Bool) : Latest := fun m => if dead m then none else latest m

section

variable {g : MemoryGraph} {latest : Latest} {dead : String → Bool} {projectId m key : String} {row : GraphUpsert}

theorem without_eq_some : latest.without dead m = some row ↔ dead m = false ∧ latest m = some row := by
  rw [Latest.without]
  cases dead m <;> simp

theorem relation_without (other : String) : (latest.without dead).relation m other =
    if dead m || dead other then none else latest.relation m other := by
  rw [Latest.relation, Latest.without, Latest.without]
  cases hm : dead m with
  | true => simp
  | false => cases hother : dead other with
    | true =>
        simp only [Bool.false_eq_true, if_false, if_true, Bool.false_or]
        cases latest m <;> rfl
    | false =>
        simp only [Bool.false_eq_true, if_false, Bool.false_or]
        rfl

theorem Sound.detachMemories (h : Sound g latest) (dead : String → Bool) :
    Sound (g.detachMemories dead) (latest.without dead) where
  memories m := by
    simp only [MemoryGraph.detachMemories, Latest.without, h.memories]
    split <;> simp
  mentions m key := by
    simp [MemoryGraph.detachMemories, without_eq_some, h.mentions, and_assoc, and_comm]
  hasMemory m key := by
    simp [MemoryGraph.detachMemories, h.hasMemory]
  inCategory m key := by
    simp [MemoryGraph.detachMemories, without_eq_some, h.inCategory, and_assoc, and_comm]
  entityNodes m row hrow := h.entityNodes m row (without_eq_some.mp hrow).2
  categoryNodes m row hrow := h.categoryNodes m row (without_eq_some.mp hrow).2
  colonFree m row hrow := h.colonFree m row (without_eq_some.mp hrow).2
  relatedTo m other := by
    rw [relation_without, ← h.relatedTo]
    rfl

theorem Linked.inProject (h : Linked g latest) (hrow : latest m = some row) :
    g.inProject row.projectId m = true := by
  rw [MemoryGraph.inProject, h.memories, hrow]
  simp [GraphUpsert.node]

/-- An entity that a memory mentions is no orphan. -/
theorem Linked.orphanEntity (h : Linked g latest) (hmention : (m, key) ∈ g.mentions) :
    g.orphanEntity projectId key = false := by
  obtain ⟨row, hrow, hkey⟩ := (h.mentions m key).mp hmention
  obtain ⟨e, he, rfl⟩ := mem_entityKeys.mp hkey
  obtain ⟨node, hnode, _, _, hproject⟩ := h.entityNode hrow he
  rw [Bool.eq_false_iff]
  intro horphan
  rw [MemoryGraph.orphanEntity, hnode, Option.any_some, Bool.and_eq_true, decide_eq_true_eq, decide_eq_true_eq,
    hproject] at horphan
  obtain ⟨rfl, hnone⟩ := horphan
  have hout := hnone _ ((h.hasMemory m _).mpr hmention) rfl
  rw [h.inProject hrow] at hout
  cases hout

theorem Linked.orphanCategory (h : Linked g latest) (hin : (m, key) ∈ g.inCategory) :
    g.orphanCategory projectId key = false := by
  obtain ⟨row, hrow, hkey⟩ := (h.inCategory m key).mp hin
  obtain ⟨category, hcategory, rfl⟩ := List.mem_map.mp hkey
  have hnode := h.categoryNodes m row hrow category hcategory
  rw [Bool.eq_false_iff]
  intro horphan
  rw [MemoryGraph.orphanCategory, hnode, Option.any_some, Bool.and_eq_true, decide_eq_true_eq,
    decide_eq_true_eq] at horphan
  obtain ⟨rfl, hnone⟩ := horphan
  have hout := hnone _ hin rfl
  rw [h.inProject hrow] at hout
  cases hout

theorem Sound.pruneEntities (h : Sound g latest) (projectId : String) : Sound (g.pruneEntities projectId) latest where
  memories := h.memories
  mentions m key := by
    rw [← h.mentions]
    simp only [MemoryGraph.pruneEntities, Finset.mem_filter]
    exact and_iff_left_of_imp h.orphanEntity
  hasMemory m key := by
    simp [MemoryGraph.pruneEntities, h.hasMemory]
  inCategory := h.inCategory
  entityNodes m row hrow e he := by
    have hmention := (h.mentions m _).mpr ⟨row, hrow, mem_entityKeys.mpr ⟨e, he, rfl⟩⟩
    simp only [MemoryGraph.pruneEntities, h.orphanEntity hmention, Bool.false_eq_true, if_false]
    exact h.entityNodes m row hrow e he
  categoryNodes := h.categoryNodes
  colonFree := h.colonFree
  relatedTo := h.relatedTo

theorem Sound.pruneCategories (h : Sound g latest) (projectId : String) :
    Sound (g.pruneCategories projectId) latest where
  memories := h.memories
  mentions := h.mentions
  hasMemory := h.hasMemory
  inCategory m key := by
    rw [← h.inCategory]
    simp only [MemoryGraph.pruneCategories, Finset.mem_filter]
    exact and_iff_left_of_imp h.orphanCategory
  entityNodes := h.entityNodes
  categoryNodes m row hrow category hcategory := by
    have hin := (h.inCategory m _).mpr ⟨row, hrow, List.mem_map_of_mem hcategory⟩
    simp only [MemoryGraph.pruneCategories, h.orphanCategory hin, Bool.false_eq_true, if_false]
    exact h.categoryNodes m row hrow category hcategory
  colonFree := h.colonFree
  relatedTo := h.relatedTo

end

/-! ## Runs -/

section

variable (R : EntityReader) (P : Platform)

/-- The latest upserts after a request. -/
def GraphRequest.after (latest : Latest) : GraphRequest → Latest
  | .upsertMemory row => if row.memoryId = "" then latest else latest.after [row.prepare R P]
  | .upsertMemoriesBatch rows => match prepareMemoryBatch R P rows with
    | .error _ => latest
    | .ok prepared => latest.after prepared
  | .deleteMemory memoryId => latest.without fun m => m = memoryId
  | .deleteMemories projectId filters => latest.without fun m =>
      (latest m).any fun row => decide (row.projectId = projectId) && filters.match row.scope

/-- The project ids have no colon, and the ids of a batch are distinct. -/
def GraphRequest.Valid : GraphRequest → Prop
  | .upsertMemory row => ':' ∉ (graphProject P row.metadata).toList
  | .upsertMemoriesBatch rows =>
      (∀ row ∈ rows, ':' ∉ (graphProject P row.metadata).toList) ∧ (rows.map fun row => strip row.memoryId).Nodup
  | .deleteMemory _ => True
  | .deleteMemories _ _ => True

end

section

variable {R : EntityReader} {P : Platform} {g g' : MemoryGraph} {latest : Latest} {rows : List GraphRow}
  {prepared : List GraphUpsert}

theorem sound_empty : Sound .empty fun _ => none := by
  constructor
  · constructor <;> simp [MemoryGraph.empty]
  · intro m other
    rfl

theorem mem_prepareMemoryBatch (h : prepareMemoryBatch R P rows = .ok prepared) :
    prepared = rows.map (fun row => { row.prepare R P with memoryId := strip row.memoryId }) ∧
      ∀ row ∈ rows, strip row.memoryId ≠ "" := by
  have hrows := mapM_ok.mp h
  clear h
  induction hrows with
  | nil => exact ⟨rfl, by simp⟩
  | @cons row upsert rows prepared hrow _ ih =>
      dsimp only at hrow
      split at hrow
      · cases hrow
      · rename_i hid
        cases hrow
        refine ⟨by rw [List.map_cons, ih.1], fun row' hrow' => ?_⟩
        rcases List.mem_cons.mp hrow' with rfl | hrow'
        · exact hid
        · exact ih.2 row' hrow'

theorem prepared_distinct (h : prepareMemoryBatch R P rows = .ok prepared)
    (hnodup : (rows.map fun row => strip row.memoryId).Nodup) : (prepared.map GraphUpsert.memoryId).Nodup := by
  rw [(mem_prepareMemoryBatch h).1, List.map_map]
  exact hnodup

theorem prepared_colonFree (h : prepareMemoryBatch R P rows = .ok prepared)
    (hfree : ∀ row ∈ rows, ':' ∉ (graphProject P row.metadata).toList) : ∀ row ∈ prepared, row.ColonFree := by
  intro row hrow
  rw [(mem_prepareMemoryBatch h).1] at hrow
  obtain ⟨given, hgiven, rfl⟩ := List.mem_map.mp hrow
  exact hfree given hgiven

theorem Sound.upsertMemory (h : Sound g latest) {row : GraphUpsert} (hfree : row.ColonFree) :
    Sound (g.upsertMemory row) (if row.memoryId = "" then latest else latest.after [row]) := by
  by_cases hid : row.memoryId = ""
  · rw [if_pos hid, MemoryGraph.upsertMemory, if_pos hid]
    exact h
  · rw [if_neg hid, upsertMemory_eq hid]
    exact h.writeMemoryBatch (List.nodup_singleton _) (by simpa using hfree)

/-- What a request leaves is the graph of the latest upserts. -/
theorem Sound.run (h : Sound g latest) {request : GraphRequest} (hvalid : request.Valid P)
    (hrun : request.run R P g = .ok g') : Sound g' (request.after R P latest) := by
  cases request with
  | upsertMemory row =>
      cases hrun
      exact h.upsertMemory hvalid
  | upsertMemoriesBatch rows =>
      simp only [GraphRequest.run, bind_ok] at hrun
      obtain ⟨prepared, hprepared, hg⟩ := hrun
      cases hg
      rw [GraphRequest.after, hprepared]
      exact h.writeMemoryBatch (prepared_distinct hprepared hvalid.2) (prepared_colonFree hprepared hvalid.1)
  | deleteMemory memoryId =>
      cases hrun
      exact ((h.detachMemories _).pruneEntities _).pruneCategories _
  | deleteMemories projectId filters =>
      cases hrun
      have hdead : (fun m => (g.memories m).any fun node =>
          decide (node.projectId = projectId) && filters.match node.scope) = fun m =>
          (latest m).any fun row => decide (row.projectId = projectId) && filters.match row.scope := by
        funext m
        rw [h.memories]
        cases latest m <;> rfl
      rw [GraphRequest.after, ← hdead]
      exact ((h.detachMemories _).pruneEntities _).pruneCategories _

theorem sound_of_run {requests : List GraphRequest} (h : Sound g latest)
    (hvalid : ∀ request ∈ requests, request.Valid P)
    (hrun : requests.foldlM (GraphRequest.run R P) g = .ok g') :
    Sound g' (requests.foldl (GraphRequest.after R P) latest) := by
  induction requests generalizing g latest with
  | nil =>
      cases hrun
      exact h
  | cons request requests ih =>
      rw [List.foldlM_cons, bind_ok] at hrun
      obtain ⟨next, hfirst, hrest⟩ := hrun
      exact ih (h.run (hvalid request List.mem_cons_self) hfirst)
        (fun later hlater => hvalid later (List.mem_cons_of_mem _ hlater)) hrest

/-! ## Batches and single upserts -/

theorem batchRelatedQuery_nodes (g : MemoryGraph) (rows : List GraphUpsert) :
    (g.batchRelatedQuery rows).entities = g.entities ∧ (g.batchRelatedQuery rows).categories = g.categories := by
  rw [MemoryGraph.batchRelatedQuery]
  induction rows generalizing g with
  | nil => exact ⟨rfl, rfl⟩
  | cons row rows ih => exact ih (g.mergeRelations row)

theorem writeMemoryBatch_entities (g : MemoryGraph) (rows : List GraphUpsert) :
    (g.writeMemoryBatch rows).entities = write g.entities (rows.flatMap GraphUpsert.entityWrites) := by
  rw [writeMemoryBatch_eq, (batchRelatedQuery_nodes _ rows).1]

theorem writeMemoryBatch_categories (g : MemoryGraph) (rows : List GraphUpsert) :
    (g.writeMemoryBatch rows).categories = write g.categories (rows.flatMap GraphUpsert.categoryWrites) := by
  rw [writeMemoryBatch_eq, (batchRelatedQuery_nodes _ rows).2]

theorem upsertMemory_entities {row : GraphUpsert} (hid : row.memoryId ≠ "") :
    (g.upsertMemory row).entities = write g.entities row.entityWrites := by
  rw [upsertMemory_eq hid, writeMemoryBatch_entities, List.flatMap_cons, List.flatMap_nil, List.append_nil]

theorem upsertMemory_categories {row : GraphUpsert} (hid : row.memoryId ≠ "") :
    (g.upsertMemory row).categories = write g.categories row.categoryWrites := by
  rw [upsertMemory_eq hid, writeMemoryBatch_categories, List.flatMap_cons, List.flatMap_nil, List.append_nil]

/-- Upserts one by one write the nodes that a batch writes. -/
theorem foldl_upsertMemory {upserts : List GraphUpsert} (hids : ∀ row ∈ upserts, row.memoryId ≠ "")
    (hfree : ∀ row ∈ upserts, row.ColonFree) (h : Sound g latest) :
    Sound (upserts.foldl MemoryGraph.upsertMemory g) (latest.after upserts) ∧
      (upserts.foldl MemoryGraph.upsertMemory g).entities =
        write g.entities (upserts.flatMap GraphUpsert.entityWrites) ∧
      (upserts.foldl MemoryGraph.upsertMemory g).categories =
        write g.categories (upserts.flatMap GraphUpsert.categoryWrites) := by
  induction upserts generalizing g latest with
  | nil => exact ⟨h, rfl, rfl⟩
  | cons row upserts ih =>
      have hid := hids row List.mem_cons_self
      have hnext := h.upsertMemory (hfree row List.mem_cons_self)
      rw [if_neg hid] at hnext
      obtain ⟨hsound, hentities, hcategories⟩ := ih (fun r hr => hids r (List.mem_cons_of_mem _ hr))
        (fun r hr => hfree r (List.mem_cons_of_mem _ hr)) hnext
      rw [List.foldl_cons, List.flatMap_cons, List.flatMap_cons, write_append, write_append]
      refine ⟨hsound, ?_, ?_⟩
      · rw [hentities, upsertMemory_entities hid]
      · rw [hcategories, upsertMemory_categories hid]

/-- The graph without what readers see of entities. -/
def MemoryGraph.anonymous (g : MemoryGraph) : MemoryGraph :=
  { g with entities := fun key => (g.entities key).map EntityNode.anonymous }

/-- Two graphs of the same upserts have the same memories and edges. -/
theorem Sound.unique (h : Sound g latest) (h' : Sound g' latest) (hcategories : g.categories = g'.categories) :
    (g.entities = g'.entities → g = g') ∧
      ((∀ key, (g.entities key).map EntityNode.anonymous = (g'.entities key).map EntityNode.anonymous) →
        g.anonymous = g'.anonymous) := by
  have hmemories : g.memories = g'.memories := funext fun m => by rw [h.memories, h'.memories]
  have hmentions : g.mentions = g'.mentions := by
    ext ⟨m, key⟩
    rw [h.mentions, h'.mentions]
  have hhas : g.hasMemory = g'.hasMemory := by
    ext ⟨key, m⟩
    rw [h.hasMemory, h'.hasMemory, hmentions]
  have hin : g.inCategory = g'.inCategory := by
    ext ⟨m, key⟩
    rw [h.inCategory, h'.inCategory]
  have hrelated : g.relatedTo = g'.relatedTo := by
    funext m other
    rw [h.relatedTo, h'.relatedTo]
  constructor
  · intro hentities
    exact MemoryGraph.ext hmemories hentities hcategories hmentions hhas hin hrelated
  · intro hentities
    exact MemoryGraph.ext hmemories (funext hentities) hcategories hmentions hhas hin hrelated

theorem Latest.after_perm {upserts upserts' : List GraphUpsert} (hperm : upserts.Perm upserts')
    (hnodup : (upserts.map GraphUpsert.memoryId).Nodup) : latest.after upserts = latest.after upserts' := by
  refine write_perm (hperm.map _) fun p hp q hq hkey => ?_
  obtain ⟨row, hrow, rfl⟩ := List.mem_map.mp hp
  obtain ⟨row', hrow', rfl⟩ := List.mem_map.mp hq
  exact List.inj_on_of_nodup_map hnodup hrow hrow' hkey

/-- Upserts one by one in any order and in one batch. -/
theorem upserts_batch {upserts order : List GraphUpsert} (h : Sound g latest) (hperm : order.Perm upserts)
    (hids : ∀ row ∈ upserts, row.memoryId ≠ "") (hnodup : (upserts.map GraphUpsert.memoryId).Nodup)
    (hfree : ∀ row ∈ upserts, row.ColonFree) :
    (order.foldl MemoryGraph.upsertMemory g).anonymous = (g.writeMemoryBatch upserts).anonymous ∧
      (order = upserts → order.foldl MemoryGraph.upsertMemory g = g.writeMemoryBatch upserts) := by
  have hfree' : ∀ row ∈ order, row.ColonFree := fun row hrow => hfree row (hperm.mem_iff.mp hrow)
  obtain ⟨hsound, hentities, hcategories⟩ :=
    foldl_upsertMemory (fun row hrow => hids row (hperm.mem_iff.mp hrow)) hfree' h
  rw [Latest.after_perm hperm ((hperm.map _).nodup_iff.mpr hnodup)] at hsound
  have hbatch := h.writeMemoryBatch hnodup hfree
  have hsame : (order.foldl MemoryGraph.upsertMemory g).categories = (g.writeMemoryBatch upserts).categories := by
    rw [hcategories, writeMemoryBatch_categories]
    exact write_perm (hperm.flatMap_right _) fun p hp q hq => categoryWrites_agree hfree' hp hq
  obtain ⟨hequal, hanonymous⟩ := hsound.unique hbatch hsame
  constructor
  · refine hanonymous fun key => ?_
    rw [hentities, writeMemoryBatch_entities]
    exact map_write_perm (hperm.flatMap_right _) (fun p hp q hq => entityWrites_agree hfree' hp hq) key
  · rintro rfl
    exact hequal (by rw [hentities, writeMemoryBatch_entities])

/-! ## What a run leaves -/

/-- The nodes of the entities that memories share. -/
def GraphUpsert.sharedKeys (row other : GraphUpsert) : Finset String :=
  row.norms.image (entityNodeKey row.projectId .memory) ∩ other.norms.image (entityNodeKey other.projectId .memory)

theorem sharedKeys_eq {row other : GraphUpsert} (hproject : row.projectId = other.projectId) :
    row.sharedKeys other = (row.norms ∩ other.norms).image (entityNodeKey row.projectId .memory) ∧
      (row.sharedKeys other).card = (row.norms ∩ other.norms).card := by
  have hinjective : Function.Injective (entityNodeKey row.projectId .memory) := by
    intro norm norm' h
    exact String.append_right_inj _ |>.mp h
  have himage : row.sharedKeys other = (row.norms ∩ other.norms).image (entityNodeKey row.projectId .memory) := by
    rw [GraphUpsert.sharedKeys, ← hproject, Finset.image_inter _ _ hinjective]
  rw [himage]
  exact ⟨rfl, Finset.card_image_of_injective _ hinjective⟩

/-- The graph is the one that the latest upserts describe, and a batch is worth its upserts. -/
structure Follows (R : EntityReader) (P : Platform) (g : MemoryGraph) (latest : Latest) : Prop where
  mentions : ∀ m key, (m, key) ∈ g.mentions ↔ ∃ row, latest m = some row ∧
    ∃ e ∈ row.entities, entityNodeKey row.projectId e.kind e.norm = key
  joined : ∀ m n, (g.relatedTo m n).isSome = true ↔ ∃ row other, latest m = some row ∧ latest n = some other ∧
    m ≠ n ∧ row.projectId = other.projectId ∧ (row.sharedKeys other).Nonempty ∧
      row.scope.overlaps other.scope = true
  bothWays : ∀ m n, g.relatedTo m n = g.relatedTo n m
  weight : ∀ m n r, g.relatedTo m n = some r → ∀ row other, latest m = some row → latest n = some other →
    r.weight = (row.sharedKeys other).card
  batch : ∀ rows batched, GraphRequest.Valid P (.upsertMemoriesBatch rows) →
    (∀ row ∈ rows, strip row.memoryId = row.memoryId) →
    GraphRequest.run R P g (.upsertMemoriesBatch rows) = .ok batched →
    ∀ order single, order.Perm rows →
      (order.map GraphRequest.upsertMemory).foldlM (GraphRequest.run R P) g = .ok single →
      single.anonymous = batched.anonymous ∧ (order = rows → single = batched)

theorem foldlM_upsertMemory {order : List GraphRow} :
    (order.map GraphRequest.upsertMemory).foldlM (GraphRequest.run R P) g =
      .ok ((order.map (GraphRow.prepare R P)).foldl MemoryGraph.upsertMemory g) := by
  induction order generalizing g with
  | nil => rfl
  | cons row order ih => exact ih

theorem Sound.follows (h : Sound g latest) : Follows R P g latest := by
  constructor
  · intro m key
    rw [h.mentions]
    simp only [mem_entityKeys]
  · intro m n
    rw [h.relatedTo, Latest.relation]
    cases hm : latest m with
    | none => simp
    | some row => cases hn : latest n with
      | none => simp
      | some other =>
          simp only [Option.some.injEq, exists_and_left, exists_eq_left']
          by_cases hproject : row.projectId = other.projectId
          · rw [(sharedKeys_eq hproject).1, Finset.image_nonempty, Finset.nonempty_iff_ne_empty]
            split
            · rename_i hc
              simp only [Option.isSome_some, true_iff]
              exact ⟨hc.1, hproject, hc.2.2.2, hc.2.2.1⟩
            · rename_i hc
              simp only [Option.isSome_none, Bool.false_eq_true, false_iff]
              exact fun hall => hc ⟨hall.1, hproject, hall.2.2.2, hall.2.2.1⟩
          · simp [hproject]
  · intro m n
    rw [h.relatedTo, h.relatedTo, Latest.relation_comm]
  · intro m n r hr row other hrow hother
    rw [h.relatedTo, Latest.relation, hrow, hother] at hr
    simp only [Option.ite_none_right_eq_some, Option.some.injEq] at hr
    obtain ⟨⟨_, hproject, _, _⟩, rfl⟩ := hr
    exact (sharedKeys_eq hproject).2.symm
  · intro rows batched hvalid hstrip hrun order single hperm hsingle
    simp only [GraphRequest.run, bind_ok] at hrun
    obtain ⟨prepared, hprepared, hbatched⟩ := hrun
    cases hbatched
    rw [foldlM_upsertMemory] at hsingle
    cases hsingle
    obtain ⟨hrows, hnamed⟩ := mem_prepareMemoryBatch hprepared
    have hsame : prepared = rows.map (GraphRow.prepare R P) := by
      rw [hrows]
      refine List.map_congr_left fun row hrow => ?_
      rw [hstrip row hrow]
      rfl
    subst hsame
    have hids : ∀ row ∈ rows.map (GraphRow.prepare R P), row.memoryId ≠ "" := by
      intro row hrow
      obtain ⟨given, hgiven, rfl⟩ := List.mem_map.mp hrow
      exact fun hempty => hnamed given hgiven ((hstrip given hgiven).trans hempty)
    obtain ⟨hanonymous, hequal⟩ := upserts_batch h (hperm.map (GraphRow.prepare R P)) hids
      (prepared_distinct hprepared hvalid.2) (prepared_colonFree hprepared hvalid.1)
    exact ⟨hanonymous, fun heq => hequal (by rw [heq])⟩

/-- After any valid requests the graph is the one of the latest upserts. -/
theorem graph_follows {requests : List GraphRequest} (hvalid : ∀ request ∈ requests, request.Valid P)
    (hrun : requests.foldlM (GraphRequest.run R P) .empty = .ok g) :
    Follows R P g (requests.foldl (GraphRequest.after R P) fun _ => none) :=
  (sound_of_run sound_empty hvalid hrun).follows

end

/-- A reader for texts of one proper name. -/
def acmeReader : EntityReader := ⟨fun _ => [], fun text => [("PROPER", text)], fun _ => "acme", id⟩

def acmeRow (memoryId text : String) : GraphRow := ⟨memoryId, some text, [], []⟩

theorem acme_follows : Follows acmeReader .ascii
    (MemoryGraph.empty.upsertMemory ((acmeRow "m" "Acme").prepare acmeReader .ascii))
    ([GraphRequest.upsertMemory (acmeRow "m" "Acme")].foldl (GraphRequest.after acmeReader .ascii) fun _ => none) :=
  graph_follows (by simpa [GraphRequest.Valid] using (by decide)) rfl

/-- The name of an entity is the one of the last row. -/
theorem batch_order_named : ¬ ∀ (R : EntityReader) (P : Platform) (rows order : List GraphRow)
    (single batched : MemoryGraph), GraphRequest.Valid P (.upsertMemoriesBatch rows) →
    (∀ row ∈ rows, strip row.memoryId = row.memoryId) → order.Perm rows →
    GraphRequest.run R P .empty (.upsertMemoriesBatch rows) = .ok batched →
    (order.map GraphRequest.upsertMemory).foldlM (GraphRequest.run R P) .empty = .ok single → single = batched := by
  intro h
  have hsame := h acmeReader .ascii [acmeRow "m" "Acme", acmeRow "n" "ACME"] [acmeRow "n" "ACME", acmeRow "m" "Acme"]
    _ _ ⟨by decide, by decide⟩ (by decide) (.swap _ _ _) rfl rfl
  have hname := congrArg (fun g => (g.entities "default-project:memory:acme").map EntityNode.name) hsame
  revert hname
  decide

end YiQiao
