import Mathlib.Data.Finset.Union
import YiQiao.Graph.Linked

/-!
# Upserts one by one and in batches

A batch writes the nodes and edges that its rows write one after the other. Since the relations are those of the latest
upserts after each request, the order of the rows shows only in the names that entities are given.
-/

namespace YiQiao

open Lib Fallible

namespace GraphUpsert

def mentionEdges (row : GraphUpsert) : Finset (String × String) :=
  (row.entityKeys.map fun key => (row.memoryId, key)).toFinset

def hasMemoryEdges (row : GraphUpsert) : Finset (String × String) :=
  (row.entityKeys.map fun key => (key, row.memoryId)).toFinset

def categoryEdges (row : GraphUpsert) : Finset (String × String) :=
  (row.categoryKeys.map fun key => (row.memoryId, key)).toFinset

end GraphUpsert

section

variable {g : MemoryGraph} {latest : Latest} {rows : List GraphUpsert} {row : GraphUpsert} {m other key : String}

/-! ## What the queries leave -/

theorem mem_mentionEdges : (m, key) ∈ row.mentionEdges ↔ row.memoryId = m ∧ key ∈ row.entityKeys := by
  simp only [GraphUpsert.mentionEdges, List.mem_toFinset, List.mem_map, Prod.mk.injEq]
  constructor
  · rintro ⟨key', hkey, hm, rfl⟩
    exact ⟨hm, hkey⟩
  · rintro ⟨hm, hkey⟩
    exact ⟨key, hkey, hm, rfl⟩

theorem mem_hasMemoryEdges : (key, m) ∈ row.hasMemoryEdges ↔ (m, key) ∈ row.mentionEdges := by
  simp [GraphUpsert.hasMemoryEdges, GraphUpsert.mentionEdges, and_comm]

theorem mem_categoryEdges : (m, key) ∈ row.categoryEdges ↔ row.memoryId = m ∧ key ∈ row.categoryKeys := by
  simp only [GraphUpsert.categoryEdges, List.mem_toFinset, List.mem_map, Prod.mk.injEq]
  constructor
  · rintro ⟨key', hkey, hm, rfl⟩
    exact ⟨hm, hkey⟩
  · rintro ⟨hm, hkey⟩
    exact ⟨key, hkey, hm, rfl⟩

theorem foldl_mergeEntity (entities : List EntityRow) : entities.foldl (MemoryGraph.mergeEntity row) g =
    { g with
      entities := write g.entities (entities.map fun e =>
        (entityNodeKey row.projectId e.kind e.norm, ⟨e.type, e.name, e.norm, e.kind, row.projectId⟩))
      mentions := g.mentions ∪
        (entities.map fun e => (row.memoryId, entityNodeKey row.projectId e.kind e.norm)).toFinset
      hasMemory := g.hasMemory ∪
        (entities.map fun e => (entityNodeKey row.projectId e.kind e.norm, row.memoryId)).toFinset } := by
  induction entities generalizing g with
  | nil => simp
  | cons e entities ih =>
      rw [List.foldl_cons, ih]
      simp [MemoryGraph.mergeEntity, Finset.insert_union, Finset.union_insert]

theorem mergeEntities_eq (h : (g.memories row.memoryId).isSome = true) : g.mergeEntities row =
    { g with
      entities := write g.entities row.entityWrites
      mentions := g.mentions ∪ row.mentionEdges
      hasMemory := g.hasMemory ∪ row.hasMemoryEdges } := by
  rw [MemoryGraph.mergeEntities, if_pos h, foldl_mergeEntity]
  simp [GraphUpsert.mentionEdges, GraphUpsert.hasMemoryEdges, GraphUpsert.entityKeys, GraphUpsert.entityWrites,
    Function.comp_def]

theorem foldl_mergeCategory (categories : List String) : categories.foldl (MemoryGraph.mergeCategory row) g =
    { g with
      categories := write g.categories (categories.map fun category =>
        (categoryNodeKey row.projectId category, ⟨category, row.projectId⟩))
      inCategory := g.inCategory ∪
        (categories.map fun category => (row.memoryId, categoryNodeKey row.projectId category)).toFinset } := by
  induction categories generalizing g with
  | nil => simp
  | cons category categories ih =>
      rw [List.foldl_cons, ih]
      simp [MemoryGraph.mergeCategory, Finset.insert_union, Finset.union_insert]

theorem mergeCategories_eq (h : (g.memories row.memoryId).isSome = true) : g.mergeCategories row =
    { g with
      categories := write g.categories row.categoryWrites
      inCategory := g.inCategory ∪ row.categoryEdges } := by
  rw [MemoryGraph.mergeCategories, if_pos h, foldl_mergeCategory]
  simp [GraphUpsert.categoryEdges, GraphUpsert.categoryKeys, GraphUpsert.categoryWrites, Function.comp_def]

/-- The edges of all the rows. -/
def edgesOf (edges : GraphUpsert → Finset (String × String)) (rows : List GraphUpsert) : Finset (String × String) :=
  rows.foldr (fun row rest => edges row ∪ rest) ∅

theorem mem_edgesOf {edges : GraphUpsert → Finset (String × String)} {edge : String × String} :
    edge ∈ edgesOf edges rows ↔ ∃ row ∈ rows, edge ∈ edges row := by
  induction rows with
  | nil => simp [edgesOf]
  | cons row rows ih =>
      rw [edgesOf] at ih
      rw [edgesOf, List.foldr_cons, Finset.mem_union, ih]
      simp

theorem batchEntityQuery_eq (h : ∀ row ∈ rows, (g.memories row.memoryId).isSome = true) :
    g.batchEntityQuery rows =
      { g with
        entities := write g.entities (rows.flatMap GraphUpsert.entityWrites)
        mentions := g.mentions ∪ edgesOf GraphUpsert.mentionEdges rows
        hasMemory := g.hasMemory ∪ edgesOf GraphUpsert.hasMemoryEdges rows } := by
  rw [MemoryGraph.batchEntityQuery]
  induction rows generalizing g with
  | nil => simp [edgesOf]
  | cons row rows ih =>
      rw [List.foldl_cons, mergeEntities_eq (h row List.mem_cons_self), ih]
      · simp [write_append, edgesOf, Finset.union_assoc]
      · intro row' hrow'
        exact h row' (List.mem_cons_of_mem _ hrow')

theorem batchCategoryQuery_eq (h : ∀ row ∈ rows, (g.memories row.memoryId).isSome = true) :
    g.batchCategoryQuery rows =
      { g with
        categories := write g.categories (rows.flatMap GraphUpsert.categoryWrites)
        inCategory := g.inCategory ∪ edgesOf GraphUpsert.categoryEdges rows } := by
  rw [MemoryGraph.batchCategoryQuery]
  induction rows generalizing g with
  | nil => simp [edgesOf]
  | cons row rows ih =>
      rw [List.foldl_cons, mergeCategories_eq (h row List.mem_cons_self), ih]
      · simp [write_append, edgesOf, Finset.union_assoc]
      · intro row' hrow'
        exact h row' (List.mem_cons_of_mem _ hrow')

theorem foldl_mergeMemory : rows.foldl MemoryGraph.mergeMemory g =
    { g with memories := write g.memories (rows.map fun row => (row.memoryId, row.node)) } := by
  induction rows generalizing g with
  | nil => rfl
  | cons row rows ih =>
      rw [List.foldl_cons, ih]
      rfl

theorem batchMemoryQuery_memories (g : MemoryGraph) (rows : List GraphUpsert) :
    (g.batchMemoryQuery rows).memories = write g.memories (rows.map fun row => (row.memoryId, row.node)) := by
  rw [MemoryGraph.batchMemoryQuery, foldl_mergeMemory]
  rfl

theorem batchMemoryQuery_isSome (h : row ∈ rows) :
    ((g.batchMemoryQuery rows).memories row.memoryId).isSome = true := by
  have hmem : row.memoryId ∈ (rows.map fun row => (row.memoryId, row.node)).map Prod.fst := by
    rw [List.map_map]
    exact List.mem_map_of_mem h
  have hwritten := @map_write_of_mem String _ _ _ g.memories _ _ (fun _ => ()) () hmem fun _ _ _ => rfl
  rw [batchMemoryQuery_memories]
  cases hnode : write g.memories (rows.map fun row => (row.memoryId, row.node)) row.memoryId with
  | none => rw [hnode] at hwritten; cases hwritten
  | some node => rfl

/-- A batch but for its relations. -/
theorem writeMemoryBatch_eq (g : MemoryGraph) (rows : List GraphUpsert) : g.writeMemoryBatch rows =
    MemoryGraph.batchRelatedQuery
      { memories := write g.memories (rows.map fun row => (row.memoryId, row.node))
        entities := write g.entities (rows.flatMap GraphUpsert.entityWrites)
        categories := write g.categories (rows.flatMap GraphUpsert.categoryWrites)
        mentions := (g.mentions.filter fun edge => edge.1 ∉ rows.map GraphUpsert.memoryId) ∪
          edgesOf GraphUpsert.mentionEdges rows
        hasMemory := (g.hasMemory.filter fun edge => edge.2 ∉ rows.map GraphUpsert.memoryId) ∪
          edgesOf GraphUpsert.hasMemoryEdges rows
        inCategory := (g.inCategory.filter fun edge => edge.1 ∉ rows.map GraphUpsert.memoryId) ∪
          edgesOf GraphUpsert.categoryEdges rows
        relatedTo := fun m other => if other ∈ rows.map GraphUpsert.memoryId then none
          else if m ∈ rows.map GraphUpsert.memoryId then none else g.relatedTo m other } rows := by
  have hsome : ∀ row ∈ rows, ((g.batchMemoryQuery rows).memories row.memoryId).isSome = true :=
    fun row hrow => batchMemoryQuery_isSome hrow
  rw [MemoryGraph.writeMemoryBatch, batchEntityQuery_eq hsome, batchCategoryQuery_eq]
  · rw [MemoryGraph.batchMemoryQuery, foldl_mergeMemory]
    rfl
  · exact hsome

theorem upsertMemory_eq (hid : row.memoryId ≠ "") : g.upsertMemory row = g.writeMemoryBatch [row] := by
  rw [MemoryGraph.upsertMemory, if_neg hid]
  rfl

/-! ## A batch keeps the graph linked -/

theorem latest_after_of_mem (hnodup : (rows.map GraphUpsert.memoryId).Nodup) (h : row ∈ rows) :
    latest.after rows row.memoryId = some row := by
  apply write_of_mem
  · rwa [List.map_map]
  · exact List.mem_map_of_mem h

theorem latest_after_of_notMem (h : m ∉ rows.map GraphUpsert.memoryId) : latest.after rows m = latest m := by
  apply write_of_notMem
  rwa [List.map_map]

/-- The edges of the rows replace those of their memories. -/
theorem edges_after (hnodup : (rows.map GraphUpsert.memoryId).Nodup) (keys : GraphUpsert → List String)
    {old : Prop} (hold : old ↔ ∃ row, latest m = some row ∧ key ∈ keys row) :
    (old ∧ m ∉ rows.map GraphUpsert.memoryId ∨ ∃ row ∈ rows, row.memoryId = m ∧ key ∈ keys row) ↔
      ∃ row, latest.after rows m = some row ∧ key ∈ keys row := by
  by_cases hm : m ∈ rows.map GraphUpsert.memoryId
  · obtain ⟨row, hrow, rfl⟩ := List.mem_map.mp hm
    rw [latest_after_of_mem hnodup hrow]
    constructor
    · rintro (⟨_, hnot⟩ | ⟨row', hrow', hid, hkey⟩)
      · exact absurd hm hnot
      · have hsame := List.inj_on_of_nodup_map hnodup hrow' hrow hid
        exact ⟨row, rfl, hsame ▸ hkey⟩
    · rintro ⟨row', hrow', hkey⟩
      cases hrow'
      exact .inr ⟨row, hrow, rfl, hkey⟩
  · rw [latest_after_of_notMem hm, ← hold]
    constructor
    · rintro (⟨h, _⟩ | ⟨row, hrow, rfl, _⟩)
      · exact h
      · exact absurd (List.mem_map_of_mem hrow) hm
    · intro h
      exact .inl ⟨h, hm⟩

theorem mem_entityWrites {key : String} {node : EntityNode} : (key, node) ∈ row.entityWrites ↔
    ∃ e ∈ row.entities, entityNodeKey row.projectId e.kind e.norm = key ∧
      (⟨e.type, e.name, e.norm, e.kind, row.projectId⟩ : EntityNode) = node := by
  simp [GraphUpsert.entityWrites]

theorem mem_categoryWrites {key : String} {node : CategoryNode} : (key, node) ∈ row.categoryWrites ↔
    ∃ category ∈ row.categories, categoryNodeKey row.projectId category = key ∧
      (⟨category, row.projectId⟩ : CategoryNode) = node := by
  simp [GraphUpsert.categoryWrites]

/-- Writes of entities to one node differ in what a reader sees only. -/
theorem entityWrites_agree (hfree : ∀ row ∈ rows, row.ColonFree) {p q : String × EntityNode}
    (hp : p ∈ rows.flatMap GraphUpsert.entityWrites) (hq : q ∈ rows.flatMap GraphUpsert.entityWrites)
    (hkey : p.1 = q.1) : p.2.anonymous = q.2.anonymous := by
  obtain ⟨row, hrow, hp⟩ := List.mem_flatMap.mp hp
  obtain ⟨row', hrow', hq⟩ := List.mem_flatMap.mp hq
  obtain ⟨e, _, hpkey, hpnode⟩ := mem_entityWrites.mp hp
  obtain ⟨e', _, hqkey, hqnode⟩ := mem_entityWrites.mp hq
  obtain ⟨hproject, hkind, hnorm⟩ :=
    entityNodeKey_inj (hfree row hrow) (hfree row' hrow') (hpkey.trans (hkey.trans hqkey.symm))
  rw [← hpnode, ← hqnode]
  simp [EntityNode.anonymous, hproject, hkind, hnorm]

theorem categoryWrites_agree (hfree : ∀ row ∈ rows, row.ColonFree) {p q : String × CategoryNode}
    (hp : p ∈ rows.flatMap GraphUpsert.categoryWrites) (hq : q ∈ rows.flatMap GraphUpsert.categoryWrites)
    (hkey : p.1 = q.1) : p.2 = q.2 := by
  obtain ⟨row, hrow, hp⟩ := List.mem_flatMap.mp hp
  obtain ⟨row', hrow', hq⟩ := List.mem_flatMap.mp hq
  obtain ⟨category, _, hpkey, hpnode⟩ := mem_categoryWrites.mp hp
  obtain ⟨category', _, hqkey, hqnode⟩ := mem_categoryWrites.mp hq
  obtain ⟨hproject, hname⟩ :=
    categoryNodeKey_inj (hfree row hrow) (hfree row' hrow') (hpkey.trans (hkey.trans hqkey.symm))
  rw [← hpnode, ← hqnode, hproject, hname]

/-- A node that the writes name or leave is that of the entity. -/
theorem anonymous_write (hfree : ∀ row ∈ rows, row.ColonFree) (hrowFree : row.ColonFree) {e : EntityRow}
    {nodes : String → Option EntityNode}
    (h : row ∈ rows ∧ e ∈ row.entities ∨
      (nodes (entityNodeKey row.projectId e.kind e.norm)).map EntityNode.anonymous =
        some ⟨"", "", e.norm, e.kind, row.projectId⟩) :
    (write nodes (rows.flatMap GraphUpsert.entityWrites) (entityNodeKey row.projectId e.kind e.norm)).map
      EntityNode.anonymous = some ⟨"", "", e.norm, e.kind, row.projectId⟩ := by
  by_cases hmem : entityNodeKey row.projectId e.kind e.norm ∈ (rows.flatMap GraphUpsert.entityWrites).map Prod.fst
  · refine map_write_of_mem hmem fun p hp hkey => ?_
    obtain ⟨row', hrow', hp⟩ := List.mem_flatMap.mp hp
    obtain ⟨e', _, hpkey, hpnode⟩ := mem_entityWrites.mp hp
    obtain ⟨hproject, hkind, hnorm⟩ := entityNodeKey_inj (hfree row' hrow') hrowFree (hpkey.trans hkey)
    rw [← hpnode]
    simp [EntityNode.anonymous, hproject, hkind, hnorm]
  · rw [write_of_notMem hmem]
    refine h.resolve_left fun hin => hmem ?_
    exact List.mem_map_of_mem (List.mem_flatMap.mpr ⟨row, hin.1, mem_entityWrites.mpr ⟨e, hin.2, rfl, rfl⟩⟩)

theorem category_write (hfree : ∀ row ∈ rows, row.ColonFree) (hrowFree : row.ColonFree) {category : String}
    {nodes : String → Option CategoryNode}
    (h : row ∈ rows ∧ category ∈ row.categories ∨
      nodes (categoryNodeKey row.projectId category) = some ⟨category, row.projectId⟩) :
    write nodes (rows.flatMap GraphUpsert.categoryWrites) (categoryNodeKey row.projectId category) =
      some ⟨category, row.projectId⟩ := by
  by_cases hmem : categoryNodeKey row.projectId category ∈ (rows.flatMap GraphUpsert.categoryWrites).map Prod.fst
  · have hsame : ∀ p ∈ rows.flatMap GraphUpsert.categoryWrites, p.1 = categoryNodeKey row.projectId category →
        id p.2 = ⟨category, row.projectId⟩ := by
      intro p hp hkey
      obtain ⟨row', hrow', hp⟩ := List.mem_flatMap.mp hp
      obtain ⟨category', _, hpkey, hpnode⟩ := mem_categoryWrites.mp hp
      obtain ⟨hproject, hname⟩ := categoryNodeKey_inj (hfree row' hrow') hrowFree (hpkey.trans hkey)
      rw [← hpnode, hproject, hname]
      rfl
    simpa using map_write_of_mem (d := nodes) hmem hsame
  · rw [write_of_notMem hmem]
    refine h.resolve_left fun hin => hmem ?_
    have hwritten := mem_categoryWrites.mpr ⟨category, hin.2, rfl, rfl⟩
    exact List.mem_map_of_mem (List.mem_flatMap.mpr ⟨row, hin.1, hwritten⟩)

/-- The relations are set on a graph that is linked. -/
theorem foldl_mergeRelations (hlinked : Linked g latest) (hrows : ∀ row ∈ rows, latest row.memoryId = some row) :
    rows.foldl MemoryGraph.mergeRelations g =
      { g with relatedTo := fun m other =>
          if m ∈ rows.map GraphUpsert.memoryId ∨ other ∈ rows.map GraphUpsert.memoryId then
            (latest.relation m other).or (g.relatedTo m other)
          else g.relatedTo m other } := by
  induction rows generalizing g with
  | nil => simp
  | cons row rows ih =>
      have hrow := hrows row List.mem_cons_self
      have hstep : g.mergeRelations row =
          { g with relatedTo := fun m other =>
              if m = row.memoryId ∨ other = row.memoryId then (latest.relation m other).or (g.relatedTo m other)
              else g.relatedTo m other } := by
        rw [MemoryGraph.mergeRelations]
        congr 1
        funext m other
        by_cases hm : m = row.memoryId
        · subst hm
          rw [if_pos rfl, if_pos (.inl rfl), hlinked.foundRelation hrow]
        · by_cases hother : other = row.memoryId
          · subst hother
            rw [if_neg hm, if_pos rfl, if_pos (.inr rfl), hlinked.foundRelation hrow, Latest.relation_comm]
          · rw [if_neg hm, if_neg hother, if_neg (not_or.mpr ⟨hm, hother⟩)]
      have hrest : ∀ row' ∈ rows, latest row'.memoryId = some row' := fun row' hrow' =>
        hrows row' (List.mem_cons_of_mem _ hrow')
      rw [List.foldl_cons, hstep, ih (hlinked.of_relatedTo _) hrest]
      congr 1
      funext m other
      simp only [List.map_cons, List.mem_cons]
      by_cases hrest : m ∈ rows.map GraphUpsert.memoryId ∨ other ∈ rows.map GraphUpsert.memoryId
      · have hany : (m = row.memoryId ∨ m ∈ rows.map GraphUpsert.memoryId) ∨
            other = row.memoryId ∨ other ∈ rows.map GraphUpsert.memoryId := hrest.imp Or.inr Or.inr
        rw [if_pos hrest, if_pos hany]
        split
        · cases latest.relation m other <;> simp
        · rfl
      · rw [if_neg hrest]
        refine if_congr ?_ rfl rfl
        rw [not_or] at hrest
        simp [hrest]

/-- The query of the relations completes a graph in which only those of the rows are missing. -/
theorem MemoryGraph.sound_batchRelatedQuery (hlinked : Linked g latest)
    (hrows : ∀ row ∈ rows, latest row.memoryId = some row)
    (hrelated : ∀ m other, g.relatedTo m other =
      if m ∈ rows.map GraphUpsert.memoryId ∨ other ∈ rows.map GraphUpsert.memoryId then none
      else latest.relation m other) : Sound (g.batchRelatedQuery rows) latest := by
  rw [MemoryGraph.batchRelatedQuery, foldl_mergeRelations hlinked hrows]
  refine ⟨hlinked.of_relatedTo _, fun m other => ?_⟩
  simp only [hrelated]
  split
  · rw [Option.or_none]
  · rfl

/-- A batch with distinct ids keeps the graph sound. -/
theorem Sound.writeMemoryBatch (h : Sound g latest) (hnodup : (rows.map GraphUpsert.memoryId).Nodup)
    (hfree : ∀ row ∈ rows, row.ColonFree) : Sound (g.writeMemoryBatch rows) (latest.after rows) := by
  have hafterFree : ∀ m row, latest.after rows m = some row → row.ColonFree := by
    intro m row hrow
    by_cases hm : m ∈ rows.map GraphUpsert.memoryId
    · obtain ⟨row', hrow', rfl⟩ := List.mem_map.mp hm
      rw [latest_after_of_mem hnodup hrow'] at hrow
      cases hrow
      exact hfree _ hrow'
    · rw [latest_after_of_notMem hm] at hrow
      exact h.colonFree m row hrow
  have hsource : ∀ m row, latest.after rows m = some row → row ∈ rows ∨ latest m = some row := by
    intro m row hrow
    by_cases hm : m ∈ rows.map GraphUpsert.memoryId
    · obtain ⟨row', hrow', rfl⟩ := List.mem_map.mp hm
      rw [latest_after_of_mem hnodup hrow'] at hrow
      cases hrow
      exact .inl hrow'
    · rw [latest_after_of_notMem hm] at hrow
      exact .inr hrow
  rw [writeMemoryBatch_eq]
  refine MemoryGraph.sound_batchRelatedQuery ?_ (fun row hrow => latest_after_of_mem hnodup hrow) ?_
  · constructor
    · intro m
      rw [Latest.after, map_write, List.map_map]
      exact congrFun (congrArg (write · _) (funext h.memories)) m
    · intro m key
      rw [Finset.mem_union, Finset.mem_filter, mem_edgesOf]
      simp only [mem_mentionEdges]
      exact edges_after hnodup GraphUpsert.entityKeys (h.mentions m key)
    · intro m key
      simp only [Finset.mem_union, Finset.mem_filter, mem_edgesOf, mem_hasMemoryEdges, h.hasMemory]
    · intro m key
      rw [Finset.mem_union, Finset.mem_filter, mem_edgesOf]
      simp only [mem_categoryEdges]
      exact edges_after hnodup GraphUpsert.categoryKeys (h.inCategory m key)
    · intro m row hrow e he
      refine anonymous_write hfree (hafterFree m row hrow) ?_
      exact (hsource m row hrow).imp (⟨·, he⟩) fun hold => h.entityNodes m row hold e he
    · intro m row hrow category hcategory
      refine category_write hfree (hafterFree m row hrow) ?_
      exact (hsource m row hrow).imp (⟨·, hcategory⟩) fun hold => h.categoryNodes m row hold category hcategory
    · exact hafterFree
  · intro m other
    by_cases hm : m ∈ rows.map GraphUpsert.memoryId
    · simp [hm]
    · by_cases hother : other ∈ rows.map GraphUpsert.memoryId
      · simp [hother]
      · simp only [hm, hother, if_false, or_self]
        rw [h.relatedTo, Latest.relation, Latest.relation, latest_after_of_notMem hm, latest_after_of_notMem hother]

end

end YiQiao
