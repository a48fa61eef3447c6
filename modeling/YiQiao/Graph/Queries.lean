import Mathlib.Data.Finset.Image
import Mathlib.Data.Finset.Card
import Mathlib.Logic.Function.Basic
import YiQiao.Graph.Rows

/-!
# The queries of the graph

The graph is its nodes under their keys and its relationships as sets. Each query of the source is one definition: what
it matches, merges and deletes. Times are left out, and a collected list is the set of its elements.
-/

namespace YiQiao

open Lib

structure MemoryNode where
  text : Option String
  projectId : String
  scope : GraphScope
  deriving DecidableEq, Repr

structure EntityNode where
  type : String
  name : String
  norm : String
  kind : EntityKind
  projectId : String
  deriving DecidableEq, Repr

structure CategoryNode where
  name : String
  projectId : String
  deriving DecidableEq, Repr

/-- The properties of `RELATED_TO`. -/
structure Relation where
  entities : Finset String
  weight : Nat
  deriving DecidableEq

@[ext]
structure MemoryGraph where
  memories : String → Option MemoryNode
  entities : String → Option EntityNode
  categories : String → Option CategoryNode
  /-- from a memory to an entity -/
  mentions : Finset (String × String)
  /-- from an entity to a memory -/
  hasMemory : Finset (String × String)
  /-- from a memory to a category -/
  inCategory : Finset (String × String)
  relatedTo : String → String → Option Relation

namespace MemoryGraph

def empty : MemoryGraph := ⟨fun _ => none, fun _ => none, fun _ => none, ∅, ∅, ∅, fun _ _ => none⟩

/-! ## Writing a memory -/

/-- `MERGE (m:Memory {id: row.memory_id}) SET ..` -/
def mergeMemory (g : MemoryGraph) (row : GraphUpsert) : MemoryGraph :=
  { g with memories := Function.update g.memories row.memoryId (some ⟨row.text, row.projectId, row.scope⟩) }

/-- `OPTIONAL MATCH (m)-[old_out:MENTIONS|IN_CATEGORY|RELATED_TO]->() DELETE old_out` -/
def deleteOutgoing (g : MemoryGraph) (ids : List String) : MemoryGraph :=
  { g with
    mentions := g.mentions.filter fun edge => edge.1 ∉ ids
    inCategory := g.inCategory.filter fun edge => edge.1 ∉ ids
    relatedTo := fun m other => if m ∈ ids then none else g.relatedTo m other }

/-- `OPTIONAL MATCH ()-[old_in:HAS_MEMORY|RELATED_TO]->(m) DELETE old_in` -/
def deleteIncoming (g : MemoryGraph) (ids : List String) : MemoryGraph :=
  { g with
    hasMemory := g.hasMemory.filter fun edge => edge.2 ∉ ids
    relatedTo := fun other m => if m ∈ ids then none else g.relatedTo other m }

/-- `MERGE (e:Entity {key: ..}) SET .. MERGE (m)-[:MENTIONS]->(e) MERGE (e)-[:HAS_MEMORY]->(m)` -/
def mergeEntity (row : GraphUpsert) (g : MemoryGraph) (entity : EntityRow) : MemoryGraph :=
  let key := entityNodeKey row.projectId entity.kind entity.norm
  { g with
    entities := Function.update g.entities key
      (some ⟨entity.type, entity.name, entity.norm, entity.kind, row.projectId⟩)
    mentions := insert (row.memoryId, key) g.mentions
    hasMemory := insert (key, row.memoryId) g.hasMemory }

/-- `MATCH (m:Memory {id: ..}) UNWIND row.entities AS entity ..` -/
def mergeEntities (g : MemoryGraph) (row : GraphUpsert) : MemoryGraph :=
  if (g.memories row.memoryId).isSome then row.entities.foldl (mergeEntity row) g else g

/-- `MERGE (c:Category {key: ..}) SET .. MERGE (m)-[:IN_CATEGORY]->(c)` -/
def mergeCategory (row : GraphUpsert) (g : MemoryGraph) (category : String) : MemoryGraph :=
  let key := categoryNodeKey row.projectId category
  { g with
    categories := Function.update g.categories key (some ⟨category, row.projectId⟩)
    inCategory := insert (row.memoryId, key) g.inCategory }

def mergeCategories (g : MemoryGraph) (row : GraphUpsert) : MemoryGraph :=
  if (g.memories row.memoryId).isSome then row.categories.foldl (mergeCategory row) g else g

/-- `(m)-[:MENTIONS]->(e:Entity {kind: 'memory'}), (e)-[:HAS_MEMORY]->(other)`, with `collect(DISTINCT e.norm)`. -/
def sharedNorms (g : MemoryGraph) (m other : String) : Finset String :=
  let shared := (g.mentions.filter fun edge => edge.1 = m ∧ (edge.2, other) ∈ g.hasMemory ∧
    (g.entities edge.2).any fun e => decide (e.kind = .memory)).image Prod.snd
  shared.image fun key => (g.entities key).elim "" EntityNode.norm

/-- The relation that the query finds from one memory to another of the project. -/
def foundRelation (g : MemoryGraph) (projectId m other : String) : Option Relation :=
  match g.memories m, g.memories other with
  | some node, some otherNode =>
      let norms := g.sharedNorms m other
      if node.projectId = projectId ∧ otherNode.projectId = projectId ∧ other ≠ m ∧
          node.scope.overlaps otherNode.scope = true ∧ norms ≠ ∅ then
        some ⟨norms, norms.card⟩
      else none
  | _, _ => none

/-- `MERGE (m)-[r:RELATED_TO]->(other) SET .. MERGE (other)-[r2:RELATED_TO]->(m) SET ..` -/
def mergeRelations (g : MemoryGraph) (row : GraphUpsert) : MemoryGraph :=
  { g with relatedTo := fun a b =>
      if a = row.memoryId then (g.foundRelation row.projectId a b).or (g.relatedTo a b)
      else if b = row.memoryId then (g.foundRelation row.projectId b a).or (g.relatedTo a b)
      else g.relatedTo a b }

/-- `upsert_memory`: four queries. -/
def upsertMemory (g : MemoryGraph) (row : GraphUpsert) : MemoryGraph :=
  if row.memoryId = "" then g
  else
    let g := ((g.mergeMemory row).deleteOutgoing [row.memoryId]).deleteIncoming [row.memoryId]
    ((g.mergeEntities row).mergeCategories row).mergeRelations row

/-- `_BATCH_MEMORY_QUERY`. -/
def batchMemoryQuery (g : MemoryGraph) (rows : List GraphUpsert) : MemoryGraph :=
  let ids := rows.map GraphUpsert.memoryId
  ((rows.foldl mergeMemory g).deleteOutgoing ids).deleteIncoming ids

/-- `_BATCH_ENTITY_QUERY`. -/
def batchEntityQuery (g : MemoryGraph) (rows : List GraphUpsert) : MemoryGraph := rows.foldl mergeEntities g

/-- `_BATCH_CATEGORY_QUERY`. -/
def batchCategoryQuery (g : MemoryGraph) (rows : List GraphUpsert) : MemoryGraph := rows.foldl mergeCategories g

/-- `_BATCH_RELATED_QUERY`. -/
def batchRelatedQuery (g : MemoryGraph) (rows : List GraphUpsert) : MemoryGraph := rows.foldl mergeRelations g

/-- `_write_memory_batch`. -/
def writeMemoryBatch (g : MemoryGraph) (rows : List GraphUpsert) : MemoryGraph :=
  (((g.batchMemoryQuery rows).batchEntityQuery rows).batchCategoryQuery rows).batchRelatedQuery rows

/-! ## Deleting -/

/-- `DETACH DELETE` of memories. -/
def detachMemories (g : MemoryGraph) (dead : String → Bool) : MemoryGraph :=
  { g with
    memories := fun m => if dead m then none else g.memories m
    mentions := g.mentions.filter fun edge => dead edge.1 = false
    hasMemory := g.hasMemory.filter fun edge => dead edge.2 = false
    inCategory := g.inCategory.filter fun edge => dead edge.1 = false
    relatedTo := fun m other => if dead m || dead other then none else g.relatedTo m other }

/-- The memory stands in the project. -/
def inProject (g : MemoryGraph) (projectId m : String) : Bool :=
  (g.memories m).any fun node => decide (node.projectId = projectId)

/-- `WHERE NOT (e)-[:HAS_MEMORY]->(:Memory {project_id: $project_id})` -/
def orphanEntity (g : MemoryGraph) (projectId key : String) : Bool :=
  ((g.entities key).any fun e => decide (e.projectId = projectId)) &&
    decide (∀ edge ∈ g.hasMemory, edge.1 = key → g.inProject projectId edge.2 = false)

/-- `WHERE NOT (:Memory {project_id: $project_id})-[:IN_CATEGORY]->(c)` -/
def orphanCategory (g : MemoryGraph) (projectId key : String) : Bool :=
  ((g.categories key).any fun c => decide (c.projectId = projectId)) &&
    decide (∀ edge ∈ g.inCategory, edge.2 = key → g.inProject projectId edge.1 = false)

def pruneEntities (g : MemoryGraph) (projectId : String) : MemoryGraph :=
  { g with
    entities := fun key => if g.orphanEntity projectId key then none else g.entities key
    mentions := g.mentions.filter fun edge => g.orphanEntity projectId edge.2 = false
    hasMemory := g.hasMemory.filter fun edge => g.orphanEntity projectId edge.1 = false }

def pruneCategories (g : MemoryGraph) (projectId : String) : MemoryGraph :=
  { g with
    categories := fun key => if g.orphanCategory projectId key then none else g.categories key
    inCategory := g.inCategory.filter fun edge => g.orphanCategory projectId edge.2 = false }

/-- `_prune_orphans`. -/
def pruneOrphans (g : MemoryGraph) (projectId : String) : MemoryGraph :=
  (g.pruneEntities projectId).pruneCategories projectId

def deleteMemory (g : MemoryGraph) (memoryId : String) : MemoryGraph :=
  let projectId := match g.memories memoryId with
    | some node => if node.projectId = "" then defaultProjectId else node.projectId
    | none => defaultProjectId
  (g.detachMemories fun m => m = memoryId).pruneOrphans projectId

/-- The filters of `delete_memories`. -/
structure GraphFilters where
  userId : Option String
  agentId : Option String
  appId : Option String
  runId : Option String

/-- `$user_id IS NULL OR m.user_id = $user_id`, and so on. -/
def GraphFilters.match (f : GraphFilters) (s : GraphScope) : Bool :=
  f.userId.all (· == s.userId) && f.agentId.all (· == s.agentId) && f.appId.all (· == s.appId) &&
    f.runId.all (· == s.runId)

def deleteMemories (g : MemoryGraph) (projectId : String) (filters : GraphFilters) : MemoryGraph :=
  (g.detachMemories fun m => (g.memories m).any fun node =>
    decide (node.projectId = projectId) && filters.match node.scope).pruneOrphans projectId

end MemoryGraph

/-! ## Requests -/

inductive GraphRequest where
  | upsertMemory (row : GraphRow)
  | upsertMemoriesBatch (rows : List GraphRow)
  | deleteMemory (memoryId : String)
  | deleteMemories (projectId : String) (filters : MemoryGraph.GraphFilters)

/-- The graph after a request whose queries succeed; a batch with an unnamed row is refused. -/
def GraphRequest.run (R : EntityReader) (P : Platform) (g : MemoryGraph) : GraphRequest → Except PyError MemoryGraph
  | .upsertMemory row => .ok (g.upsertMemory (row.prepare R P))
  | .upsertMemoriesBatch rows => do
      let prepared ← prepareMemoryBatch R P rows
      .ok (g.writeMemoryBatch prepared)
  | .deleteMemory memoryId => .ok (g.deleteMemory memoryId)
  | .deleteMemories projectId filters => .ok (g.deleteMemories projectId filters)

end YiQiao
