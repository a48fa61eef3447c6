import YiQiao.Memory.Search
import YiQiao.Server.Project

/-!
# The memory graph

Neo4j keeps a node for each memory, linked to the entities named in it. A search in the graph reads
only the four top-level identifiers of the filters, and it matches them literally.
-/

namespace YiQiao

open Lib

variable {S : Type}

structure GraphEntity where
  name : String
  norm : String
  projectId : String
  /-- `kind: 'memory'` -/
  ofMemory : Bool

/-- A memory node with the entities it has, and how many memories of its project it relates to. -/
structure GraphMemory where
  id : String
  text : String
  projectId : String
  ids : List (String × String)
  entities : List GraphEntity
  sharedDegree : Nat

/-- The graph. `Memory.id` is under a uniqueness constraint. -/
structure Graph where
  memories : List GraphMemory
  unique : (memories.map GraphMemory.id).Nodup

structure Related (S : Type) where
  id : String
  text : String
  boost : S

/-- What the graph search asks outside: the entities of a query, and the boost of a match. -/
structure GraphTools (S : Type) where
  queryNorms : String → List String
  boost : Nat → Nat → S

def graphIds : List String := ["user_id", "agent_id", "app_id", "run_id"]

/-- `$id IS NULL OR m.id = $id`. -/
def matchesGraphId (filters : Entries) (memory : GraphMemory) (key : String) : Bool :=
  match Payload.get filters key with
  | .null => true
  | .str s => memory.ids.lookup key == some s
  | _ => false

/-- The entity is one of the norms, or one of the two contains the other. -/
def matchesNorm (norms : List String) (e : GraphEntity) : Bool :=
  norms.any fun norm =>
    e.norm == norm ||
    (3 ≤ norm.length && decide (norm.toList <:+: e.norm.toList)) ||
    (3 ≤ e.norm.length && decide (e.norm.toList <:+: norm.toList))

/-- The entities of a memory that the query names. -/
def matchedEntities (project : ProjectId) (norms : List String) (memory : GraphMemory) :
    List GraphEntity :=
  memory.entities.filter fun e => e.projectId == project.text && e.ofMemory && matchesNorm norms e

def strength (norms : List String) (matched : List GraphEntity) : Nat :=
  (matched.map fun e => if e.norm ∈ norms then 2 else 1).sum

def hits (matched : List GraphEntity) : Nat := (matched.map GraphEntity.norm).dedup.length

/-- The rows of the graph query, strongest first. -/
def relatedRows (project : ProjectId) (norms : List String) (filters : Entries) (graph : Graph)
    (limit : Nat) : List (GraphMemory × List GraphEntity) :=
  let found := graph.memories.filter fun memory =>
    memory.projectId == project.text && !(matchedEntities project norms memory).isEmpty &&
      graphIds.all (matchesGraphId filters memory)
  let rows := found.map fun memory => (memory, matchedEntities project norms memory)
  let key := fun row : GraphMemory × List GraphEntity =>
    toLex (strength norms row.2, toLex (row.1.sharedDegree, hits row.2))
  topK (fun a b => key b ≤ key a) limit rows

/-- `related_memories`; without a graph nothing is related. -/
def relatedMemories (tools : GraphTools S) (graph : Option Graph) (query : String)
    (project : ProjectId) (filters : Entries) (limit : Nat) : List (Related S) :=
  match graph with
  | none => []
  | some graph =>
      let norms := tools.queryNorms query
      if norms.isEmpty then []
      else (relatedRows project norms filters graph limit).map fun row =>
        ⟨row.1.id, row.1.text, tools.boost (hits row.2) (min row.1.sharedDegree 5)⟩

theorem relatedMemories_nodup (tools : GraphTools S) (graph : Option Graph) (query : String)
    (project : ProjectId) (filters : Entries) (limit : Nat) :
    ((relatedMemories tools graph query project filters limit).map Related.id).Nodup := by
  cases graph with
  | none => exact List.nodup_nil
  | some graph =>
      simp only [relatedMemories]
      split
      · exact List.nodup_nil
      · rw [List.map_map]
        refine topK_map_nodup ?_
        rw [List.map_map]
        exact graph.unique.sublist (List.filter_sublist.map _)

end YiQiao
