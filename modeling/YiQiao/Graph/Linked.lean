import Mathlib.Data.Finset.Basic
import YiQiao.Graph.Queries
import YiQiao.Lib.Writes

/-!
# What the graph says of the memories

Each memory is known by its latest upsert. The graph is linked when its memories, mentions and categories are those of
the latest upserts, and related when its relations are too.
-/

namespace YiQiao

open Lib

/-! ## The latest upserts -/

namespace GraphUpsert

def node (row : GraphUpsert) : MemoryNode := ⟨row.text, row.projectId, row.scope⟩

def entityKeys (row : GraphUpsert) : List String :=
  row.entities.map fun e => entityNodeKey row.projectId e.kind e.norm

def categoryKeys (row : GraphUpsert) : List String := row.categories.map (categoryNodeKey row.projectId)

/-- The norms of the entities that memories share. -/
def norms (row : GraphUpsert) : Finset String :=
  ((row.entities.filter fun e => e.kind = .memory).map EntityRow.norm).toFinset

def ColonFree (row : GraphUpsert) : Prop := ':' ∉ row.projectId.toList

def entityWrites (row : GraphUpsert) : List (String × EntityNode) :=
  row.entities.map fun e => (entityNodeKey row.projectId e.kind e.norm, ⟨e.type, e.name, e.norm, e.kind, row.projectId⟩)

def categoryWrites (row : GraphUpsert) : List (String × CategoryNode) :=
  row.categories.map fun category => (categoryNodeKey row.projectId category, ⟨category, row.projectId⟩)

end GraphUpsert

/-- The latest upsert of each memory. -/
abbrev Latest := String → Option GraphUpsert

/-- The latest upserts after a batch. -/
def Latest.after (latest : Latest) (rows : List GraphUpsert) : Latest :=
  write latest (rows.map fun row => (row.memoryId, row))

/-- How two memories are related: they share a project, an entity and a scope. -/
def Latest.relation (latest : Latest) (m other : String) : Option Relation :=
  match latest m, latest other with
  | some row, some otherRow =>
      if m ≠ other ∧ row.projectId = otherRow.projectId ∧ row.scope.overlaps otherRow.scope = true ∧
          row.norms ∩ otherRow.norms ≠ ∅ then
        some ⟨row.norms ∩ otherRow.norms, (row.norms ∩ otherRow.norms).card⟩
      else none
  | _, _ => none

/-- An entity node without what a reader sees of it. -/
def EntityNode.anonymous (node : EntityNode) : EntityNode := { node with type := "", name := "" }

/-- The nodes and edges are those of the latest upserts. Nodes that nothing mentions may remain. -/
structure Linked (g : MemoryGraph) (latest : Latest) : Prop where
  memories : ∀ m, g.memories m = (latest m).map GraphUpsert.node
  mentions : ∀ m key, (m, key) ∈ g.mentions ↔ ∃ row, latest m = some row ∧ key ∈ row.entityKeys
  hasMemory : ∀ m key, (key, m) ∈ g.hasMemory ↔ (m, key) ∈ g.mentions
  inCategory : ∀ m key, (m, key) ∈ g.inCategory ↔ ∃ row, latest m = some row ∧ key ∈ row.categoryKeys
  entityNodes : ∀ m row, latest m = some row → ∀ e ∈ row.entities,
    (g.entities (entityNodeKey row.projectId e.kind e.norm)).map EntityNode.anonymous =
      some ⟨"", "", e.norm, e.kind, row.projectId⟩
  categoryNodes : ∀ m row, latest m = some row → ∀ category ∈ row.categories,
    g.categories (categoryNodeKey row.projectId category) = some ⟨category, row.projectId⟩
  colonFree : ∀ m row, latest m = some row → row.ColonFree

/-- The relations are those of the latest upserts. -/
structure Sound (g : MemoryGraph) (latest : Latest) : Prop extends Linked g latest where
  relatedTo : ∀ m other, g.relatedTo m other = latest.relation m other

/-! ## Relations -/

section

variable {g : MemoryGraph} {latest : Latest} {rows : List GraphUpsert} {row : GraphUpsert} {m other : String}

theorem GraphScope.overlaps_comm (s other : GraphScope) : s.overlaps other = other.overlaps s := by
  have hshared : ∀ a b : String, (a != "" && a == b) = (b != "" && b == a) := by
    intro a b
    by_cases h : a = b
    · rw [h]
    · rw [beq_false_of_ne h, beq_false_of_ne (Ne.symm h), Bool.and_false, Bool.and_false]
  rw [overlaps, overlaps, hshared s.userId, hshared s.agentId, hshared s.appId, hshared s.runId, Bool.and_comm (s.ids.all _)]

theorem Latest.relation_comm (latest : Latest) (m other : String) :
    latest.relation m other = latest.relation other m := by
  rw [relation, relation]
  cases latest m with
  | none => cases latest other <;> rfl
  | some row => cases latest other with
    | none => rfl
    | some otherRow =>
        simp only [Finset.inter_comm row.norms, GraphScope.overlaps_comm row.scope, ne_comm (a := m),
          eq_comm (a := row.projectId)]

theorem mem_norms {norm : String} : norm ∈ row.norms ↔ ∃ e ∈ row.entities, e.kind = .memory ∧ e.norm = norm := by
  simp [GraphUpsert.norms, and_assoc]

theorem mem_entityKeys {key : String} :
    key ∈ row.entityKeys ↔ ∃ e ∈ row.entities, entityNodeKey row.projectId e.kind e.norm = key := by
  simp [GraphUpsert.entityKeys]

theorem anonymous_eq {node : EntityNode} {norm projectId : String} {kind : EntityKind}
    (h : node.anonymous = ⟨"", "", norm, kind, projectId⟩) :
    node.norm = norm ∧ node.kind = kind ∧ node.projectId = projectId := by
  simp only [EntityNode.anonymous, EntityNode.mk.injEq, true_and] at h
  exact h

namespace Linked

/-- The node of an entity of a latest upsert. -/
theorem entityNode (h : Linked g latest) (hrow : latest m = some row) {e : EntityRow} (he : e ∈ row.entities) :
    ∃ node, g.entities (entityNodeKey row.projectId e.kind e.norm) = some node ∧ node.norm = e.norm ∧
      node.kind = e.kind ∧ node.projectId = row.projectId := by
  obtain ⟨node, hnode, hanonymous⟩ := Option.map_eq_some_iff.mp (h.entityNodes m row hrow e he)
  exact ⟨node, hnode, anonymous_eq hanonymous⟩

/-- The shared entities of two memories of a project. -/
theorem sharedNorms (h : Linked g latest) {otherRow : GraphUpsert} (hrow : latest m = some row)
    (hother : latest other = some otherRow) (hproject : row.projectId = otherRow.projectId) :
    g.sharedNorms m other = row.norms ∩ otherRow.norms := by
  ext norm
  simp only [MemoryGraph.sharedNorms, Finset.mem_image, Finset.mem_filter, Finset.mem_inter, mem_norms]
  constructor
  · rintro ⟨key, ⟨⟨m', key'⟩, ⟨hmention, rfl, hhas, hkind⟩, rfl⟩, rfl⟩
    obtain ⟨row', hrow', hkey⟩ := (h.mentions m' key').mp hmention
    rw [hrow] at hrow'
    cases hrow'
    obtain ⟨e, he, rfl⟩ := mem_entityKeys.mp hkey
    obtain ⟨node, hnode, hnorm, hkind', _⟩ := h.entityNode hrow he
    rw [hnode, Option.any_some, decide_eq_true_eq, hkind'] at hkind
    obtain ⟨otherRow', hother', hkey'⟩ := (h.mentions other _).mp ((h.hasMemory other _).mp hhas)
    rw [hother] at hother'
    cases hother'
    obtain ⟨e', he', hsame⟩ := mem_entityKeys.mp hkey'
    obtain ⟨_, hkinds, hnorms⟩ := entityNodeKey_inj (h.colonFree other _ hother) (h.colonFree _ row hrow) hsame
    rw [hnode, Option.elim_some, hnorm]
    exact ⟨⟨e, he, hkind, rfl⟩, e', he', hkinds.trans hkind, hnorms⟩
  · rintro ⟨⟨e, he, hkind, rfl⟩, e', he', hkind', hnorm'⟩
    obtain ⟨node, hnode, hnorm, hnodeKind, _⟩ := h.entityNode hrow he
    have hkey : entityNodeKey otherRow.projectId e'.kind e'.norm = entityNodeKey row.projectId e.kind e.norm := by
      rw [← hproject, hkind, hkind', hnorm']
    have hmention := (h.mentions m _).mpr ⟨row, hrow, mem_entityKeys.mpr ⟨e, he, rfl⟩⟩
    have hother' := (h.mentions other _).mpr ⟨otherRow, hother, mem_entityKeys.mpr ⟨e', he', hkey⟩⟩
    refine ⟨_, ⟨(m, _), ⟨hmention, rfl, (h.hasMemory other _).mpr hother', ?_⟩, rfl⟩, ?_⟩
    · rw [hnode, Option.any_some, hnodeKind]
      exact decide_eq_true hkind
    · rw [hnode, Option.elim_some, hnorm]

/-- What the query finds is the relation of the latest upserts. -/
theorem foundRelation (h : Linked g latest) (hrow : latest m = some row) :
    g.foundRelation row.projectId m other = latest.relation m other := by
  rw [MemoryGraph.foundRelation, Latest.relation, h.memories m, h.memories other, hrow]
  cases hother : latest other with
  | none => rfl
  | some otherRow =>
      simp only [Option.map_some, GraphUpsert.node]
      by_cases hproject : row.projectId = otherRow.projectId
      · rw [h.sharedNorms hrow hother hproject]
        refine if_congr ?_ rfl rfl
        simp [hproject, ne_comm]
      · rw [if_neg fun hc => hproject hc.2.1.symm, if_neg fun hc => hproject hc.2.1]

/-- The relations are not part of what is linked. -/
theorem of_relatedTo (h : Linked g latest) (relatedTo : String → String → Option Relation) :
    Linked { g with relatedTo := relatedTo } latest :=
  ⟨h.memories, h.mentions, h.hasMemory, h.inCategory, h.entityNodes, h.categoryNodes, h.colonFree⟩

end Linked

end

end YiQiao
