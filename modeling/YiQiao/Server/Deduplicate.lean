import Mathlib.Data.Int.ConditionallyCompleteOrder
import Mathlib.Data.Prod.Lex
import Mathlib.Data.String.Basic
import YiQiao.Lib.Condense
import YiQiao.Lib.Firsts
import YiQiao.Lib.TopK
import YiQiao.Memory.Additions
import YiQiao.Server.Ownership
import YiQiao.Server.Workspace

/-!
# Removing duplicates

`POST /memories/deduplicate` groups the memories of a project by scope and normalized text, keeps the oldest of each
group under the categories of all, and deletes the others. Whether the kept one is visible is not asked.
-/

namespace YiQiao

open Lib Fallible

variable {V S : Type}

/-! ## Exported memories -/

/-- What the dashboard asks of letters and of dates. -/
structure DashboardReader where
  /-- `str.casefold`. -/
  casefold : String → String
  /-- `_parse_datetime(value)[0].timestamp()` of a text that is a date. -/
  timestamp : String → Option ℤ

/-- What `_serialize` gives of a row, without what the deduplication does not read. -/
structure ExportedMemory where
  id : String
  memory : Value
  projectId : Value
  userId : Value
  agentId : Value
  appId : Value
  runId : Value
  categories : List String
  createdAt : Value
  expirationDate : Value

/-- `_normalize_categories` of the exports. -/
def exportCategories (P : Platform) (value : Value) : List String :=
  let values := match value with
    | .null => []
    | .list vs => vs
    | v => [v]
  firstsBy id ((values.filterMap fun v => match v with
    | .null => none
    | v => some (strip (v.pyStr P))).filter (· ≠ ""))

/-- `payload["metadata"]`, where it is an object. -/
def Payload.nested (payload : Payload) : Entries :=
  match Payload.get payload "metadata" with
  | .dict metadata => metadata
  | _ => []

/-- `_serialize`. -/
def serializeRow (P : Platform) (row : Row V) : ExportedMemory where
  id := row.id
  memory := Payload.get row.payload "data"
  projectId := exportProject row.payload
  userId := Payload.get row.payload "user_id"
  agentId := Payload.get row.payload "agent_id"
  appId := Payload.get row.payload "app_id"
  runId := Payload.get row.payload "run_id"
  categories := exportCategories P ((Payload.get row.payload "categories").orElse
    ((Payload.get row.payload "category").orElse ((Payload.get row.payload.nested "categories").orElse
      (Payload.get row.payload.nested "category"))))
  createdAt := Payload.get row.payload "created_at"
  expirationDate := Payload.get row.payload "expiration_date"

/-- `_all_memories`. -/
def allMemories (P : Platform) (t : Table V) (project : ProjectId) : Except PyError (List ExportedMemory) := do
  let rows ← Table.select P (exportFilters project) t.rows
  pure ((rows.map (serializeRow P)).filter fun m => m.projectId.isText project.text)

/-- `_payload_is_expired`. -/
def ExportedMemory.expired (P : Platform) (calendar : Calendar) (m : ExportedMemory) : Bool :=
  Payload.isExpired P calendar [("expiration_date", m.expirationDate)]

/-! ## Groups -/

structure DedupKey where
  agentId : String
  appId : String
  projectId : String
  runId : String
  userId : String
  text : String
  deriving DecidableEq, Repr

section

variable (W : Writer V S) (R : DashboardReader)

/-- The scope and the normalized text; there is none without a text. -/
def dedupKey (m : ExportedMemory) : Option DedupKey :=
  match m.memory with
  | .str text =>
      let normalized := W.normalizeMemoryText text
      if text = "" ∨ normalized = "" then none
      else some ⟨textOrEmpty W.platform m.agentId, textOrEmpty W.platform m.appId, textOrEmpty W.platform m.projectId,
        textOrEmpty W.platform m.runId, textOrEmpty W.platform m.userId, normalized⟩
  | _ => none

/-- `_sort_timestamp`; `-inf` is the bottom. -/
def sortTimestamp (m : ExportedMemory) : WithBot ℤ :=
  match m.createdAt with
  | .str text => if text = "" then ⊥ else match R.timestamp text with
    | some instant => instant
    | none => ⊥
  | _ => ⊥

/-- The key of the sorting within a group. -/
def ageKey (m : ExportedMemory) : WithBot ℤ ×ₗ String := toLex (sortTimestamp R m, m.id)

/-- `_duplicate_memory_groups`. -/
def duplicateMemoryGroups (rows : List ExportedMemory) : List (List ExportedMemory) :=
  let grouped := bucketed (rows.filterMap fun m => (dedupKey W m).map fun key => (key, m))
  (grouped.filter fun e => decide (2 ≤ e.2.length)).map fun e => ranked (fun a b => ageKey R a ≤ ageKey R b) e.2

/-- `_normalize_categories` of the router. -/
def normalizeCategories (values : List String) : List String :=
  firstsBy R.casefold ((values.map strip).filter (· ≠ ""))

/-- `_merged_group_categories`. -/
def mergedGroupCategories (group : List ExportedMemory) : List String :=
  normalizeCategories R (group.flatMap ExportedMemory.categories)

/-! ## The route -/

structure DedupResponse where
  scanned : Nat
  duplicateGroups : Nat
  removed : Nat
  failed : Nat
  deriving DecidableEq, Repr

variable (O : Providers V)

/-- `{"categories": merged_categories}`. -/
def categoriesPatch (categories : List String) : Object where
  entries := [("categories", .list (categories.map .str))]
  wf := by
    have hempty : (Value.dict []).WF := ⟨List.nodup_nil, trivial⟩
    exact hempty.set "categories" (texts_wf categories)

/-- One duplicate is deleted; the counts are those of the removed and of the failed. -/
def removeDuplicate (counts : Nat × Nat) (duplicate : ExportedMemory) : Op V (Nat × Nat) :=
  if duplicate.id = "" then pure counts
  else do
    match ← Effect.attempt (delete W O duplicate.id) with
    | .ok () => pure (counts.1 + 1, counts.2)
    | .error (.valueError _) => pure (counts.1 + 1, counts.2)
    | .error _ => pure (counts.1, counts.2 + 1)

/-- The survivor gets the categories of its group where they differ from its own. -/
def regroup [Score S] (group : List ExportedMemory) (survivor : ExportedMemory) : Op V Unit :=
  let merged := mergedGroupCategories R group
  if survivor.id ≠ "" ∧ merged ≠ normalizeCategories R survivor.categories then
    update W O ⟨survivor.id, none, some (categoriesPatch merged), none⟩
  else pure ()

def deduplicateGroup [Score S] (counts : Nat × Nat) (group : List ExportedMemory) : Op V (Nat × Nat) :=
  match group with
  | [] => pure counts
  | survivor :: duplicates => do
      regroup W R O group survivor
      Effect.loop (removeDuplicate W O) counts duplicates

/-- `deduplicate_memories`. -/
def deduplicateMemories [Score S] (project : ProjectId) : Op V DedupResponse := do
  let memories ← Effect.read fun s => s.memories
  let rows ← Effect.lift (allMemories W.platform memories project)
  let groups := duplicateMemoryGroups W R rows
  let counts ← Effect.loop (deduplicateGroup W R O) (0, 0) groups
  pure ⟨rows.length, groups.length, counts.1, counts.2⟩

end

/-! ## What a deduplication should leave -/

/-- The memories of the project after a deduplication, against those before it. -/
structure Deduplicated (W : Writer V S) (R : DashboardReader) (before after : List ExportedMemory) : Prop where
  distinct : ∀ m ∈ after, ∀ m' ∈ after, ∀ key, dedupKey W m = some key → dedupKey W m' = some key → m.id = m'.id
  visible : ∀ m ∈ before, ∀ key, dedupKey W m = some key → m.expired W.platform W.calendar = false →
    ∃ m' ∈ after, dedupKey W m' = some key ∧ m'.expired W.platform W.calendar = false
  kept : ∀ m ∈ before, m.id ∉ after.map ExportedMemory.id →
    ∃ key, dedupKey W m = some key ∧ ∃ m' ∈ after, dedupKey W m' = some key
  categories : ∀ m' ∈ after, ∀ key, dedupKey W m' = some key →
    (∀ c ∈ m'.categories, ∃ m ∈ before, dedupKey W m = some key ∧ c ∈ m.categories) ∧
    ∀ m ∈ before, dedupKey W m = some key → ∀ c ∈ m.categories, ∃ c' ∈ m'.categories, R.casefold c' = R.casefold c

/-- Where any memory of a scope and a text is visible, the oldest one is. -/
def OldestVisible (W : Writer V S) (R : DashboardReader) (memories : List ExportedMemory) : Prop :=
  ∀ key, ∀ m ∈ memories, dedupKey W m = some key → m.expired W.platform W.calendar = false →
    ∀ oldest ∈ memories, dedupKey W oldest = some key →
      (∀ m' ∈ memories, dedupKey W m' = some key → ageKey R oldest ≤ ageKey R m') →
      oldest.expired W.platform W.calendar = false

/-- What the head of a group becomes. -/
def regrouped (R : DashboardReader) (group : List ExportedMemory) (m : ExportedMemory) : ExportedMemory :=
  match group with
  | [] => m
  | survivor :: _ =>
      if mergedGroupCategories R group ≠ normalizeCategories R survivor.categories then
        { m with categories := mergedGroupCategories R group }
      else m

/-! ## The groups -/

section

variable {W : Writer V S} {R : DashboardReader} {memories group : List ExportedMemory} {m m' : ExportedMemory}
  {key : DedupKey}

instance : Std.Total fun a b : ExportedMemory => ageKey R a ≤ ageKey R b := ⟨fun _ _ => le_total _ _⟩

instance : IsTrans ExportedMemory fun a b => ageKey R a ≤ ageKey R b := ⟨fun _ _ _ => le_trans⟩

/-- The memories of a key, oldest first. -/
def ofDedupKey (W : Writer V S) (R : DashboardReader) (memories : List ExportedMemory) (key : DedupKey) :
    List ExportedMemory :=
  ranked (fun a b => ageKey R a ≤ ageKey R b) (ofKey key (memories.filterMap fun m => (dedupKey W m).map fun k => (k, m)))

theorem mem_ofDedupKey : m ∈ ofDedupKey W R memories key ↔ m ∈ memories ∧ dedupKey W m = some key := by
  rw [ofDedupKey, mem_ranked, mem_ofKey, List.mem_filterMap]
  constructor
  · rintro ⟨m', hm', hkey⟩
    obtain ⟨k, hk, hpair⟩ := Option.map_eq_some_iff.mp hkey
    cases hpair
    exact ⟨hm', hk⟩
  · rintro ⟨hm, hkey⟩
    exact ⟨m, hm, by rw [hkey]; rfl⟩

theorem mem_duplicateMemoryGroups : group ∈ duplicateMemoryGroups W R memories ↔
    ∃ key, group = ofDedupKey W R memories key ∧ 2 ≤ group.length := by
  simp only [duplicateMemoryGroups, List.mem_map, List.mem_filter, decide_eq_true_eq, Prod.exists, mem_bucketed]
  constructor
  · rintro ⟨key, bucket, ⟨⟨rfl, -⟩, hlength⟩, rfl⟩
    exact ⟨key, rfl, by rwa [length_ranked]⟩
  · rintro ⟨key, rfl, hlength⟩
    rw [ofDedupKey, length_ranked] at hlength
    refine ⟨key, _, ⟨⟨rfl, fun hnil => ?_⟩, hlength⟩, rfl⟩
    rw [hnil] at hlength
    simp at hlength

theorem ofKey_keyed (memories : List ExportedMemory) (key : DedupKey) :
    ofKey key (memories.filterMap fun m => (dedupKey W m).map fun k => (k, m)) =
      memories.filter fun m => dedupKey W m = some key := by
  induction memories with
  | nil => rfl
  | cons m memories ih =>
      cases hkey : dedupKey W m with
      | none => simpa [hkey] using ih
      | some k =>
          by_cases hk : k = key
          · subst hk
            simp [hkey, ofKey_cons_self, ih]
          · simp [hkey, ofKey_cons_of_ne hk, hk, ih]

theorem ofDedupKey_nodup (hids : (memories.map ExportedMemory.id).Nodup) (key : DedupKey) :
    ((ofDedupKey W R memories key).map ExportedMemory.id).Nodup := by
  rw [ofDedupKey, ((ranked_perm _).map ExportedMemory.id).nodup_iff, ofKey_keyed]
  exact hids.sublist (List.filter_sublist.map _)

/-- The oldest memory of a key is below the others. -/
theorem oldest_le {oldest : ExportedMemory} (h : (ofDedupKey W R memories key).head? = some oldest)
    (hm : m ∈ ofDedupKey W R memories key) : ageKey R oldest ≤ ageKey R m := by
  have hsorted : (ofDedupKey W R memories key).Pairwise fun a b => ageKey R a ≤ ageKey R b :=
    List.pairwise_insertionSort _ _
  cases hlist : ofDedupKey W R memories key with
  | nil => rw [hlist] at h; cases h
  | cons first rest =>
      rw [hlist] at h hm hsorted
      cases h
      rcases List.mem_cons.mp hm with rfl | hrest
      · exact le_refl _
      · exact List.rel_of_pairwise_cons hsorted hrest

end

/-! ## What condensing the groups leaves -/

section

variable {W : Writer V S} {R : DashboardReader} {memories group : List ExportedMemory} {m m' : ExportedMemory}
  {key : DedupKey}

@[simp] theorem regrouped_id (group : List ExportedMemory) (m : ExportedMemory) : (regrouped R group m).id = m.id := by
  unfold regrouped
  split
  · rfl
  · split <;> rfl

/-- A memory keeps its key and its date when its categories change. -/
theorem regrouped_key (group : List ExportedMemory) (m : ExportedMemory) :
    dedupKey W (regrouped R group m) = dedupKey W m ∧
      (regrouped R group m).expired W.platform W.calendar = m.expired W.platform W.calendar := by
  unfold regrouped
  split
  · exact ⟨rfl, rfl⟩
  · split <;> exact ⟨rfl, rfl⟩

theorem eq_of_exported_id (hids : (memories.map ExportedMemory.id).Nodup) (hm : m ∈ memories) (hm' : m' ∈ memories)
    (h : m.id = m'.id) : m = m' := List.inj_on_of_nodup_map hids hm hm' h

/-- Two groups have different heads. -/
theorem groups_heads (hids : (memories.map ExportedMemory.id).Nodup) :
    (duplicateMemoryGroups W R memories).Pairwise fun g g' =>
      g.head?.map ExportedMemory.id ≠ g'.head?.map ExportedMemory.id := by
  rw [duplicateMemoryGroups, List.pairwise_map]
  have hunique := bucketed_unique (memories.filterMap fun m => (dedupKey W m).map fun key => (key, m))
  rw [Dict.Unique, List.Nodup, List.pairwise_map] at hunique
  refine (List.Pairwise.sublist List.filter_sublist hunique).imp_of_mem ?_
  intro e e' he he' hne hheads
  obtain ⟨hbucket, hlength⟩ := List.mem_filter.mp he
  obtain ⟨hbucket', hlength'⟩ := List.mem_filter.mp he'
  obtain ⟨key, bucket⟩ := e
  obtain ⟨key', bucket'⟩ := e'
  obtain ⟨rfl, -⟩ := mem_bucketed.mp hbucket
  obtain ⟨rfl, -⟩ := mem_bucketed.mp hbucket'
  have hmem : ∀ k, 2 ≤ (ofDedupKey W R memories k).length → ∃ m, (ofDedupKey W R memories k).head? = some m ∧
      m ∈ memories ∧ dedupKey W m = some k := by
    intro k hk
    cases hlist : ofDedupKey W R memories k with
    | nil => rw [hlist] at hk; simp at hk
    | cons first rest =>
        refine ⟨first, rfl, ?_⟩
        rw [← @mem_ofDedupKey _ _ W R, hlist]
        exact List.mem_cons_self
  obtain ⟨m, hhead, hm, hkey⟩ := hmem key (by simpa [ofDedupKey] using hlength)
  obtain ⟨m', hhead', hm', hkey'⟩ := hmem key' (by simpa [ofDedupKey] using hlength')
  rw [ofDedupKey] at hhead hhead'
  rw [hhead, hhead', Option.map_some, Option.map_some, Option.some.injEq] at hheads
  obtain rfl := eq_of_exported_id hids hm hm' hheads
  exact hne (Option.some.inj (hkey.symm.trans hkey'))

/-- A memory with a key goes unless it is the oldest of its key. -/
theorem mem_surplus (hids : (memories.map ExportedMemory.id).Nodup) (hm : m ∈ memories) (hkey : dedupKey W m = some key) :
    m.id ∉ surplus ExportedMemory.id (duplicateMemoryGroups W R memories) ↔
      (ofDedupKey W R memories key).head? = some m := by
  have hnodup := @ofDedupKey_nodup _ _ W R memories hids key
  have hmem : m ∈ ofDedupKey W R memories key := mem_ofDedupKey.mpr ⟨hm, hkey⟩
  have hsurplus : m.id ∈ surplus ExportedMemory.id (duplicateMemoryGroups W R memories) ↔
      m ∈ (ofDedupKey W R memories key).tail := by
    rw [surplus, List.mem_flatMap]
    constructor
    · rintro ⟨group, hgroup, hid⟩
      obtain ⟨k, rfl, -⟩ := mem_duplicateMemoryGroups.mp hgroup
      obtain ⟨m', hm', hid⟩ := List.mem_map.mp hid
      obtain ⟨hmemories, hk⟩ := mem_ofDedupKey.mp (List.mem_of_mem_tail hm')
      obtain rfl := eq_of_exported_id hids hmemories hm hid
      obtain rfl := Option.some.inj (hk.symm.trans hkey)
      exact hm'
    · intro htail
      refine ⟨_, mem_duplicateMemoryGroups.mpr ⟨key, rfl, ?_⟩, List.mem_map_of_mem htail⟩
      have hpos := List.length_pos_of_mem htail
      rw [List.length_tail] at hpos
      omega
  rw [hsurplus]
  cases hlist : ofDedupKey W R memories key with
  | nil => rw [hlist] at hmem; cases hmem
  | cons first rest =>
      rw [hlist, List.map_cons, List.nodup_cons] at hnodup
      rw [hlist] at hmem
      rw [List.tail_cons, List.head?_cons, Option.some.injEq]
      constructor
      · intro hrest
        exact ((List.mem_cons.mp hmem).resolve_right hrest).symm
      · rintro rfl hrest
        exact hnodup.1 (List.mem_map_of_mem hrest)

end

/-! ## The memories that are left -/

section

variable {W : Writer V S} {R : DashboardReader} {memories group : List ExportedMemory} {m m' : ExportedMemory}
  {key : DedupKey}

/-- The memories with their groups condensed. -/
def condensed (W : Writer V S) (R : DashboardReader) (memories : List ExportedMemory) : List ExportedMemory :=
  condense ExportedMemory.id (regrouped R) memories (duplicateMemoryGroups W R memories)

theorem mem_of_head (h : (ofDedupKey W R memories key).head? = some m) : m ∈ memories ∧ dedupKey W m = some key :=
  mem_ofDedupKey.mp (List.mem_of_head? h)

/-- A memory alone under its key stays as it is. -/
theorem regrouped_singleton (m : ExportedMemory) : regrouped R [m] m = m := by
  simp [regrouped, mergedGroupCategories]

theorem foldl_settle_keyless (hids : (memories.map ExportedMemory.id).Nodup) (hm : m ∈ memories)
    (hkey : dedupKey W m = none) :
    (duplicateMemoryGroups W R memories).foldl (fun a g => settle ExportedMemory.id (regrouped R) g a) m = m := by
  apply foldl_settle_of_notMem
  intro g hg hhead
  obtain ⟨k, rfl, -⟩ := mem_duplicateMemoryGroups.mp hg
  obtain ⟨first, hfirst, hid⟩ := Option.map_eq_some_iff.mp hhead
  obtain ⟨hmemories, hk⟩ := mem_of_head hfirst
  obtain rfl := eq_of_exported_id hids hmemories hm hid
  rw [hkey] at hk
  cases hk

theorem foldl_settle_oldest (hids : (memories.map ExportedMemory.id).Nodup)
    (hhead : (ofDedupKey W R memories key).head? = some m) :
    (duplicateMemoryGroups W R memories).foldl (fun a g => settle ExportedMemory.id (regrouped R) g a) m =
      regrouped R (ofDedupKey W R memories key) m := by
  obtain ⟨hm, hkey⟩ := mem_of_head hhead
  by_cases hlength : 2 ≤ (ofDedupKey W R memories key).length
  · apply foldl_settle_of_mem regrouped_id (groups_heads hids)
    · exact mem_duplicateMemoryGroups.mpr ⟨key, rfl, hlength⟩
    · rw [hhead]
      rfl
  · have hsingle : ofDedupKey W R memories key = [m] := by
      cases hlist : ofDedupKey W R memories key with
      | nil => rw [hlist] at hhead; cases hhead
      | cons first rest =>
          rw [hlist] at hhead hlength
          cases hhead
          cases rest with
          | nil => rfl
          | cons second rest => exact absurd (Nat.le_add_left 2 rest.length) hlength
    rw [hsingle, regrouped_singleton]
    apply foldl_settle_of_notMem
    intro g hg hsame
    obtain ⟨k, rfl, hlong⟩ := mem_duplicateMemoryGroups.mp hg
    obtain ⟨first, hfirst, hid⟩ := Option.map_eq_some_iff.mp hsame
    obtain ⟨hmemories, hk⟩ := mem_of_head hfirst
    obtain rfl := eq_of_exported_id hids hmemories hm hid
    obtain rfl := Option.some.inj (hk.symm.trans hkey)
    exact hlength hlong

theorem mem_condensed (hids : (memories.map ExportedMemory.id).Nodup) : m' ∈ condensed W R memories ↔
    (m' ∈ memories ∧ dedupKey W m' = none) ∨
      ∃ key m, (ofDedupKey W R memories key).head? = some m ∧ m' = regrouped R (ofDedupKey W R memories key) m := by
  rw [condensed, condense_eq regrouped_id, List.mem_map]
  simp only [List.mem_filter, decide_eq_true_eq]
  constructor
  · rintro ⟨m, ⟨hm, hstays⟩, rfl⟩
    cases hkey : dedupKey W m with
    | none =>
        rw [foldl_settle_keyless hids hm hkey]
        exact .inl ⟨hm, hkey⟩
    | some key =>
        have hhead := (mem_surplus hids hm hkey).mp hstays
        exact .inr ⟨key, m, hhead, foldl_settle_oldest hids hhead⟩
  · rintro (⟨hm, hkey⟩ | ⟨key, m, hhead, rfl⟩)
    · refine ⟨m', ⟨hm, fun hsurplus => ?_⟩, foldl_settle_keyless hids hm hkey⟩
      obtain ⟨group, hgroup, hid⟩ := List.mem_flatMap.mp hsurplus
      obtain ⟨k, rfl, -⟩ := mem_duplicateMemoryGroups.mp hgroup
      obtain ⟨other, hother, hid⟩ := List.mem_map.mp hid
      obtain ⟨hmemories, hk⟩ := mem_ofDedupKey.mp (List.mem_of_mem_tail hother)
      obtain rfl := eq_of_exported_id hids hmemories hm hid
      rw [hkey] at hk
      cases hk
    · obtain ⟨hm, hkey⟩ := mem_of_head hhead
      exact ⟨m, ⟨hm, (mem_surplus hids hm hkey).mpr hhead⟩, foldl_settle_oldest hids hhead⟩

/-- What is left under a key is its oldest memory. -/
theorem condensed_key (hids : (memories.map ExportedMemory.id).Nodup) (hm' : m' ∈ condensed W R memories)
    (hkey : dedupKey W m' = some key) : ∃ m, (ofDedupKey W R memories key).head? = some m ∧
      m' = regrouped R (ofDedupKey W R memories key) m := by
  rcases (mem_condensed hids).mp hm' with ⟨-, hnone⟩ | ⟨k, m, hhead, rfl⟩
  · rw [hnone] at hkey
    cases hkey
  · rw [(regrouped_key _ m).1, (mem_of_head hhead).2] at hkey
    cases hkey
    exact ⟨m, hhead, rfl⟩

/-- Every key of the memories has an oldest memory, and that is left. -/
theorem condensed_oldest (hids : (memories.map ExportedMemory.id).Nodup) (hm : m ∈ memories)
    (hkey : dedupKey W m = some key) : ∃ oldest, (ofDedupKey W R memories key).head? = some oldest ∧
      regrouped R (ofDedupKey W R memories key) oldest ∈ condensed W R memories := by
  have hmem : m ∈ ofDedupKey W R memories key := mem_ofDedupKey.mpr ⟨hm, hkey⟩
  cases hhead : (ofDedupKey W R memories key).head? with
  | none =>
      rw [List.head?_eq_none_iff] at hhead
      rw [hhead] at hmem
      cases hmem
  | some oldest => exact ⟨oldest, rfl, (mem_condensed hids).mpr (.inr ⟨key, oldest, hhead, rfl⟩)⟩

/-! ### Categories -/

/-- The categories are texts without blanks around them. -/
def ExportedMemory.Tidied (m : ExportedMemory) : Prop := ∀ c ∈ m.categories, strip c = c ∧ c ≠ ""

theorem mem_normalizeCategories {values : List String} (htidy : ∀ c ∈ values, strip c = c ∧ c ≠ "") {c : String}
    (hc : c ∈ normalizeCategories R values) : c ∈ values := by
  obtain ⟨hmap, -⟩ := List.mem_filter.mp ((firstsBy_sublist _).subset hc)
  obtain ⟨given, hgiven, rfl⟩ := List.mem_map.mp hmap
  rwa [(htidy given hgiven).1]

/-- Every category stands among the normalized ones, up to case. -/
theorem normalizeCategories_covers {values : List String} (htidy : ∀ c ∈ values, strip c = c ∧ c ≠ "") {c : String}
    (hc : c ∈ values) : ∃ c' ∈ normalizeCategories R values, R.casefold c' = R.casefold c := by
  have hmem : c ∈ (values.map strip).filter (· ≠ "") := by
    rw [List.mem_filter, List.mem_map]
    exact ⟨⟨c, hc, (htidy c hc).1⟩, by simpa using (htidy c hc).2⟩
  obtain ⟨c', hc', hfold⟩ := List.mem_map.mp (@key_mem_firstsBy _ _ _ R.casefold _ _ hmem)
  exact ⟨c', hc', hfold⟩

theorem regrouped_categories (htidy : ∀ m ∈ group, m.Tidied) (hhead : group.head? = some m) :
    (∀ c ∈ (regrouped R group m).categories, ∃ m' ∈ group, c ∈ m'.categories) ∧
      ∀ m' ∈ group, ∀ c ∈ m'.categories, ∃ c' ∈ (regrouped R group m).categories, R.casefold c' = R.casefold c := by
  have hall : ∀ c ∈ group.flatMap ExportedMemory.categories, strip c = c ∧ c ≠ "" := by
    intro c hc
    obtain ⟨m', hm', hc⟩ := List.mem_flatMap.mp hc
    exact htidy m' hm' c hc
  cases group with
  | nil => cases hhead
  | cons survivor rest =>
      cases hhead
      rw [regrouped]
      split
      · constructor
        · intro c hc
          exact List.mem_flatMap.mp (mem_normalizeCategories hall hc)
        · intro m' hm' c hc
          exact normalizeCategories_covers hall (List.mem_flatMap.mpr ⟨m', hm', hc⟩)
      · rename_i hsame
        constructor
        · intro c hc
          exact ⟨m, List.mem_cons_self, hc⟩
        · intro m' hm' c hc
          have hcovers := @normalizeCategories_covers R _ hall c (List.mem_flatMap.mpr ⟨m', hm', hc⟩)
          rw [← mergedGroupCategories, not_not.mp hsame] at hcovers
          obtain ⟨c', hc', hfold⟩ := hcovers
          exact ⟨c', mem_normalizeCategories (htidy m List.mem_cons_self) hc', hfold⟩

/-- Condensing deduplicates exactly where the oldest memories are visible. -/
theorem condensed_iff (hids : (memories.map ExportedMemory.id).Nodup) (htidy : ∀ m ∈ memories, m.Tidied) :
    Deduplicated W R memories (condensed W R memories) ↔ OldestVisible W R memories := by
  constructor
  · intro h key m hm hkey hvisible oldest holdest hkeyOldest hfirst
    obtain ⟨m', hm', hkey', hvisible'⟩ := h.visible m hm key hkey hvisible
    obtain ⟨first, hhead, rfl⟩ := condensed_key hids hm' hkey'
    obtain ⟨hmem, hkeyFirst⟩ := mem_of_head hhead
    have hage : ageKey R first = ageKey R oldest :=
      le_antisymm (oldest_le hhead (mem_ofDedupKey.mpr ⟨holdest, hkeyOldest⟩)) (hfirst first hmem hkeyFirst)
    have hid : first.id = oldest.id := congrArg (fun k => (ofLex k).2) hage
    rwa [← eq_of_exported_id hids hmem holdest hid, ← (regrouped_key (ofDedupKey W R memories key) first).2]
  · intro h
    constructor
    · intro m₁ hm₁ m₂ hm₂ key hkey₁ hkey₂
      obtain ⟨first, hhead, rfl⟩ := condensed_key hids hm₁ hkey₁
      obtain ⟨first', hhead', rfl⟩ := condensed_key hids hm₂ hkey₂
      rw [Option.some.inj (hhead.symm.trans hhead')]
    · intro m hm key hkey hvisible
      obtain ⟨oldest, hhead, hleft⟩ := @condensed_oldest _ _ W R _ _ _ hids hm hkey
      obtain ⟨holdest, hkeyOldest⟩ := mem_of_head hhead
      obtain ⟨hsame, hexpired⟩ := @regrouped_key _ _ W R (ofDedupKey W R memories key) oldest
      refine ⟨_, hleft, hsame.trans hkeyOldest, hexpired.trans ?_⟩
      apply h key m hm hkey hvisible oldest holdest hkeyOldest
      intro other hother hkeyOther
      exact oldest_le hhead (mem_ofDedupKey.mpr ⟨hother, hkeyOther⟩)
    · intro m hm hgone
      cases hkey : dedupKey W m with
      | none => exact absurd (List.mem_map_of_mem ((mem_condensed hids).mpr (.inl ⟨hm, hkey⟩))) hgone
      | some key =>
          obtain ⟨oldest, hhead, hleft⟩ := @condensed_oldest _ _ W R _ _ _ hids hm hkey
          exact ⟨key, rfl, _, hleft, (regrouped_key _ oldest).1.trans (mem_of_head hhead).2⟩
    · intro m' hm' key hkey
      obtain ⟨oldest, hhead, rfl⟩ := condensed_key hids hm' hkey
      obtain ⟨hfrom, hcovers⟩ := @regrouped_categories R (ofDedupKey W R memories key) oldest
        (fun m hm => htidy m (mem_ofDedupKey.mp hm).1) hhead
      constructor
      · intro c hc
        obtain ⟨m, hm, hcm⟩ := hfrom c hc
        exact ⟨m, (mem_ofDedupKey.mp hm).1, (mem_ofDedupKey.mp hm).2, hcm⟩
      · intro m hm hkeyM
        exact hcovers m (mem_ofDedupKey.mpr ⟨hm, hkeyM⟩)

end

/-! ## The rows of the project -/

/-- The row is one that `_all_memories` returns. -/
def exportsRow (P : Platform) (project : ProjectId) (payload : Payload) : Bool :=
  (decide (project.text = defaultProjectId) || idMatches P payload "project_id" project.text) &&
    (exportProject payload).isText project.text

def listedMemories (P : Platform) (project : ProjectId) (t : Table V) : List ExportedMemory :=
  (t.rows.filter fun row => exportsRow P project row.payload).map (serializeRow P)

section

variable {P : Platform} {project : ProjectId} {t : Table V}

theorem allMemories_eq : allMemories P t project = .ok (listedMemories P project t) := by
  have hselect : Table.select P (exportFilters project) t.rows = .ok (t.rows.filter fun row =>
      decide (project.text = defaultProjectId) || idMatches P row.payload "project_id" project.text) := by
    by_cases h : project.text = defaultProjectId
    · have hfilters : exportFilters project = idFilters [] := by rw [exportFilters, if_pos h]; rfl
      rw [hfilters, select_ids (by simp)]
      simp [h]
    · have hfilters : exportFilters project = idFilters [("project_id", project.text)] := by
        rw [exportFilters, if_neg h]
        rfl
      rw [hfilters, select_ids (by simp)]
      simp [h]
  rw [allMemories, hselect]
  change Except.ok _ = Except.ok _
  rw [List.filter_map, List.filter_filter, listedMemories]
  congr 2
  refine List.filter_congr fun row _ => ?_
  rw [exportsRow, Bool.and_comm]
  rfl

theorem listed_ids : ((listedMemories P project t).map ExportedMemory.id).Nodup := by
  rw [listedMemories, List.map_map]
  exact t.unique.sublist (List.filter_sublist.map _)

theorem listed_named {m : ExportedMemory} (hm : m ∈ listedMemories P project t) : m.id ≠ "" := by
  obtain ⟨row, hrow, rfl⟩ := List.mem_map.mp hm
  exact t.named row (List.mem_of_mem_filter hrow)

theorem serializeRow_tidied (row : Row V) : (serializeRow P row).Tidied := by
  intro c hc
  obtain ⟨hmem, hne⟩ := List.mem_filter.mp ((firstsBy_sublist _).subset hc)
  obtain ⟨v, -, hv⟩ := List.mem_filterMap.mp hmem
  cases v with
  | null => cases hv
  | _ => cases hv; exact ⟨strip_strip _, by simpa using hne⟩

theorem serializeRow_nodup (row : Row V) : (serializeRow P row).categories.Nodup := (firstsBy_nodup _).of_map _

theorem listed_tidied {m : ExportedMemory} (hm : m ∈ listedMemories P project t) : m.Tidied := by
  obtain ⟨row, -, rfl⟩ := List.mem_map.mp hm
  exact serializeRow_tidied row

/-- A row that is rewritten and stays in the project shows in its place. -/
theorem listed_update {row : Row V} {vector : Option V} {payload : Payload} {f : ExportedMemory → ExportedMemory}
    (hrow : row ∈ t.rows) (howned : exportsRow P project payload = exportsRow P project row.payload)
    (hself : serializeRow P (Table.updateRow vector (some payload) row) = f (serializeRow P row))
    (hothers : ∀ m, m.id ≠ row.id → f m = m) :
    listedMemories P project (t.update row.id vector (some payload)) = (listedMemories P project t).map f := by
  rw [listedMemories, listedMemories, Table.rows_update, List.filter_map, List.map_map, List.map_map]
  have hfilter : ∀ r ∈ t.rows, exportsRow P project
      (if r.id = row.id then Table.updateRow vector (some payload) r else r).payload =
        exportsRow P project r.payload := by
    intro r hr
    by_cases hsame : r.id = row.id
    · obtain rfl := Table.eq_of_id hr hrow hsame
      rw [if_pos rfl]
      exact howned
    · rw [if_neg hsame]
  refine (congrArg (List.map _) (List.filter_congr hfilter)).trans ?_
  refine List.map_congr_left fun r hr => ?_
  by_cases hsame : r.id = row.id
  · obtain rfl := Table.eq_of_id (List.mem_of_mem_filter hr) hrow hsame
    rw [Function.comp_apply, Function.comp_apply, if_pos rfl, hself]
  · rw [Function.comp_apply, Function.comp_apply, if_neg hsame]
    exact (hothers _ hsame).symm

theorem listed_filter {t' : Table V} {p : String → Bool} (h : t'.rows = t.rows.filter fun row => p row.id) :
    listedMemories P project t' = (listedMemories P project t).filter fun m => p m.id := by
  rw [listedMemories, listedMemories, h, List.filter_map, List.filter_filter, List.filter_filter]
  congr 1
  exact List.filter_congr fun row _ => Bool.and_comm _ _

end

/-! ## The operations on the rows -/

section

variable {W : Writer V S} {O : Providers V} {s s' : MemoryState V}

theorem deleteRow_run {row : Row V} {r : Except PyError Unit} (h : (deleteRow W O row).run s = (r, s')) :
    (∃ e, r = .error e ∧ normalizeTimestamp W (Payload.get row.payload "created_at") = .error e) ∨
      s'.memories = s.memories.delete row.id := by
  rw [deleteRow, Effect.run_bind, Effect.run_lift] at h
  cases hcreated : normalizeTimestamp W (Payload.get row.payload "created_at") with
  | error e =>
      rw [hcreated] at h
      cases h
      exact .inl ⟨e, rfl, rfl⟩
  | ok createdAt =>
      right
      rw [hcreated] at h
      dsimp only at h
      rw [Effect.run_bind_modify] at h
      have hwithin := Effect.Within.bind (addHistory_within (historyRecord row.id "DELETE"
        ((row.payload.lookup "data").getD (.str "")) .null createdAt (.str O.now) true row.payload)) (fun _ =>
        removeMemoryFromEntityStore_within W.platform O row.id (sessionScope row.payload))
        { s with memories := s.memories.delete row.id }
      rw [h] at hwithin
      exact hwithin

theorem normalizeTimestamp_error {v : Value} {e : PyError} (h : normalizeTimestamp W v = .error e) : e = .typeError := by
  unfold normalizeTimestamp at h
  split at h
  · cases v <;> cases h <;> rfl
  · cases h

/-- A deletion that returned, or found nothing, leaves the other rows. -/
theorem delete_rows {id : String} {r : Except PyError Unit} (h : (delete W O id).run s = (r, s'))
    (hr : r = .ok () ∨ ∃ message, r = .error (.valueError message)) :
    s'.memories.rows = s.memories.rows.filter fun row => decide (row.id ≠ id) := by
  simp only [delete, getMemory, Effect.run_bind_read] at h
  cases hget : s.memories.get id with
  | none =>
      rw [hget] at h
      cases h
      symm
      rw [List.filter_eq_self]
      intro row hrow
      simpa using List.find?_eq_none.mp hget row hrow
  | some row =>
      rw [hget] at h
      have hid := (Table.get_mem hget).2
      rcases deleteRow_run h with ⟨e, rfl, hcreated⟩ | hmemories
      · rw [normalizeTimestamp_error hcreated] at hr
        rcases hr with hok | ⟨message, hvalue⟩
        · cases hok
        · cases hvalue
      · rw [hmemories, Table.rows_delete, hid]

theorem removeDuplicate_ok {P : Platform} {project : ProjectId} {counts counts' : Nat × Nat} {duplicate : ExportedMemory}
    (h : (removeDuplicate W O counts duplicate).run s = (.ok counts', s')) :
    counts.2 ≤ counts'.2 ∧ (counts'.2 = counts.2 → listedMemories P project s'.memories =
      (listedMemories P project s.memories).filter fun m => decide (m.id ≠ duplicate.id)) := by
  rw [removeDuplicate] at h
  split at h
  · rename_i hempty
    cases h
    refine ⟨le_refl _, fun _ => ?_⟩
    symm
    rw [List.filter_eq_self]
    intro m hm
    simpa [hempty] using listed_named hm
  · rw [Effect.run_bind_attempt] at h
    cases hdelete : (delete W O duplicate.id).run s with
    | mk r s₁ =>
        rw [hdelete] at h
        have hlisted : (r = .ok () ∨ ∃ message, r = .error (.valueError message)) →
            listedMemories P project s₁.memories =
              (listedMemories P project s.memories).filter fun m => decide (m.id ≠ duplicate.id) :=
          fun hr => @listed_filter _ _ _ _ _ (fun id => decide (id ≠ duplicate.id)) (delete_rows hdelete hr)
        dsimp only at h
        split at h
        · cases h
          exact ⟨le_refl _, fun _ => hlisted (.inl rfl)⟩
        · cases h
          exact ⟨le_refl _, fun _ => hlisted (.inr ⟨_, rfl⟩)⟩
        · cases h
          refine ⟨Nat.le_succ _, fun hsame => ?_⟩
          exact absurd hsame (Nat.succ_ne_self _)

theorem removeDuplicates_ok {P : Platform} {project : ProjectId} {counts counts' : Nat × Nat}
    {duplicates : List ExportedMemory}
    (h : (Effect.loop (removeDuplicate W O) counts duplicates).run s = (.ok counts', s')) :
    counts.2 ≤ counts'.2 ∧ (counts'.2 = counts.2 → listedMemories P project s'.memories =
      (listedMemories P project s.memories).filter fun m => decide (m.id ∉ duplicates.map ExportedMemory.id)) := by
  refine Effect.loop_ok (I := fun done c t => counts.2 ≤ c.2 ∧ (c.2 = counts.2 → listedMemories P project t.memories =
    (listedMemories P project s.memories).filter fun m => decide (m.id ∉ done.map ExportedMemory.id))) h ?_ ?_
  · refine ⟨le_refl _, fun _ => ?_⟩
    simp
  · intro done duplicate rest c t c' t' _ hI hstep
    obtain ⟨hle, hlisted⟩ := @removeDuplicate_ok _ _ W O t t' P project c c' duplicate hstep
    refine ⟨hI.1.trans hle, fun hsame => ?_⟩
    have hc : c.2 = counts.2 := le_antisymm (hsame ▸ hle) hI.1
    rw [hlisted (hsame.trans hc.symm), hI.2 hc, List.filter_filter]
    refine List.filter_congr fun m _ => ?_
    rw [← Bool.decide_and, decide_eq_decide, List.map_append, List.mem_append, not_or]
    simp [and_comm]

end

/-! ## The survivor -/

section

variable {W : Writer V S} {O : Providers V} {R : DashboardReader} {s s' : MemoryState V} {P : Platform}
  {project : ProjectId}

/-- What an update does not write itself is as the metadata has it, else as it was. -/
theorem updatedPayload_lookup {now text key : String} {metadata : Option Entries} {embedded : Bool} {old : Payload}
    (hk : key ∉ ["embedding_status", "actor_id", "updated_at", "created_at", "data", "hash", "text_lemmatized",
      "_allowed_categories"]) :
    (updatedPayload W now text metadata embedded old).lookup key = (Dict.update old (metadata.getD [])).lookup key := by
  simp only [List.mem_cons, List.not_mem_nil, or_false, not_or] at hk
  obtain ⟨hstatus, hactor, hupdated, hcreated, hdata, hhash, hlemmas, hallowed⟩ := hk
  rw [updatedPayload_eq, settleStatus_lookup hstatus, keepActor_lookup hactor, Dict.lookup_set_of_ne hupdated,
    Dict.lookup_set_of_ne hcreated]
  simp [derivedTextPayload, Dict.update, Dict.lookup_set, Dict.lookup_erase, hdata, hhash, hlemmas, hallowed]

theorem exportCategories_texts {categories : List String} (htidy : ∀ c ∈ categories, strip c = c ∧ c ≠ "")
    (hnodup : categories.Nodup) : exportCategories P (.list (categories.map .str)) = categories := by
  have hstripped : (categories.map Value.str).filterMap (fun v => match v with
      | .null => none
      | v => some (strip (v.pyStr P))) = categories := by
    rw [List.filterMap_map]
    have hsame : categories.filterMap some = categories := List.filterMap_some
    conv_rhs => rw [← hsame]
    exact List.filterMap_congr fun c hc => congrArg some (htidy c hc).1
  have hkept : categories.filter (· ≠ "") = categories := by
    rw [List.filter_eq_self]
    intro c hc
    simpa using (htidy c hc).2
  simp only [exportCategories]
  rw [hstripped, hkept]
  exact firstsBy_of_nodup (by rwa [List.map_id])

theorem normalizeCategories_tidied (values : List String) :
    (∀ c ∈ normalizeCategories R values, strip c = c ∧ c ≠ "") ∧ (normalizeCategories R values).Nodup := by
  constructor
  · intro c hc
    obtain ⟨hmap, hne⟩ := List.mem_filter.mp ((firstsBy_sublist _).subset hc)
    obtain ⟨given, -, rfl⟩ := List.mem_map.mp hmap
    exact ⟨strip_strip given, by simpa using hne⟩
  · exact (@firstsBy_nodup _ _ _ R.casefold _).of_map _

/-- A patched row shows the new categories, and nothing else of it changes. -/
theorem patched_serialize {row : Row V} {text now : String} {embedded : Bool} {vector : Option V}
    {categories : List String} (hne : categories ≠ []) (htidy : ∀ c ∈ categories, strip c = c ∧ c ≠ "")
    (hnodup : categories.Nodup) (htext : Payload.get row.payload "data" = .str text) :
    let payload := updatedPayload W now text (some (categoriesPatch categories).entries) embedded row.payload
    exportsRow P project payload = exportsRow P project row.payload ∧
      serializeRow P (Table.updateRow vector (some payload) row) =
        { serializeRow P row with categories := categories } := by
  have hunique : Dict.Unique (categoriesPatch categories).entries := (categoriesPatch categories).wf.1
  have hlookup : ∀ key, key ∉ ["embedding_status", "actor_id", "updated_at", "created_at", "data", "hash",
      "text_lemmatized", "_allowed_categories", "categories"] →
      (updatedPayload W now text (some (categoriesPatch categories).entries) embedded row.payload).lookup key =
        row.payload.lookup key := by
    intro key hk
    have hne : key ≠ "categories" := by
      rintro rfl
      exact hk (by decide)
    have hb : (key == "categories") = false := by simpa using hne
    rw [updatedPayload_lookup fun hmem => hk (List.mem_append_left ["categories"] hmem), Option.getD_some,
      Dict.lookup_update _ hunique]
    simp [categoriesPatch, List.lookup_cons, hb]
  have hget : ∀ key, key ∉ ["embedding_status", "actor_id", "updated_at", "created_at", "data", "hash",
      "text_lemmatized", "_allowed_categories", "categories"] →
      Payload.get (updatedPayload W now text (some (categoriesPatch categories).entries) embedded row.payload) key =
        Payload.get row.payload key := by
    intro key hk
    rw [Payload.get, hlookup key hk, Payload.get]
  have hcategories : Payload.get (updatedPayload W now text (some (categoriesPatch categories).entries) embedded
      row.payload) "categories" = .list (categories.map .str) := by
    rw [Payload.get, updatedPayload_lookup (by decide), Option.getD_some, Dict.lookup_update _ hunique]
    rfl
  have hdata : Payload.get (updatedPayload W now text (some (categoriesPatch categories).entries) embedded
      row.payload) "data" = Payload.get row.payload "data" := by
    rw [Payload.get, (textFields_of_agrees updatedPayload_agrees).1, htext]
    rfl
  have htruthy : (Value.list (categories.map .str)).truthy = true := by simp [Value.truthy, hne]
  constructor
  · simp only [exportsRow, exportProject, idMatches, Payload.text, hlookup "project_id" (by decide),
      hget "project_id" (by decide), hget "metadata" (by decide)]
  · simp only [serializeRow, Table.updateRow, Option.getD_some, exportProject, Payload.nested, updatedPayload_createdAt,
      hget "project_id" (by decide), hget "metadata" (by decide), hget "user_id" (by decide),
      hget "agent_id" (by decide), hget "app_id" (by decide), hget "run_id" (by decide), hget "category" (by decide),
      hget "expiration_date" (by decide), hcategories, hdata, Value.orElse, htruthy, if_true,
      exportCategories_texts htidy hnodup]

end

/-! ## The run -/

section

variable [Score S] {W : Writer V S} {O : Providers V} {R : DashboardReader} {s s' : MemoryState V} {P : Platform}
  {project : ProjectId}

theorem mergedGroupCategories_ne_nil {survivor : ExportedMemory} {duplicates : List ExportedMemory}
    (h : mergedGroupCategories R (survivor :: duplicates) ≠ normalizeCategories R survivor.categories) :
    mergedGroupCategories R (survivor :: duplicates) ≠ [] := by
  intro hnil
  have hempty : normalizeCategories R survivor.categories = [] := by
    rw [mergedGroupCategories, normalizeCategories, firstsBy_eq_nil, List.flatMap_cons, List.map_append,
      List.filter_append, List.append_eq_nil_iff] at hnil
    rw [normalizeCategories, firstsBy_eq_nil]
    exact hnil.1
  exact h (hnil.trans hempty.symm)

theorem updateText_none {id text : String} {payload : Payload} (h : updateText id none payload = .ok text) :
    Payload.get payload "data" = .str text := by
  unfold updateText at h
  split at h
  · rename_i hsome
    cases hsome
  · rename_i hdata
    cases h
    exact hdata
  · cases h

theorem regroup_ok {survivor : ExportedMemory} {duplicates : List ExportedMemory}
    (h : (regroup W R O (survivor :: duplicates) survivor).run s = (.ok (), s')) :
    listedMemories P project s'.memories =
      (listedMemories P project s.memories).map
        (settle ExportedMemory.id (regrouped R) (survivor :: duplicates)) := by
  rw [regroup] at h
  split at h
  · rename_i hchanged
    obtain ⟨row, text, metadata, hrewritten⟩ := update_ok h
    have hmetadata : metadata =
        some (categoriesPatch (mergedGroupCategories R (survivor :: duplicates))).entries := by
      have hmerges := hrewritten.merges
      cases hmerges
      rfl
    obtain ⟨htidy, hnodup⟩ := @normalizeCategories_tidied R
      ((survivor :: duplicates).flatMap ExportedMemory.categories)
    obtain ⟨hrow, hid⟩ := Table.get_mem hrewritten.found
    have hpatched := @patched_serialize V S W P project row text O.now
      ((none : Option String).bind (O.embed .update)).isSome ((none : Option String).bind (O.embed .update)) _
      (mergedGroupCategories_ne_nil hchanged.2) htidy hnodup (updateText_none hrewritten.hasText)
    have hmemories := hrewritten.memories
    rw [hmetadata] at hmemories
    have hsurvivor : row.id = survivor.id := hid
    rw [hmemories]
    apply listed_update hrow hpatched.1
    · have hhead : (survivor :: duplicates).head?.map ExportedMemory.id = some (serializeRow P row).id :=
        congrArg some hsurvivor.symm
      rw [settle, if_pos hhead, regrouped, if_pos hchanged.2]
      exact hpatched.2
    · intro m hm
      rw [settle, if_neg]
      intro hhead
      exact hm ((Option.some.inj hhead).symm.trans hsurvivor.symm)
  · rename_i hsame
    cases h
    have hsettled : ∀ m ∈ listedMemories P project s.memories,
        settle ExportedMemory.id (regrouped R) (survivor :: duplicates) m = m := by
      intro m hm
      rw [settle]
      split
      · rename_i hhead
        have hid : survivor.id = m.id := Option.some.inj hhead
        rw [not_and, not_not] at hsame
        rw [regrouped, if_neg]
        exact not_not.mpr (hsame (hid ▸ listed_named hm))
      · rfl
    rw [List.map_congr_left hsettled, List.map_id']

theorem deduplicateGroup_ok {counts counts' : Nat × Nat} {group : List ExportedMemory}
    (h : (deduplicateGroup W R O counts group).run s = (.ok counts', s')) :
    counts.2 ≤ counts'.2 ∧ (counts'.2 = counts.2 → listedMemories P project s'.memories =
      condenseGroup ExportedMemory.id (regrouped R) (listedMemories P project s.memories) group) := by
  cases group with
  | nil =>
      cases h
      refine ⟨le_refl _, fun _ => ?_⟩
      have hsettled : ∀ m ∈ listedMemories P project s.memories, settle ExportedMemory.id (regrouped R) [] m = m :=
        fun m _ => if_neg (by simp)
      rw [condenseGroup, List.map_congr_left hsettled, List.map_id']
      simp
  | cons survivor duplicates =>
      obtain ⟨_, s₁, hregroup, hloop⟩ := Effect.bind_ok.mp h
      obtain ⟨hle, hlisted⟩ := @removeDuplicates_ok V S W O s₁ s' P project counts counts' duplicates hloop
      refine ⟨hle, fun hsame => ?_⟩
      rw [hlisted hsame, regroup_ok hregroup]
      rfl

/-- A deduplication that failed nowhere has condensed the groups. -/
theorem deduplicateMemories_ok {response : DedupResponse}
    (h : (deduplicateMemories W R O project).run s = (.ok response, s')) (hfailed : response.failed = 0) :
    listedMemories W.platform project s'.memories =
      condensed W R (listedMemories W.platform project s.memories) := by
  simp only [deduplicateMemories, Effect.run_bind_read, Effect.bind_ok, Effect.lift_ok, allMemories_eq] at h
  obtain ⟨rows, _, ⟨hrows, rfl⟩, counts, s₁, hloop, hpure⟩ := h
  cases hrows
  cases hpure
  have hrun := Effect.loop_ok (I := fun done c t => c.2 = 0 → listedMemories W.platform project t.memories =
    condense ExportedMemory.id (regrouped R) (listedMemories W.platform project s.memories) done) hloop
    (fun _ => rfl) ?_
  · exact hrun hfailed
  · intro done group rest c t c' t' _ hI hstep hzero
    obtain ⟨hle, hlisted⟩ := @deduplicateGroup_ok V S _ W O R t t' W.platform project c c' group hstep
    have hc : c.2 = 0 := Nat.le_zero.mp (hzero ▸ hle)
    rw [hlisted (hzero.trans hc.symm), hI hc, condense, condense, List.foldl_append]
    rfl

/-- A deduplication that failed nowhere keeps its promise exactly where the oldest memories are visible. -/
theorem deduplicated_iff {response : DedupResponse}
    (h : (deduplicateMemories W R O project).run s = (.ok response, s')) (hfailed : response.failed = 0) :
    Deduplicated W R (listedMemories W.platform project s.memories)
      (listedMemories W.platform project s'.memories) ↔
      OldestVisible W R (listedMemories W.platform project s.memories) := by
  rw [deduplicateMemories_ok h hfailed]
  exact condensed_iff listed_ids fun m hm => listed_tidied hm

end

/-! ## Two cups of tea -/

/-- A reader of two dates. -/
def winterReader : DashboardReader where
  casefold := id
  timestamp := fun text =>
    if text = "2026-01-01" then some 1767225600 else if text = "2026-02-01" then some 1769904000 else none

/-- A writer on the first of March 2026. -/
def marchWriter : Writer Unit ℚ :=
  { (Writer.plain .ascii : Writer Unit ℚ) with
    calendar := ⟨fun date => if date = "2026-01-31" then some 739647 else none, 739676⟩ }

def teaRow (id createdAt : String) (expirationDate : Value) : Row Unit where
  id := id
  vector := none
  payload := [("data", .str "tea"), ("user_id", .str "u"), ("project_id", .str defaultProjectId),
    ("created_at", .str createdAt), ("expiration_date", expirationDate)]

/-- Two memories of one text, of which the older one may expire. -/
def twoTeas (expirationDate : Value) : MemoryState Unit :=
  { noMemories with
    memories :=
      { rows := [teaRow "m" "2026-01-01" expirationDate, teaRow "n" "2026-02-01" .null]
        unique := by simp [teaRow]
        named := by simp [teaRow] } }

/-- Where neither expires, one is left for all to see. -/
theorem deduplicated_lasting : Deduplicated marchWriter winterReader
    (listedMemories .ascii .default (twoTeas .null).memories)
    (listedMemories .ascii .default ((deduplicateMemories marchWriter winterReader (.silent "now") .default).run
      (twoTeas .null)).2.memories) := by
  have hrun : ((deduplicateMemories marchWriter winterReader (.silent "now") .default).run (twoTeas .null)) =
      (.ok ⟨2, 1, 1, 0⟩, ((deduplicateMemories marchWriter winterReader (.silent "now") .default).run
        (twoTeas .null)).2) := by
    simp only [deduplicateMemories, Effect.run_bind_read, allMemories_eq]
    rfl
  refine (deduplicated_iff hrun rfl).mpr ?_
  intro key m _ _ _ oldest holdest _ _
  have hlasting : ∀ m ∈ listedMemories .ascii .default (twoTeas .null).memories,
      m.expired .ascii marchWriter.calendar = false := by decide
  exact hlasting oldest holdest

/-- Of an expired memory and a later one of the same text, the expired one is left. -/
theorem deduplicate_hides : ¬ ∀ (W : Writer Unit ℚ) (R : DashboardReader) (O : Providers Unit) (project : ProjectId)
    (s s' : MemoryState Unit) (response : DedupResponse),
    (deduplicateMemories W R O project).run s = (.ok response, s') → response.failed = 0 →
    Deduplicated W R (listedMemories W.platform project s.memories)
      (listedMemories W.platform project s'.memories) := by
  intro h
  have hrun : ∃ s', (deduplicateMemories marchWriter winterReader (.silent "now") .default).run
      (twoTeas (.str "2026-01-31")) = (.ok ⟨2, 1, 1, 0⟩, s') := by
    simp only [deduplicateMemories, Effect.run_bind_read, allMemories_eq]
    exact ⟨_, rfl⟩
  obtain ⟨s', hrun⟩ := hrun
  have hkept := h _ _ _ _ _ _ _ hrun rfl
  rw [deduplicateMemories_ok hrun rfl] at hkept
  have holdest := (condensed_iff listed_ids fun m hm => listed_tidied hm).mp hkept
  have hlisted : listedMemories marchWriter.platform .default (twoTeas (.str "2026-01-31")).memories =
      [serializeRow .ascii (teaRow "m" "2026-01-01" (.str "2026-01-31")),
        serializeRow .ascii (teaRow "n" "2026-02-01" .null)] := rfl
  rw [hlisted] at holdest
  have hexpired := holdest ⟨"", "", defaultProjectId, "", "u", "tea"⟩ _ (List.mem_cons_of_mem _ List.mem_cons_self) rfl
    rfl _ List.mem_cons_self rfl (by simpa using fun _ => by decide)
  revert hexpired
  decide

end YiQiao
