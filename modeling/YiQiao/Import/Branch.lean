import Mathlib.Data.String.Basic
import YiQiao.Lib.Chain
import YiQiao.Lib.Fallible
import YiQiao.Lib.TopK
import YiQiao.Value

/-!
# The active branch of a conversation

`chatgpt_active_branch_nodes` of `chat_import.py`. The mapping of an export is untrusted: parents may be missing,
dangle or form a cycle, and a node may go by an id that is not its key.
-/

namespace YiQiao

open Lib

/-- The `mapping` of an exported conversation, a JSON object. -/
structure ChatMapping where
  entries : Entries
  unique : Dict.Unique entries

/-- The nodes by their keys. -/
abbrev ChatNodes := List (String × Entries)

def byKey (a b : String × Value) : Prop := a.1 ≤ b.1

instance : DecidableRel byKey := fun a b => inferInstanceAs (Decidable (a.1 ≤ b.1))

def ChatMapping.nodes (mapping : ChatMapping) : ChatNodes :=
  (ranked byKey mapping.entries).filterMap fun e =>
    match e.2 with
    | .dict node => some (e.1, node)
    | _ => none

/-- A value that is not `None`. -/
def given : Option Value → Option Value
  | some .null => none
  | value => value

namespace ChatNodes

section

variable (P : Platform) (nodes : ChatNodes)

def keys : List String := nodes.map Prod.fst

/-- `references.setdefault`. -/
def setDefault (name key : String) (references : List (String × String)) : List (String × String) :=
  if (references.lookup name).isSome then references else references ++ [(name, key)]

def references : List (String × String) :=
  nodes.foldl (fun references e =>
    match given (e.2.lookup "id") with
    | some id => setDefault (id.pyStr P) e.1 references
    | none => references) (nodes.map fun e => (e.1, e.1))

def resolve (reference : Option Value) : Option String :=
  (given reference).bind fun value => (references P nodes).lookup (value.pyStr P)

def children (node : Entries) : List Value :=
  match node.lookup "children" with
  | some (.list children) => children
  | _ => []

def derivedParents (key : String) : List String :=
  nodes.flatMap fun e => (children e.2).filterMap fun child =>
    if resolve P nodes (some child) = some key then some e.1 else none

def parentKey (key : String) : Option String :=
  match resolve P nodes ((nodes.lookup key).bind fun node => node.lookup "parent") with
  | some explicit => some explicit
  | none => (derivedParents P nodes key).min?

/-- `branch`, as the keys of its nodes. -/
def branch (key : String) : List String := (follow (parentKey P nodes) nodes.keys [] key).reverse

/-- The nodes of some keys. -/
def atKeys (keys : List String) : List Entries := keys.filterMap fun key => nodes.lookup key

/-! ## Without a current node -/

/-- The rank of a tip, ordered as a tuple. -/
structure FallbackRank where
  dated : Bool
  timestamp : String
  length : Nat
  key : String

def FallbackRank.lt (a b : FallbackRank) : Prop :=
  a.dated < b.dated ∨ a.dated = b.dated ∧ (a.timestamp < b.timestamp ∨ a.timestamp = b.timestamp ∧
    (a.length < b.length ∨ a.length = b.length ∧ a.key < b.key))

instance (a b : FallbackRank) : Decidable (a.lt b) := inferInstanceAs (Decidable (_ ∨ _))

variable (isoDatetime : Option Value → Except PyError (Option String))

def nodeTimestamp (node : Entries) : Except PyError String :=
  let message := match node.lookup "message" with
    | some (.dict message) => message
    | _ => []
  let raw := match given (message.lookup "create_time") with
    | some value => some value
    | none => node.lookup "create_time"
  (isoDatetime raw).map (·.getD "")

def fallbackRank (key : String) : Except PyError FallbackRank := do
  let candidate := branch P nodes key
  let timestamps ← (nodes.atKeys candidate).mapM (nodeTimestamp isoDatetime)
  let timestamp := timestamps.foldl max ""
  pure ⟨timestamp ≠ "", timestamp, candidate.length, key⟩

/-- The nodes that are the parent of none, or all of them where every node is. -/
def tips : List String :=
  let referencedParents := nodes.keys.filterMap (parentKey P nodes)
  let tips := ranked (· ≤ ·) (nodes.keys.filter (· ∉ referencedParents))
  if tips.isEmpty then ranked (· ≤ ·) nodes.keys else tips

/-- `max` by rank: the first of the greatest. -/
def greatest : List FallbackRank → Option FallbackRank
  | [] => none
  | rank :: ranks => some (ranks.foldl (fun best rank => if best.lt rank then rank else best) rank)

def activeKeys (currentNode : Option Value) : Except PyError (List String) :=
  if nodes.isEmpty then .ok []
  else match resolve P nodes currentNode with
    | some selected => .ok (branch P nodes selected)
    | none => do
        let ranks ← (tips P nodes).mapM (fallbackRank P nodes isoDatetime)
        pure ((greatest ranks).elim [] fun rank => branch P nodes rank.key)

end

end ChatNodes

/-- `chatgpt_active_branch_nodes`. -/
def chatgptActiveBranchNodes (P : Platform) (isoDatetime : Option Value → Except PyError (Option String))
    (mapping : ChatMapping) (currentNode : Option Value) : Except PyError (List Entries) :=
  (ChatNodes.activeKeys P mapping.nodes isoDatetime currentNode).map mapping.nodes.atKeys

/-- One node is the parent of another: it is named by it, or it lists one that names none. -/
def ChatNodes.IsParent (P : Platform) (nodes : ChatNodes) (parent key : String) : Prop :=
  ∃ node, nodes.lookup key = some node ∧
    (resolve P nodes (node.lookup "parent") = some parent ∨
      resolve P nodes (node.lookup "parent") = none ∧
        ∃ node', (parent, node') ∈ nodes ∧ ∃ child ∈ children node', resolve P nodes (some child) = some key)

namespace ChatNodes

section

variable {P : Platform} {nodes : ChatNodes} {isoDatetime : Option Value → Except PyError (Option String)}
  {key parent : String} {result : List String}

/-! ## References -/

theorem lookup_setDefault {name name' key : String} {refs : List (String × String)}
    (h : (setDefault name key refs).lookup name' = some parent) : refs.lookup name' = some parent ∨ parent = key := by
  rw [setDefault] at h
  split at h
  · exact .inl h
  · rw [List.lookup_append] at h
    cases hold : refs.lookup name' with
    | some old =>
        rw [hold, Option.some_or] at h
        exact .inl h
    | none =>
        rw [hold, Option.none_or, List.lookup_singleton] at h
        split at h
        · exact .inr (Option.some.inj h).symm
        · cases h

theorem mem_references {name : String} (h : (references P nodes).lookup name = some parent) : parent ∈ nodes.keys := by
  rw [references] at h
  suffices ∀ (rest : ChatNodes) (refs : List (String × String)), rest ⊆ nodes →
      (∀ name parent, refs.lookup name = some parent → parent ∈ nodes.keys) →
      ∀ name parent, (rest.foldl (fun references e =>
        match given (e.2.lookup "id") with
        | some id => setDefault (id.pyStr P) e.1 references
        | none => references) refs).lookup name = some parent → parent ∈ nodes.keys by
    refine this nodes _ (List.Subset.refl _) (fun name parent hrefs => ?_) name parent h
    have hmem := Dict.mem_of_lookup hrefs
    simp only [List.mem_map, Prod.mk.injEq] at hmem
    obtain ⟨e, he, rfl, rfl⟩ := hmem
    exact List.mem_map_of_mem he
  intro rest
  induction rest with
  | nil => exact fun refs _ hrefs => hrefs
  | cons e rest ih =>
      intro refs hsub hrefs
      apply ih _ (List.subset_of_cons_subset hsub)
      intro name parent hlookup
      dsimp only at hlookup
      split at hlookup
      · rcases lookup_setDefault hlookup with hold | rfl
        · exact hrefs name parent hold
        · exact List.mem_map_of_mem (hsub List.mem_cons_self)
      · exact hrefs name parent hlookup

theorem mem_resolve {reference : Option Value} (h : resolve P nodes reference = some key) : key ∈ nodes.keys := by
  obtain ⟨value, -, hvalue⟩ := Option.bind_eq_some_iff.mp h
  exact mem_references hvalue

theorem mem_derivedParents : parent ∈ derivedParents P nodes key ↔
    ∃ node, (parent, node) ∈ nodes ∧ ∃ child ∈ children node, resolve P nodes (some child) = some key := by
  simp only [derivedParents, List.mem_flatMap, List.mem_filterMap]
  constructor
  · rintro ⟨⟨parent', node⟩, hnode, child, hchild, hkey⟩
    split at hkey
    · cases hkey
      exact ⟨node, hnode, child, hchild, ‹_›⟩
    · cases hkey
  · rintro ⟨node, hnode, child, hchild, hkey⟩
    exact ⟨(parent, node), hnode, child, hchild, if_pos hkey⟩

theorem parentKey_parent (hkey : key ∈ nodes.keys) (h : parentKey P nodes key = some parent) :
    IsParent P nodes parent key := by
  have hsome : (nodes.lookup key).isSome := by
    obtain ⟨e, he, rfl⟩ := List.mem_map.mp hkey
    exact Dict.lookup_isSome_of_mem he
  obtain ⟨node, hnode⟩ := Option.isSome_iff_exists.mp hsome
  rw [parentKey, hnode, Option.bind_some] at h
  refine ⟨node, hnode, ?_⟩
  cases hexplicit : resolve P nodes (node.lookup "parent") with
  | some explicit =>
      rw [hexplicit] at h
      exact .inl h
  | none =>
      rw [hexplicit] at h
      exact .inr ⟨rfl, mem_derivedParents.mp (List.min?_mem h)⟩

/-! ## Branches -/

/-- A sequence of different nodes, each the parent of the next one. -/
structure IsBranch (P : Platform) (nodes : ChatNodes) (keys : List String) : Prop where
  known : ∀ key ∈ keys, key ∈ nodes.keys
  nodup : keys.Nodup
  parents : keys.IsChain (IsParent P nodes)

theorem branch_isBranch : IsBranch P nodes (branch P nodes key) := by
  have hknown : ∀ key' ∈ branch P nodes key, key' ∈ nodes.keys := by
    intro key' hmem
    exact (mem_follow (List.mem_reverse.mp hmem)).1
  refine ⟨hknown, List.nodup_reverse.mpr follow_nodup, ?_⟩
  rw [branch, List.isChain_reverse]
  refine List.IsChain.imp_of_mem_imp ?_ follow_chain
  intro child parent hchild _ hparent
  exact parentKey_parent (mem_follow hchild).1 hparent

theorem branch_last (h : key ∈ nodes.keys) : (branch P nodes key).getLast? = some key := by
  rw [branch, List.getLast?_reverse]
  exact follow_head ⟨h, List.not_mem_nil⟩

theorem activeKeys_isBranch {currentNode : Option Value}
    (h : activeKeys P nodes isoDatetime currentNode = .ok result) : IsBranch P nodes result := by
  rw [activeKeys] at h
  split at h
  · cases h
    exact ⟨by simp, List.nodup_nil, .nil⟩
  · split at h
    · cases h
      exact branch_isBranch
    · obtain ⟨ranks, -, h⟩ := Fallible.bind_ok.mp h
      cases h
      cases greatest ranks with
      | none => exact ⟨by simp, List.nodup_nil, .nil⟩
      | some rank => exact branch_isBranch

/-- Nothing but the reading of a date raises, and a date is read only where the current node is unknown. -/
theorem activeKeys_error {currentNode : Option Value} {e : PyError}
    (h : activeKeys P nodes isoDatetime currentNode = .error e) :
    resolve P nodes currentNode = none ∧ ∃ raw, isoDatetime raw = .error e := by
  rw [activeKeys] at h
  split at h
  · cases h
  · cases hcurrent : resolve P nodes currentNode with
    | some selected =>
        rw [hcurrent] at h
        cases h
    | none =>
        rw [hcurrent] at h
        refine ⟨rfl, ?_⟩
        rcases Fallible.bind_error.mp h with hranks | ⟨ranks, -, hpure⟩
        · obtain ⟨key, -, hkey⟩ := Fallible.mapM_error hranks
          rcases Fallible.bind_error.mp hkey with hstamps | ⟨timestamps, -, hpure⟩
          · obtain ⟨node, -, hnode⟩ := Fallible.mapM_error hstamps
            rw [nodeTimestamp, Fallible.map_error] at hnode
            exact ⟨_, hnode⟩
          · cases hpure
        · cases hpure

theorem atKeys_forall₂ {keys : List String} (h : ∀ key ∈ keys, key ∈ nodes.keys) :
    List.Forall₂ (fun key node => nodes.lookup key = some node) keys (nodes.atKeys keys) := by
  induction keys with
  | nil => exact .nil
  | cons key keys ih =>
      obtain ⟨e, he, hkey⟩ := List.mem_map.mp (h key List.mem_cons_self)
      obtain ⟨node, hnode⟩ := Option.isSome_iff_exists.mp (hkey ▸ Dict.lookup_isSome_of_mem he)
      rw [atKeys, List.filterMap_cons_some (f := fun key => nodes.lookup key) hnode]
      exact .cons hnode (ih fun key' hmem => h key' (List.mem_cons_of_mem _ hmem))

end

end ChatNodes

instance : Std.Total byKey := ⟨fun a b => String.le_total a.1 b.1⟩

instance : IsTrans (String × Value) byKey := ⟨fun _ _ _ => String.le_trans⟩

/-- The order of the mapping is lost where its keys are sorted. -/
theorem ChatMapping.nodes_perm {mapping mapping' : ChatMapping} (h : mapping.entries.Perm mapping'.entries) :
    mapping'.nodes = mapping.nodes := by
  have hsame : ranked byKey mapping.entries = ranked byKey mapping'.entries := by
    apply List.Perm.eq_of_pairwise
    · intro a b ha hb hab hba
      have hkey : a.1 = b.1 := String.le_antisymm hab hba
      have hb' : b ∈ mapping.entries := h.mem_iff.mpr (mem_ranked.mp hb)
      exact List.inj_on_of_nodup_map mapping.unique (mem_ranked.mp ha) hb' hkey
    · exact List.pairwise_insertionSort byKey _
    · exact List.pairwise_insertionSort byKey _
    · exact (ranked_perm _).trans (h.trans (ranked_perm _).symm)
  rw [nodes, nodes, hsame]

/-- The branch ends, visits no node twice and follows the parents to the current node, in any order of the mapping. -/
theorem active_branch_follows_parents (P : Platform) (isoDatetime : Option Value → Except PyError (Option String))
    (mapping : ChatMapping) (currentNode : Option Value) :
    (∀ result, chatgptActiveBranchNodes P isoDatetime mapping currentNode = .ok result → ∃ keys : List String,
      List.Forall₂ (fun key node => mapping.nodes.lookup key = some node) keys result ∧ keys.Nodup ∧
        keys.IsChain (ChatNodes.IsParent P mapping.nodes) ∧
        ∀ selected, ChatNodes.resolve P mapping.nodes currentNode = some selected → keys.getLast? = some selected) ∧
      (∀ e, chatgptActiveBranchNodes P isoDatetime mapping currentNode = .error e →
        ChatNodes.resolve P mapping.nodes currentNode = none ∧ ∃ raw, isoDatetime raw = .error e) ∧
      ∀ mapping' : ChatMapping, mapping.entries.Perm mapping'.entries →
        chatgptActiveBranchNodes P isoDatetime mapping' currentNode =
          chatgptActiveBranchNodes P isoDatetime mapping currentNode := by
  refine ⟨fun result h => ?_, fun e h => ?_, fun mapping' h => ?_⟩
  · obtain ⟨keys, hkeys, rfl⟩ := Fallible.map_ok.mp h
    have hbranch := ChatNodes.activeKeys_isBranch hkeys
    refine ⟨keys, ChatNodes.atKeys_forall₂ hbranch.known, hbranch.nodup, hbranch.parents, fun selected hselected => ?_⟩
    have hknown := ChatNodes.mem_resolve hselected
    have hne : mapping.nodes.isEmpty = false := by
      obtain ⟨e, he, -⟩ := List.mem_map.mp hknown
      simpa using List.ne_nil_of_mem he
    rw [ChatNodes.activeKeys, if_neg (by simp [hne]), hselected] at hkeys
    cases hkeys
    exact ChatNodes.branch_last hknown
  · exact ChatNodes.activeKeys_error (Fallible.map_error.mp h)
  · rw [chatgptActiveBranchNodes, chatgptActiveBranchNodes, ChatMapping.nodes_perm h]

/-- A cycle of two nodes, in both orders. -/
def mutualParents : ChatMapping :=
  ⟨[("a", .dict [("parent", .str "b")]), ("b", .dict [("parent", .str "a")])], by simp [Dict.Unique]⟩

def mutualParentsSwapped : ChatMapping :=
  ⟨[("b", .dict [("parent", .str "a")]), ("a", .dict [("parent", .str "b")])], by simp [Dict.Unique]⟩

theorem mutual_parents_agree :
    chatgptActiveBranchNodes .ascii (fun _ => .ok none) mutualParentsSwapped (some (.str "a")) =
      chatgptActiveBranchNodes .ascii (fun _ => .ok none) mutualParents (some (.str "a")) :=
  (active_branch_follows_parents .ascii (fun _ => .ok none) mutualParents (some (.str "a"))).2.2 mutualParentsSwapped
    (.swap _ _ _)

end YiQiao
