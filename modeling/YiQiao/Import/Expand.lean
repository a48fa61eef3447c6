import YiQiao.Import.Halves
import YiQiao.Import.Payload
import YiQiao.Import.Repository

/-!
# Rebuilding split trees

A run that is taken up again does not find the halves of the chunks that earlier runs split: it splits them
again and goes by the statuses that were recorded under their import keys. `expand` is the source's recursion;
the trees are what the runs have built.
-/

namespace YiQiao

open Lib Lib.Fallible

/-! ## Persisted statuses -/

inductive ChunkStatus where
  | row (status : RecordStatus)
  | supersededSplit
  deriving DecidableEq, Repr

def ChunkStatus.isSplit (status : ChunkStatus) : Bool := status = .row .split || status = .supersededSplit

/-- The key was split by some import of the project. -/
def Database.splitHistory (db : Database) (projectId importKey : String) : Bool :=
  db.manifests.any fun m => m.isAt projectId importKey &&
    (m.status = .split || m.status = .released && db.legacyReleasedSplit m)

/-- `load_persisted_chunk_statuses`: the job's own row comes before the history of the project. -/
def loadPersistedChunkStatuses (projectId jobId : String) (db : Database) (importKey : String) :
    Option ChunkStatus :=
  match db.chunks.find? fun row => row.projectId = projectId && row.isAt jobId importKey with
  | some row =>
      if row.status = .split ∧ (db.manifests.any fun m =>
          m.isAt projectId importKey && m.status ∈ succeededManifestStatuses) then some .supersededSplit
      else some (.row row.status)
  | none => if db.splitHistory projectId importKey then some (.row .split) else none

/-! ## Expansion -/

inductive ExpandError where
  /-- "Persisted import split tree contains a cycle." -/
  | cycle
  /-- "Persisted import split parent can no longer be expanded deterministically." -/
  | notDeterministic
  | chunk (error : ChunkError)
  | outOfFuel
  deriving DecidableEq, Repr

section

variable (I : Importer) (options : ImportOptions) (conversation : Conversation)
  (statuses : String → Option ChunkStatus)

/-- The leaves of a chunk in order, and the import keys of those that are superseded. -/
def expand : Nat → List String → Bool → MessageChunk → Except ExpandError (List MessageChunk × List String)
  | 0, _, _, _ => .error .outOfFuel
  | fuel + 1, ancestors, inheritedSuperseded, chunk =>
      let importKey := messageChunkImportKey I options conversation chunk
      let status := statuses importKey
      let superseded := inheritedSuperseded || status = some .supersededSplit
      if status.any ChunkStatus.isSplit then
        if importKey ∈ ancestors then .error .cycle
        else match splitMessageChunk I.toTokenizer chunk importKey with
          | .error e => .error (.chunk e)
          | .ok [first, second] => do
              let left ← expand fuel (importKey :: ancestors) superseded first
              let right ← expand fuel (importKey :: ancestors) superseded second
              pure (left.1 ++ right.1, left.2 ++ right.2)
          | .ok _ => .error .notDeterministic
      else .ok ([chunk], if superseded ∧ status ≠ some (.row .succeeded) then [importKey] else [])

/-- `expand_persisted_split_chunks`. The fuel is what a chunk weighs. -/
def expandPersistedSplitChunks (chunks : List MessageChunk) :
    Except ExpandError (List MessageChunk × List String) := do
  let expanded ← chunks.mapM fun chunk => expand I options conversation statuses (chunk.weight + 1) [] false chunk
  pure (expanded.flatMap Prod.fst, expanded.flatMap Prod.snd)

/-- The chunks that a run makes of its conversations. -/
def initialChunks (conversations : List Conversation) :
    Except ChunkError (List (Conversation × List MessageChunk)) :=
  conversations.mapM fun conversation => do
    let chunks ← adaptiveChunkMessages I.toChunker options.toChunkOptions conversation.messages
    pure (conversation, chunks)

/-- The chunks that a run works on, and the keys of the superseded leaves. -/
def prepareChunks (initial : List (Conversation × List MessageChunk)) :
    Except ExpandError (List (Conversation × List MessageChunk) × List String) := do
  let expanded ← initial.mapM fun item => do
    let leaves ← expandPersistedSplitChunks I options item.1 statuses item.2
    pure ((item.1, leaves.1), leaves.2)
  pure ((expanded.map Prod.fst).filter fun item => !item.2.isEmpty, expanded.flatMap Prod.snd)

end

/-! ## Trees -/

/-- A chunk and what it was split into. -/
inductive SplitTree where
  | leaf (chunk : MessageChunk)
  | node (chunk : MessageChunk) (first second : SplitTree)

def SplitTree.chunk : SplitTree → MessageChunk
  | .leaf chunk => chunk
  | .node chunk _ _ => chunk

def SplitTree.leaves : SplitTree → List MessageChunk
  | .leaf chunk => [chunk]
  | .node _ first second => first.leaves ++ second.leaves

/-- All chunks of a tree. -/
def SplitTree.chunks : SplitTree → List MessageChunk
  | .leaf chunk => [chunk]
  | .node chunk first second => chunk :: (first.chunks ++ second.chunks)

section

variable (I : Importer) (options : ImportOptions) (conversation : Conversation)
  (statuses : String → Option ChunkStatus)

/-- The tree is one that splitting gives. -/
def SplitTree.Genuine : SplitTree → Prop
  | .leaf _ => True
  | .node chunk first second =>
      splitMessageChunk I.toTokenizer chunk (messageChunkImportKey I options conversation chunk) =
        .ok [first.chunk, second.chunk] ∧ first.Genuine ∧ second.Genuine

/-- The inner chunks of the tree are recorded as split, and the leaves are not. -/
def SplitTree.Recorded (isSplit : String → Bool) : SplitTree → Prop
  | .leaf chunk => isSplit (messageChunkImportKey I options conversation chunk) = false
  | .node chunk first second =>
      isSplit (messageChunkImportKey I options conversation chunk) = true ∧
        first.Recorded isSplit ∧ second.Recorded isSplit

/-- The leaves below a chunk that is superseded. -/
def SplitTree.supersededLeaves : SplitTree → List MessageChunk
  | .leaf _ => []
  | .node chunk first second =>
      if statuses (messageChunkImportKey I options conversation chunk) = some .supersededSplit then
        first.leaves ++ second.leaves
      else first.supersededLeaves ++ second.supersededLeaves

/-- The import keys of chunks that did not succeed. -/
def unsucceededKeys (chunks : List MessageChunk) : List String :=
  (chunks.map (messageChunkImportKey I options conversation)).filter fun key =>
    statuses key ≠ some (.row .succeeded)

end

section

variable {I : Importer} {options : ImportOptions} {conversation : Conversation}
  {statuses : String → Option ChunkStatus}

theorem unsucceededKeys_append (xs ys : List MessageChunk) :
    unsucceededKeys I options conversation statuses (xs ++ ys) =
      unsucceededKeys I options conversation statuses xs ++ unsucceededKeys I options conversation statuses ys := by
  rw [unsucceededKeys, List.map_append, List.filter_append]
  rfl

theorem initialChunks_formed {conversations : List Conversation} {initial : List (Conversation × List MessageChunk)}
    (h : initialChunks I options conversations = .ok initial) :
    ∀ item ∈ initial, ∀ chunk ∈ item.2, chunk.Formed := by
  intro item hitem chunk hchunk
  obtain ⟨c, -, hc⟩ := exists_left_of_mem (mapM_ok.mp h) hitem
  simp only [bind_ok, pure_ok] at hc
  obtain ⟨chunks, hchunks, rfl⟩ := hc
  obtain ⟨runs, hfollow, hmakes, hcores⟩ := adaptiveChunkMessages_covers hchunks
  obtain ⟨r, hr, hmade⟩ := exists_left_of_mem hmakes hchunk
  rw [ChunkRun.Makes, chunkFromTurns] at hmade
  simp only [bind_ok, pure_ok] at hmade
  obtain ⟨merged, hmerged, rfl⟩ := hmade
  refine ⟨(mergeMessages_content hmerged).1, fun m hm => ?_⟩
  obtain ⟨fragment, hfragment, hlike⟩ := mergeMessages_mem hmerged hm
  have hturns := follow_subset hfollow hr
  rw [List.nil_append, hcores] at hturns
  rw [hlike.1]
  exact buildTurns_indexed (turnMessages_subset hturns hfragment)

theorem weight_of_keyMaterial {c d : MessageChunk} (hc : c.Formed) (hd : d.Formed)
    (h : keyMaterial options conversation c = keyMaterial options conversation d) : c.weight = d.weight := by
  have hcore : c.coreSourceIndices = d.coreSourceIndices := congrArg KeyMaterial.coreSourceIndices h
  have hmessages : c.messages = d.messages := by
    have := congrArg KeyMaterial.messages h
    simp only [keyMaterial] at this
    rwa [ensureSourceIndices_of_indexed hc.indexed, ensureSourceIndices_of_indexed hd.indexed] at this
  simp only [MessageChunk.weight, MessageChunk.ownContent, hcore, hmessages]

/-- The chunks of a genuine tree are formed. -/
theorem SplitTree.Genuine.formed {tree : SplitTree} (h : tree.Genuine I options conversation)
    (hroot : tree.chunk.Formed) : ∀ c ∈ tree.chunks, c.Formed := by
  induction tree with
  | leaf chunk =>
    intro c hc
    rwa [List.mem_singleton.mp hc]
  | node chunk first second ihfirst ihsecond =>
    obtain ⟨hsplit, hfirst, hsecond⟩ := h
    obtain ⟨a, b, hab, halves⟩ := splitMessageChunk_halves hroot hsplit (List.cons_ne_nil _ _)
    cases hab
    intro c hc
    rcases List.mem_cons.mp hc with rfl | hc
    · exact hroot
    · rcases List.mem_append.mp hc with hc | hc
      · exact ihfirst hfirst halves.formed_first c hc
      · exact ihsecond hsecond halves.formed_second c hc

/-- Expansion gives the leaves of the tree that the statuses record. The ancestors are heavier chunks. -/
theorem expand_tree {materials : Set KeyMaterial} (hinj : Set.InjOn I.importKey materials) {tree : SplitTree}
    (hgenuine : tree.Genuine I options conversation) (hroot : tree.chunk.Formed)
    (hrecorded : tree.Recorded I options conversation fun key => (statuses key).any ChunkStatus.isSplit)
    (hmaterials : ∀ c ∈ tree.chunks, keyMaterial options conversation c ∈ materials) {fuel : Nat}
    (hfuel : tree.chunk.weight < fuel) {ancestors : List String}
    (hancestors : ∀ key ∈ ancestors, ∃ c : MessageChunk, c.Formed ∧ keyMaterial options conversation c ∈ materials ∧
      messageChunkImportKey I options conversation c = key ∧ tree.chunk.weight < c.weight) (inherited : Bool) :
    expand I options conversation statuses fuel ancestors inherited tree.chunk =
      .ok (tree.leaves, unsucceededKeys I options conversation statuses
        (if inherited then tree.leaves else tree.supersededLeaves I options conversation statuses)) := by
  induction tree generalizing fuel ancestors inherited with
  | leaf chunk =>
    obtain ⟨fuel, rfl⟩ := Nat.exists_eq_succ_of_ne_zero (Nat.ne_zero_of_lt hfuel)
    have hleaf : (statuses (messageChunkImportKey I options conversation chunk)).any ChunkStatus.isSplit = false :=
      hrecorded
    have hnot : statuses (messageChunkImportKey I options conversation chunk) ≠ some .supersededSplit := by
      intro heq
      rw [heq] at hleaf
      cases hleaf
    simp only [expand, SplitTree.chunk, hleaf, Bool.false_eq_true, if_false, hnot, decide_false, Bool.or_false]
    cases inherited with
    | false => rfl
    | true =>
      by_cases hstatus : statuses (messageChunkImportKey I options conversation chunk) = some (.row .succeeded)
      · simp [SplitTree.leaves, unsucceededKeys, hstatus]
      · simp [SplitTree.leaves, unsucceededKeys, hstatus]
  | node chunk first second ihfirst ihsecond =>
    obtain ⟨fuel, rfl⟩ := Nat.exists_eq_succ_of_ne_zero (Nat.ne_zero_of_lt hfuel)
    obtain ⟨hsplit, hfirst, hsecond⟩ := hgenuine
    obtain ⟨hstatus, hrfirst, hrsecond⟩ := hrecorded
    obtain ⟨a, b, hab, halves⟩ := splitMessageChunk_halves hroot hsplit (List.cons_ne_nil _ _)
    cases hab
    have hself := hmaterials chunk List.mem_cons_self
    -- An ancestor of this key would have the same material, and weigh the same.
    have hfresh : messageChunkImportKey I options conversation chunk ∉ ancestors := by
      intro hin
      obtain ⟨c, hformed, hmem, hkey, hweight⟩ := hancestors _ hin
      have hsame := weight_of_keyMaterial hformed hroot (hinj hmem hself hkey)
      rw [hsame] at hweight
      exact lt_irrefl _ hweight
    have hnext : ∀ child : MessageChunk, child.weight < chunk.weight →
        ∀ key ∈ messageChunkImportKey I options conversation chunk :: ancestors, ∃ c : MessageChunk, c.Formed ∧
          keyMaterial options conversation c ∈ materials ∧ messageChunkImportKey I options conversation c = key ∧
          child.weight < c.weight := by
      intro child hchild key hkey
      rcases List.mem_cons.mp hkey with rfl | hkey
      · exact ⟨chunk, hroot, hself, rfl, hchild⟩
      · obtain ⟨c, hformed, hmem, hc, hweight⟩ := hancestors key hkey
        exact ⟨c, hformed, hmem, hc, hchild.trans hweight⟩
    have hleft := fun superseded => ihfirst hfirst halves.formed_first hrfirst
      (fun c hc => hmaterials c (List.mem_cons_of_mem _ (List.mem_append_left _ hc)))
      (halves.weight_first.trans_le (Nat.lt_succ_iff.mp hfuel)) (hnext _ halves.weight_first) superseded
    have hright := fun superseded => ihsecond hsecond halves.formed_second hrsecond
      (fun c hc => hmaterials c (List.mem_cons_of_mem _ (List.mem_append_right _ hc)))
      (halves.weight_second.trans_le (Nat.lt_succ_iff.mp hfuel)) (hnext _ halves.weight_second) superseded
    show expand I options conversation statuses (fuel + 1) ancestors inherited chunk = _
    simp only [expand, hstatus, if_true, hfresh, if_false, hsplit, hleft, hright, bind, Except.bind]
    refine congrArg Except.ok (Prod.ext rfl ?_)
    simp only [SplitTree.supersededLeaves, SplitTree.leaves]
    cases inherited with
    | true => simp [unsucceededKeys_append]
    | false =>
      by_cases hsuperseded :
          statuses (messageChunkImportKey I options conversation chunk) = some .supersededSplit
      · simp [hsuperseded, unsucceededKeys_append]
      · simp [hsuperseded, unsucceededKeys_append]

end

end YiQiao
