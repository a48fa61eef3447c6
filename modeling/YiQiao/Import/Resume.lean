import YiQiao.Import.Expand

/-!
# Resumed runs

The runs of an import, each of which splits some chunks and stops anywhere. The next run goes by the rows of
the job, and for chunks without one by what other imports of the project have split.
-/

namespace YiQiao

open Lib Lib.Fallible

/-! ## Chunks and their keys -/

/-- The split trees of an import, by conversation. -/
abbrev Forest := List (Conversation × List SplitTree)

def Forest.trees (forest : Forest) : List (Conversation × SplitTree) :=
  forest.flatMap fun item => item.2.map (Prod.mk item.1)

def Forest.roots (forest : Forest) : List (Conversation × List MessageChunk) :=
  forest.map fun item => (item.1, item.2.map SplitTree.chunk)

def Forest.leaves (forest : Forest) : List (Conversation × List MessageChunk) :=
  forest.map fun item => (item.1, item.2.flatMap SplitTree.leaves)

def rootChunks (initial : List (Conversation × List MessageChunk)) : List (Conversation × MessageChunk) :=
  initial.flatMap fun item => item.2.map (Prod.mk item.1)

section

variable (I : Importer) (options : ImportOptions)

/-- Splitting the first chunk over and over comes to the second. -/
inductive Descends (conversation : Conversation) : MessageChunk → MessageChunk → Prop
  | refl (chunk : MessageChunk) : Descends conversation chunk chunk
  | first {chunk first second c : MessageChunk} (hsplit : splitMessageChunk I.toTokenizer chunk
      (messageChunkImportKey I options conversation chunk) = .ok [first, second])
      (h : Descends conversation first c) : Descends conversation chunk c
  | second {chunk first second c : MessageChunk} (hsplit : splitMessageChunk I.toTokenizer chunk
      (messageChunkImportKey I options conversation chunk) = .ok [first, second])
      (h : Descends conversation second c) : Descends conversation chunk c

/-- What comes of two chunks never has the same key material. -/
def ChunksApart (a b : Conversation × MessageChunk) : Prop :=
  ∀ c d, Descends I options a.1 a.2 c → Descends I options b.1 b.2 d →
    keyMaterial options a.1 c ≠ keyMaterial options b.1 d

/-- No two chunks of an import have the same key material. -/
structure KeysApart (initial : List (Conversation × List MessageChunk)) : Prop where
  roots : (rootChunks initial).Pairwise (ChunksApart I options)
  halves : ∀ root ∈ rootChunks initial, ∀ parent first second, Descends I options root.1 root.2 parent →
    splitMessageChunk I.toTokenizer parent (messageChunkImportKey I options root.1 parent) = .ok [first, second] →
    ChunksApart I options (root.1, first) (root.1, second)

/-- The key materials of an import. -/
def keyMaterials (initial : List (Conversation × List MessageChunk)) : Set KeyMaterial :=
  {m | ∃ root ∈ rootChunks initial, ∃ c, Descends I options root.1 root.2 c ∧ keyMaterial options root.1 c = m}

def Forest.materials (forest : Forest) : List KeyMaterial :=
  forest.trees.flatMap fun item => item.2.chunks.map (keyMaterial options item.1)

/-- The import keys of all chunks of the trees. -/
def Forest.keys (forest : Forest) : List String :=
  forest.trees.flatMap fun item => item.2.chunks.map (messageChunkImportKey I options item.1)

def Forest.Genuine (forest : Forest) : Prop := ∀ item ∈ forest.trees, item.2.Genuine I options item.1

end

section

variable {I : Importer} {options : ImportOptions} {conversation : Conversation}
  {initial : List (Conversation × List MessageChunk)} {forest : Forest}

theorem SplitTree.Genuine.descends {tree : SplitTree} (h : tree.Genuine I options conversation) :
    ∀ c ∈ tree.chunks, Descends I options conversation tree.chunk c := by
  induction tree with
  | leaf chunk =>
    intro c hc
    rw [List.mem_singleton.mp hc]
    exact .refl chunk
  | node chunk first second ihfirst ihsecond =>
    obtain ⟨hsplit, hfirst, hsecond⟩ := h
    intro c hc
    rcases List.mem_cons.mp hc with rfl | hc
    · exact .refl _
    · cases List.mem_append.mp hc with
      | inl hc => exact .first hsplit (ihfirst hfirst c hc)
      | inr hc => exact .second hsplit (ihsecond hsecond c hc)

theorem Descends.weight {root c : MessageChunk} (h : Descends I options conversation root c) (hroot : root.Formed) :
    c.Formed ∧ c.weight ≤ root.weight := by
  induction h with
  | refl chunk => exact ⟨hroot, le_rfl⟩
  | first hsplit _ ih =>
    obtain ⟨a, b, hab, halves⟩ := splitMessageChunk_halves hroot hsplit (List.cons_ne_nil _ _)
    cases hab
    obtain ⟨hformed, hweight⟩ := ih halves.formed_first
    exact ⟨hformed, hweight.trans halves.weight_first.le⟩
  | second hsplit _ ih =>
    obtain ⟨a, b, hab, halves⟩ := splitMessageChunk_halves hroot hsplit (List.cons_ne_nil _ _)
    cases hab
    obtain ⟨hformed, hweight⟩ := ih halves.formed_second
    exact ⟨hformed, hweight.trans halves.weight_second.le⟩

/-- The chunks of a tree have materials of their own: a chunk outweighs what is below it, and halves are apart. -/
theorem SplitTree.Genuine.materials_nodup {tree : SplitTree} (h : tree.Genuine I options conversation)
    (hroot : tree.chunk.Formed)
    (hhalves : ∀ parent first second, Descends I options conversation tree.chunk parent →
      splitMessageChunk I.toTokenizer parent (messageChunkImportKey I options conversation parent) =
        .ok [first, second] → ChunksApart I options (conversation, first) (conversation, second)) :
    (tree.chunks.map (keyMaterial options conversation)).Nodup := by
  induction tree with
  | leaf chunk => exact List.nodup_singleton _
  | node chunk first second ihfirst ihsecond =>
    obtain ⟨hsplit, hfirst, hsecond⟩ := h
    obtain ⟨a, b, hab, halves⟩ := splitMessageChunk_halves hroot hsplit (List.cons_ne_nil _ _)
    cases hab
    have hdfirst := hfirst.descends
    have hdsecond := hsecond.descends
    have hbelow : ∀ c, c.Formed → c.weight < chunk.weight →
        keyMaterial options conversation c ≠ keyMaterial options conversation chunk := by
      intro c hc hweight heq
      rw [weight_of_keyMaterial hc hroot heq] at hweight
      exact lt_irrefl _ hweight
    rw [SplitTree.chunks, List.map_cons, List.map_append, List.nodup_cons, List.nodup_append]
    refine ⟨?_, ihfirst hfirst halves.formed_first ?_, ihsecond hsecond halves.formed_second ?_, ?_⟩
    · intro hmem
      rw [List.mem_append] at hmem
      rcases hmem with hmem | hmem
      · obtain ⟨c, hc, heq⟩ := List.mem_map.mp hmem
        obtain ⟨hformed, hweight⟩ := (hdfirst c hc).weight halves.formed_first
        exact hbelow c hformed (hweight.trans_lt halves.weight_first) heq
      · obtain ⟨c, hc, heq⟩ := List.mem_map.mp hmem
        obtain ⟨hformed, hweight⟩ := (hdsecond c hc).weight halves.formed_second
        exact hbelow c hformed (hweight.trans_lt halves.weight_second) heq
    · exact fun parent l r hparent => hhalves parent l r (.first hsplit hparent)
    · exact fun parent l r hparent => hhalves parent l r (.second hsplit hparent)
    · intro m hm m' hm' heq
      obtain ⟨c, hc, rfl⟩ := List.mem_map.mp hm
      obtain ⟨d, hd, rfl⟩ := List.mem_map.mp hm'
      exact hhalves chunk first.chunk second.chunk (.refl _) hsplit c d (hdfirst c hc) (hdsecond d hd) heq

theorem Forest.rootChunks_roots (forest : Forest) :
    rootChunks forest.roots = forest.trees.map fun item => (item.1, item.2.chunk) := by
  simp only [rootChunks, Forest.roots, Forest.trees, List.flatMap_map, List.map_flatMap, List.map_map]
  rfl

theorem Forest.mem_rootChunks {item : Conversation × SplitTree} (hitem : item ∈ forest.trees) :
    (item.1, item.2.chunk) ∈ rootChunks forest.roots := by
  rw [Forest.rootChunks_roots]
  exact List.mem_map_of_mem hitem

theorem mem_rootChunks {root : Conversation × MessageChunk} :
    root ∈ rootChunks initial ↔ ∃ item ∈ initial, item.1 = root.1 ∧ root.2 ∈ item.2 := by
  simp only [rootChunks, List.mem_flatMap, List.mem_map]
  constructor
  · rintro ⟨item, hitem, chunk, hchunk, rfl⟩
    exact ⟨item, hitem, rfl, hchunk⟩
  · rintro ⟨item, hitem, heq, hchunk⟩
    exact ⟨item, hitem, root.2, hchunk, Prod.ext heq rfl⟩

/-- The chunks of a forest have keys of their own. -/
theorem Forest.Genuine.keys_nodup (h : forest.Genuine I options) (hroots : forest.roots = initial)
    (hformed : ∀ root ∈ rootChunks initial, root.2.Formed) (hapart : KeysApart I options initial)
    (hinj : Set.InjOn I.importKey (keyMaterials I options initial)) : (forest.keys I options).Nodup := by
  subst hroots
  have hmem : ∀ m ∈ forest.materials options, m ∈ keyMaterials I options forest.roots := by
    intro m hm
    obtain ⟨item, hitem, hm⟩ := List.mem_flatMap.mp hm
    obtain ⟨c, hc, rfl⟩ := List.mem_map.mp hm
    exact ⟨_, Forest.mem_rootChunks hitem, c, (h item hitem).descends c hc, rfl⟩
  have hmaterials : (forest.materials options).Nodup := by
    rw [Forest.materials, List.nodup_flatMap]
    constructor
    · intro item hitem
      have hroot := Forest.mem_rootChunks hitem
      exact (h item hitem).materials_nodup (hformed _ hroot) (hapart.halves _ hroot)
    · have hpairs := hapart.roots
      rw [Forest.rootChunks_roots, List.pairwise_map] at hpairs
      refine hpairs.imp_of_mem ?_
      intro a b ha hb hab m hm hm'
      obtain ⟨c, hc, rfl⟩ := List.mem_map.mp hm
      obtain ⟨d, hd, heq⟩ := List.mem_map.mp hm'
      exact hab c d ((h a ha).descends c hc) ((h b hb).descends d hd) heq.symm
  have hkeys : forest.keys I options = (forest.materials options).map I.importKey := by
    simp only [Forest.keys, Forest.materials, List.map_flatMap, List.map_map]
    rfl
  rw [hkeys]
  exact hmaterials.map_on fun m hm m' hm' heq => hinj (hmem m hm) (hmem m' hm') heq

end

/-! ## Preparing a run -/

section

variable {I : Importer} {options : ImportOptions} {statuses : String → Option ChunkStatus}
  {initial : List (Conversation × List MessageChunk)} {forest : Forest}

/-- The statuses record the trees. -/
def Forest.Recorded (I : Importer) (options : ImportOptions) (isSplit : String → Bool) (forest : Forest) : Prop :=
  ∀ item ∈ forest.trees, item.2.Recorded I options item.1 isSplit

/-- The keys of the leaves that are below a superseded chunk and did not succeed. -/
def Forest.supersededKeys (I : Importer) (options : ImportOptions) (statuses : String → Option ChunkStatus)
    (forest : Forest) : List String :=
  forest.flatMap fun item => unsucceededKeys I options item.1 statuses
    (item.2.flatMap (SplitTree.supersededLeaves I options item.1 statuses))

theorem unsucceededKeys_flatMap (conversation : Conversation) (f : SplitTree → List MessageChunk)
    (trees : List SplitTree) :
    unsucceededKeys I options conversation statuses (trees.flatMap f) =
      trees.flatMap fun tree => unsucceededKeys I options conversation statuses (f tree) := by
  induction trees with
  | nil => rfl
  | cons tree rest ih => rw [List.flatMap_cons, List.flatMap_cons, unsucceededKeys_append, ih]

/-- A run prepares the leaves of the trees that the statuses record. -/
theorem prepareChunks_forest (hgenuine : forest.Genuine I options) (hroots : forest.roots = initial)
    (hformed : ∀ root ∈ rootChunks initial, root.2.Formed)
    (hinj : Set.InjOn I.importKey (keyMaterials I options initial))
    (hrecorded : forest.Recorded I options fun key => (statuses key).any ChunkStatus.isSplit) :
    prepareChunks I options statuses initial =
      .ok (forest.leaves.filter fun item => !item.2.isEmpty, forest.supersededKeys I options statuses) := by
  subst hroots
  have hexpand : ∀ item ∈ forest.trees, expand I options item.1 statuses (item.2.chunk.weight + 1) [] false
      item.2.chunk = .ok (item.2.leaves, unsucceededKeys I options item.1 statuses
        (item.2.supersededLeaves I options item.1 statuses)) := by
    intro item hitem
    have hroot := Forest.mem_rootChunks hitem
    refine expand_tree hinj (hgenuine item hitem) (hformed _ hroot) (hrecorded item hitem) ?_ (Nat.lt_succ_self _)
      (by simp) false
    exact fun c hc => ⟨_, hroot, c, (hgenuine item hitem).descends c hc, rfl⟩
  have hconversation : ∀ item ∈ forest, expandPersistedSplitChunks I options item.1 statuses
      (item.2.map SplitTree.chunk) = .ok (item.2.flatMap SplitTree.leaves, unsucceededKeys I options item.1 statuses
        (item.2.flatMap (SplitTree.supersededLeaves I options item.1 statuses))) := by
    intro item hitem
    have hmapM : (item.2.mapM fun tree : SplitTree =>
        expand I options item.1 statuses (tree.chunk.weight + 1) [] false tree.chunk) = .ok (item.2.map _) :=
      mapM_eq_map fun tree htree => hexpand (item.1, tree)
        (List.mem_flatMap.mpr ⟨item, hitem, List.mem_map_of_mem htree⟩)
    simp only [expandPersistedSplitChunks, List.mapM_map, Function.comp_def, hmapM, bind, Except.bind, pure,
      Except.pure, List.flatMap_map, unsucceededKeys_flatMap]
  have hmapM : (forest.mapM fun item : Conversation × List SplitTree => (do
      let leaves ← expandPersistedSplitChunks I options item.1 statuses (item.2.map SplitTree.chunk)
      pure ((item.1, leaves.1), leaves.2))) =
      .ok (forest.map fun item => ((item.1, item.2.flatMap SplitTree.leaves),
        unsucceededKeys I options item.1 statuses
          (item.2.flatMap (SplitTree.supersededLeaves I options item.1 statuses)))) := by
    apply mapM_eq_map
    intro item hitem
    rw [hconversation item hitem]
    rfl
  simp only [prepareChunks, Forest.roots, List.mapM_map, Function.comp_def]
  rw [hmapM]
  simp only [bind, Except.bind, pure, Except.pure, Forest.leaves, Forest.supersededKeys, List.map_map,
    List.flatMap_map]
  rfl

end

/-! ## Growing trees -/

/-- A leaf of the tree is split. -/
inductive SplitTree.Splits (chunk : MessageChunk) (first second : SplitTree) : SplitTree → SplitTree → Prop
  | here : SplitTree.Splits chunk first second (.leaf chunk) (.node chunk first second)
  | first {parent : MessageChunk} {s s' t : SplitTree} (h : SplitTree.Splits chunk first second s s') :
      SplitTree.Splits chunk first second (.node parent s t) (.node parent s' t)
  | second {parent : MessageChunk} {s t t' : SplitTree} (h : SplitTree.Splits chunk first second t t') :
      SplitTree.Splits chunk first second (.node parent s t) (.node parent s t')

/-- One tree of a forest is replaced. -/
inductive Forest.Replaces (conversation : Conversation) (tree tree' : SplitTree) : Forest → Forest → Prop
  | intro (before after : Forest) (left right : List SplitTree) : Forest.Replaces conversation tree tree'
      (before ++ (conversation, left ++ tree :: right) :: after)
      (before ++ (conversation, left ++ tree' :: right) :: after)

section

variable {I : Importer} {options : ImportOptions} {conversation : Conversation} {chunk : MessageChunk}
  {first second tree tree' : SplitTree} {forest forest' : Forest} {isSplit isSplit' : String → Bool}

theorem SplitTree.chunk_mem (tree : SplitTree) : tree.chunk ∈ tree.chunks := by
  cases tree with
  | leaf chunk => exact List.mem_singleton_self _
  | node chunk first second => exact List.mem_cons_self

theorem SplitTree.leaves_subset (tree : SplitTree) : tree.leaves ⊆ tree.chunks := by
  induction tree with
  | leaf chunk => exact List.Subset.refl _
  | node chunk first second ihfirst ihsecond =>
    intro c hc
    refine List.mem_cons_of_mem _ (List.mem_append.mpr ?_)
    exact (List.mem_append.mp hc).imp (fun h => ihfirst h) fun h => ihsecond h

theorem SplitTree.Splits.chunk_eq (h : SplitTree.Splits chunk first second tree tree') :
    tree'.chunk = tree.chunk := by
  cases h with
  | here => rfl
  | first _ => rfl
  | second _ => rfl

theorem SplitTree.Splits.mem (h : SplitTree.Splits chunk first second tree tree') : chunk ∈ tree.leaves := by
  induction h with
  | here => exact List.mem_singleton_self _
  | first _ ih => exact List.mem_append_left _ ih
  | second _ ih => exact List.mem_append_right _ ih

theorem SplitTree.Splits.chunks (h : SplitTree.Splits chunk first second tree tree') :
    tree'.chunks.Perm (tree.chunks ++ (first.chunks ++ second.chunks)) := by
  induction h with
  | here => exact .refl _
  | @first parent s s' t _ ih =>
    have hswap : (s.chunks ++ (first.chunks ++ second.chunks) ++ t.chunks).Perm
        (s.chunks ++ t.chunks ++ (first.chunks ++ second.chunks)) := by
      rw [List.append_assoc s.chunks, List.append_assoc s.chunks]
      exact List.perm_append_comm.append_left s.chunks
    exact List.Perm.cons parent ((ih.append_right t.chunks).trans hswap)
  | @second parent s t t' _ ih =>
    have hright := ih.append_left s.chunks
    rw [← List.append_assoc] at hright
    exact List.Perm.cons parent hright

theorem SplitTree.Splits.genuine (h : SplitTree.Splits chunk first second tree tree')
    (htree : tree.Genuine I options conversation)
    (hsplit : splitMessageChunk I.toTokenizer chunk (messageChunkImportKey I options conversation chunk) =
      .ok [first.chunk, second.chunk])
    (hfirst : first.Genuine I options conversation) (hsecond : second.Genuine I options conversation) :
    tree'.Genuine I options conversation := by
  induction h with
  | here => exact ⟨hsplit, hfirst, hsecond⟩
  | first h ih =>
    obtain ⟨hparent, hs, ht⟩ := htree
    rw [← h.chunk_eq] at hparent
    exact ⟨hparent, ih hs, ht⟩
  | second h ih =>
    obtain ⟨hparent, hs, ht⟩ := htree
    rw [← h.chunk_eq] at hparent
    exact ⟨hparent, hs, ih ht⟩

theorem SplitTree.Recorded.congr (h : tree.Recorded I options conversation isSplit)
    (hsame : ∀ c ∈ tree.chunks, isSplit' (messageChunkImportKey I options conversation c) =
      isSplit (messageChunkImportKey I options conversation c)) :
    tree.Recorded I options conversation isSplit' := by
  induction tree with
  | leaf chunk => exact (hsame chunk (List.mem_singleton_self _)).trans h
  | node chunk first second ihfirst ihsecond =>
    obtain ⟨hchunk, hfirst, hsecond⟩ := h
    refine ⟨(hsame chunk List.mem_cons_self).trans hchunk, ihfirst hfirst fun c hc => ?_,
      ihsecond hsecond fun c hc => ?_⟩
    · exact hsame c (List.mem_cons_of_mem _ (List.mem_append_left _ hc))
    · exact hsame c (List.mem_cons_of_mem _ (List.mem_append_right _ hc))

/-- Where no key repeats in a tree, splitting a leaf leaves the rest as it is recorded. -/
theorem SplitTree.Splits.recorded (h : SplitTree.Splits chunk first second tree tree')
    (htree : tree.Recorded I options conversation isSplit)
    (hkeys : (tree.chunks.map (messageChunkImportKey I options conversation)).Nodup)
    (hsame : ∀ c ∈ tree.chunks, messageChunkImportKey I options conversation c ≠
        messageChunkImportKey I options conversation chunk →
      isSplit' (messageChunkImportKey I options conversation c) =
        isSplit (messageChunkImportKey I options conversation c))
    (hchunk : isSplit' (messageChunkImportKey I options conversation chunk) = true)
    (hfirst : first.Recorded I options conversation isSplit')
    (hsecond : second.Recorded I options conversation isSplit') : tree'.Recorded I options conversation isSplit' := by
  induction h with
  | here => exact ⟨hchunk, hfirst, hsecond⟩
  | @first parent s s' t h ih =>
    obtain ⟨hparent, hs, ht⟩ := htree
    simp only [SplitTree.chunks, List.map_cons, List.map_append, List.nodup_cons, List.nodup_append,
      List.mem_append, not_or] at hkeys
    obtain ⟨⟨hout, -⟩, hsnodup, -, hdisjoint⟩ := hkeys
    have hin := List.mem_map_of_mem (f := messageChunkImportKey I options conversation)
      (s.leaves_subset h.mem)
    refine ⟨(hsame parent List.mem_cons_self fun heq => hout (heq ▸ hin)).trans hparent, ?_, ?_⟩
    · exact ih hs hsnodup fun c hc => hsame c (List.mem_cons_of_mem _ (List.mem_append_left _ hc))
    · exact ht.congr fun c hc => hsame c (List.mem_cons_of_mem _ (List.mem_append_right _ hc)) fun heq =>
        hdisjoint _ hin _ (List.mem_map_of_mem hc) heq.symm
  | @second parent s t t' h ih =>
    obtain ⟨hparent, hs, ht⟩ := htree
    simp only [SplitTree.chunks, List.map_cons, List.map_append, List.nodup_cons, List.nodup_append,
      List.mem_append, not_or] at hkeys
    obtain ⟨⟨-, hout⟩, -, htnodup, hdisjoint⟩ := hkeys
    have hin := List.mem_map_of_mem (f := messageChunkImportKey I options conversation)
      (t.leaves_subset h.mem)
    refine ⟨(hsame parent List.mem_cons_self fun heq => hout (heq ▸ hin)).trans hparent, ?_, ?_⟩
    · exact hs.congr fun c hc => hsame c (List.mem_cons_of_mem _ (List.mem_append_left _ hc)) fun heq =>
        hdisjoint _ (List.mem_map_of_mem hc) _ hin heq
    · exact ih ht htnodup fun c hc => hsame c (List.mem_cons_of_mem _ (List.mem_append_right _ hc))

theorem Forest.Replaces.trees (h : Forest.Replaces conversation tree tree' forest forest') :
    ∃ before after, forest.trees = before ++ (conversation, tree) :: after ∧
      forest'.trees = before ++ (conversation, tree') :: after := by
  cases h with
  | intro before after left right =>
    refine ⟨Forest.trees before ++ left.map (Prod.mk conversation),
      right.map (Prod.mk conversation) ++ Forest.trees after, ?_, ?_⟩
    · simp only [Forest.trees, List.flatMap_append, List.flatMap_cons, List.map_append, List.map_cons,
        List.append_assoc, List.cons_append]
    · simp only [Forest.trees, List.flatMap_append, List.flatMap_cons, List.map_append, List.map_cons,
        List.append_assoc, List.cons_append]

theorem Forest.Replaces.roots (h : Forest.Replaces conversation tree tree' forest forest')
    (hchunk : tree'.chunk = tree.chunk) : forest'.roots = forest.roots := by
  cases h with
  | intro before after left right =>
    simp only [Forest.roots, List.map_append, List.map_cons, hchunk]

theorem Forest.mem_keys {item : Conversation × SplitTree} {c : MessageChunk} (hitem : item ∈ forest.trees)
    (hc : c ∈ item.2.chunks) : messageChunkImportKey I options item.1 c ∈ forest.keys I options :=
  List.mem_flatMap.mpr ⟨item, hitem, List.mem_map_of_mem hc⟩

end

/-! ## Histories -/

/-- The status of the job's row for an import key. -/
def Database.ownStatus (projectId jobId : String) (db : Database) (importKey : String) : Option RecordStatus :=
  (db.chunks.find? fun row => row.projectId = projectId && row.isAt jobId importKey).map ChunkRow.status

/-- The job's own row, and where there is none, the project tell that a chunk was split. -/
def Database.countsAsSplit (projectId jobId : String) (db : Database) (importKey : String) : Bool :=
  match db.ownStatus projectId jobId importKey with
  | some status => status = .split
  | none => db.splitHistory projectId importKey

/-- The row of one import key is written. -/
structure Records (projectId jobId importKey : String) (status : RecordStatus) (db db' : Database) : Prop where
  written : db'.ownStatus projectId jobId importKey = some status
  kept : ∀ key ≠ importKey, db'.ownStatus projectId jobId key = db.ownStatus projectId jobId key

/-- Other imports change nothing about which of the chunks without a row are split. -/
def KeepsHistory (projectId jobId : String) (keys : List String) (db db' : Database) : Prop :=
  ∀ key ∈ keys, db'.ownStatus projectId jobId key = none →
    db'.splitHistory projectId key = db.splitHistory projectId key

section

variable (I : Importer) (options : ImportOptions)

/-- The import key that a run goes by when it processes a chunk: that of the payload it finds for a prepared
chunk, and of the payload it builds for a half. -/
inductive RunKey (prepared : List (Conversation × List MessageChunk)) : Conversation → MessageChunk → String → Prop
  | prepared {item : Conversation × List MessageChunk} {chunkIndex : Nat} {chunk : MessageChunk}
      {payload : ImportPayload} (hitem : item ∈ prepared) (hchunk : item.2[chunkIndex]? = some chunk)
      (hpayload : initialPayload I options prepared item.1 chunkIndex = some payload) :
      RunKey prepared item.1 chunk payload.metadata.importKey
  | half {conversation : Conversation} {parent half : MessageChunk} {key : String} {halves : List MessageChunk}
      (hparent : RunKey prepared conversation parent key)
      (hsplit : splitMessageChunk I.toTokenizer parent key = .ok halves) (hhalf : half ∈ halves) :
      RunKey prepared conversation half (messageChunkImportKey I options conversation half)

/-- The histories of an import: its rows, the trees built so far, and what the current run has prepared. While a
run goes on, no other import of the project splits a chunk that it has no row of. -/
inductive History (projectId jobId : String) (initial : List (Conversation × List MessageChunk)) :
    Database → Forest → List (Conversation × List MessageChunk) → Prop
  | start {db : Database} {forest : Forest} (hnew : ∀ key, db.ownStatus projectId jobId key = none)
      (hroots : forest.roots = initial) (hgenuine : forest.Genuine I options)
      (hrecorded : forest.Recorded I options (db.splitHistory projectId)) :
      History projectId jobId initial db forest []
  | resume {db : Database} {forest : Forest} {before prepared : List (Conversation × List MessageChunk)}
      {superseded : List String} (h : History projectId jobId initial db forest before)
      (hprepared : prepareChunks I options (loadPersistedChunkStatuses projectId jobId db) initial =
        .ok (prepared, superseded)) :
      History projectId jobId initial db forest prepared
  | stop {db : Database} {forest : Forest} {prepared : List (Conversation × List MessageChunk)}
      (h : History projectId jobId initial db forest prepared) : History projectId jobId initial db forest []
  /-- A chunk comes to a status other than split. -/
  | record {db db' : Database} {forest : Forest} {prepared : List (Conversation × List MessageChunk)}
      {conversation : Conversation} {tree : SplitTree} {chunk : MessageChunk} {key : String}
      {status : RecordStatus} (h : History projectId jobId initial db forest prepared)
      (htree : (conversation, tree) ∈ forest.trees) (hleaf : chunk ∈ tree.leaves)
      (hkey : RunKey I options prepared conversation chunk key)
      (hrecords : Records projectId jobId key status db db') (hstatus : status ≠ .split)
      (hhistory : KeepsHistory projectId jobId (forest.keys I options) db db') :
      History projectId jobId initial db' forest prepared
  | split {db db' : Database} {forest forest' : Forest} {prepared : List (Conversation × List MessageChunk)}
      {conversation : Conversation} {tree tree' : SplitTree} {chunk first second : MessageChunk} {key : String}
      (h : History projectId jobId initial db forest prepared)
      (hkey : RunKey I options prepared conversation chunk key)
      (hsplit : splitMessageChunk I.toTokenizer chunk key = .ok [first, second])
      (htree : SplitTree.Splits chunk (.leaf first) (.leaf second) tree tree')
      (hforest : Forest.Replaces conversation tree tree' forest forest')
      (hrecords : Records projectId jobId key .split db db')
      (hhistory : KeepsHistory projectId jobId (forest.keys I options) db db')
      (hfirst : db'.splitHistory projectId (messageChunkImportKey I options conversation first) = false)
      (hsecond : db'.splitHistory projectId (messageChunkImportKey I options conversation second) = false) :
      History projectId jobId initial db' forest' prepared
  /-- Between runs, another import of the project splits a chunk that this one has no row of. -/
  | elsewhere {db db' : Database} {forest forest' : Forest} {conversation : Conversation} {tree tree' : SplitTree}
      {chunk : MessageChunk} {first second : SplitTree} (h : History projectId jobId initial db forest [])
      (hrows : ∀ key, db'.ownStatus projectId jobId key = db.ownStatus projectId jobId key)
      (hnew : db.ownStatus projectId jobId (messageChunkImportKey I options conversation chunk) = none)
      (hsplit : splitMessageChunk I.toTokenizer chunk (messageChunkImportKey I options conversation chunk) =
        .ok [first.chunk, second.chunk])
      (htree : SplitTree.Splits chunk first second tree tree')
      (hforest : Forest.Replaces conversation tree tree' forest forest')
      (hfirst : first.Genuine I options conversation ∧
        first.Recorded I options conversation (db'.splitHistory projectId))
      (hsecond : second.Genuine I options conversation ∧
        second.Recorded I options conversation (db'.splitHistory projectId))
      (hchunk : db'.splitHistory projectId (messageChunkImportKey I options conversation chunk) = true)
      (hhistory : ∀ key ∈ forest.keys I options, key ≠ messageChunkImportKey I options conversation chunk →
        db'.splitHistory projectId key = db.splitHistory projectId key) :
      History projectId jobId initial db' forest' []
  /-- Anything else that other imports do. -/
  | manifests {db db' : Database} {forest : Forest} {prepared : List (Conversation × List MessageChunk)}
      (h : History projectId jobId initial db forest prepared)
      (hrows : ∀ key, db'.ownStatus projectId jobId key = db.ownStatus projectId jobId key)
      (hhistory : KeepsHistory projectId jobId (forest.keys I options) db db') :
      History projectId jobId initial db' forest prepared

end

section

variable {I : Importer} {options : ImportOptions} {projectId jobId : String} {db db' : Database}

theorem isSplit_load (projectId jobId : String) (db : Database) (importKey : String) :
    (loadPersistedChunkStatuses projectId jobId db importKey).any ChunkStatus.isSplit =
      db.countsAsSplit projectId jobId importKey := by
  rw [loadPersistedChunkStatuses, Database.countsAsSplit, Database.ownStatus]
  cases db.chunks.find? fun row => row.projectId = projectId && row.isAt jobId importKey with
  | none =>
    simp only [Option.map_none]
    cases db.splitHistory projectId importKey with
    | true => rfl
    | false => rfl
  | some row =>
    simp only [Option.map_some]
    split
    · rename_i h
      simp [ChunkStatus.isSplit, h.1]
    · simp [ChunkStatus.isSplit]

theorem countsAsSplit_of_kept {key : String}
    (hrow : db'.ownStatus projectId jobId key = db.ownStatus projectId jobId key)
    (hhistory : db'.ownStatus projectId jobId key = none →
      db'.splitHistory projectId key = db.splitHistory projectId key) :
    db'.countsAsSplit projectId jobId key = db.countsAsSplit projectId jobId key := by
  rw [Database.countsAsSplit, Database.countsAsSplit, ← hrow]
  cases hstatus : db'.ownStatus projectId jobId key with
  | none => exact hhistory hstatus
  | some status => rfl

theorem Records.countsAsSplit {key : String} {status : RecordStatus} (h : Records projectId jobId key status db db') :
    db'.countsAsSplit projectId jobId key = decide (status = .split) := by
  rw [Database.countsAsSplit, h.written]

/-- A row that is updated to a status records it. -/
theorem updateChunk_records {fence : Option String} {importKey : String} {now : Instant} {values : ChunkRow → ChunkRow}
    {status : RecordStatus} {r : Option ChunkRow × Database}
    (h : updateChunk fence jobId importKey now values db = .ok r)
    (hvalues : ∀ row, (values row).status = status ∧ (values row).projectId = row.projectId)
    (hrow : db.ownStatus projectId jobId importKey ≠ none) : Records projectId jobId importKey status db r.2 := by
  simp only [updateChunk, bind_ok, pure_ok] at h
  obtain ⟨_, hchecked, rfl⟩ := h
  have hallows : db.allows fence jobId now = true := by
    by_contra hlost
    have hnone : hitRows (fun row : ChunkRow => row.isAt jobId importKey && db.allows fence jobId now) db.chunks = 0 :=
      hitRows_eq_zero.mpr fun row _ => by simp [hlost]
    simp [hnone, checkTouched, assertActiveLease, hlost] at hchecked
  have hfind : ∀ key, (updateRows (fun row : ChunkRow => row.isAt jobId importKey && db.allows fence jobId now)
      (fun row => { values row with id := row.id, jobId := row.jobId, importKey := row.importKey }) db.chunks).find?
        (fun row => row.projectId = projectId && row.isAt jobId key) = _ := fun key =>
    find?_updateRows fun row => by simp only [ChunkRow.isAt, (hvalues row).2]
  constructor
  · rw [Database.ownStatus, hfind, Option.map_map]
    cases hfound : db.chunks.find? fun row => row.projectId = projectId && row.isAt jobId importKey with
    | none => simp [Database.ownStatus, hfound] at hrow
    | some row =>
      have hat := List.find?_some hfound
      simp only [Bool.and_eq_true] at hat
      simp [hat.2, hallows, (hvalues row).1]
  · intro key hne
    rw [Database.ownStatus, Database.ownStatus, hfind, Option.map_map]
    cases hfound : db.chunks.find? fun row => row.projectId = projectId && row.isAt jobId key with
    | none => rfl
    | some row =>
      have hat := List.find?_some hfound
      simp only [ChunkRow.isAt, Bool.and_eq_true, decide_eq_true_eq] at hat
      simp [ChunkRow.isAt, hat.2.2, hne]

/-- Where no source repeats, a run goes by the key of the chunk itself. -/
theorem RunKey.own {prepared : List (Conversation × List MessageChunk)} (hsources : SourcesApart prepared)
    {conversation : Conversation} {chunk : MessageChunk} {key : String}
    (h : RunKey I options prepared conversation chunk key) :
    key = messageChunkImportKey I options conversation chunk := by
  cases h with
  | prepared hitem hchunk hpayload =>
    rw [initialPayload_own I options hsources hitem hchunk] at hpayload
    cases hpayload
    rfl
  | half _ _ _ => rfl

end

/-! ## What every history keeps -/

/-- The rows record the trees. -/
structure Rebuilt (I : Importer) (options : ImportOptions) (projectId jobId : String)
    (initial : List (Conversation × List MessageChunk)) (db : Database) (forest : Forest) : Prop where
  roots : forest.roots = initial
  genuine : forest.Genuine I options
  recorded : forest.Recorded I options (db.countsAsSplit projectId jobId)
  rows : ∀ key, db.ownStatus projectId jobId key ≠ none → key ∈ forest.keys I options

section

variable {I : Importer} {options : ImportOptions} {projectId jobId : String} {db db' : Database}
  {initial : List (Conversation × List MessageChunk)} {conversation : Conversation} {chunk : MessageChunk}
  {first second tree tree' : SplitTree} {forest forest' : Forest}

theorem Forest.Replaces.mem (h : Forest.Replaces conversation tree tree' forest forest') :
    (conversation, tree) ∈ forest.trees := by
  obtain ⟨before, after, htrees, -⟩ := h.trees
  rw [htrees]
  exact List.mem_append_right _ List.mem_cons_self

theorem Forest.Replaces.genuine (h : Forest.Replaces conversation tree tree' forest forest')
    (hforest : forest.Genuine I options) (htree : tree'.Genuine I options conversation) :
    forest'.Genuine I options := by
  obtain ⟨before, after, htrees, htrees'⟩ := h.trees
  intro item hitem
  rw [htrees', List.mem_append, List.mem_cons] at hitem
  rcases hitem with hitem | rfl | hitem
  · exact hforest item (htrees ▸ List.mem_append_left _ hitem)
  · exact htree
  · exact hforest item (htrees ▸ List.mem_append_right _ (List.mem_cons_of_mem _ hitem))

theorem Forest.Replaces.keys (h : Forest.Replaces conversation tree tree' forest forest')
    (htree : SplitTree.Splits chunk first second tree tree') : (forest'.keys I options).Perm
      (forest.keys I options ++ (first.chunks ++ second.chunks).map (messageChunkImportKey I options conversation)) := by
  obtain ⟨before, after, htrees, htrees'⟩ := h.trees
  have hperm := htree.chunks.map (messageChunkImportKey I options conversation)
  rw [List.map_append] at hperm
  simp only [Forest.keys, htrees, htrees', List.flatMap_append, List.flatMap_cons]
  generalize List.flatMap _ before = xs
  generalize List.flatMap _ after = ys
  have hswap : (tree'.chunks.map (messageChunkImportKey I options conversation) ++ ys).Perm
      (tree.chunks.map (messageChunkImportKey I options conversation) ++ ys ++
        (first.chunks ++ second.chunks).map (messageChunkImportKey I options conversation)) := by
    refine (hperm.append_right ys).trans ?_
    rw [List.append_assoc, List.append_assoc]
    exact List.perm_append_comm.append_left _
  rw [List.append_assoc]
  exact hswap.append_left xs

/-- The rows record the trees after a leaf is split. -/
theorem Rebuilt.grow (h : Rebuilt I options projectId jobId initial db forest)
    (hnodup : ∀ forest : Forest, forest.Genuine I options → forest.roots = initial →
      (forest.keys I options).Nodup)
    (hsplit : splitMessageChunk I.toTokenizer chunk (messageChunkImportKey I options conversation chunk) =
      .ok [first.chunk, second.chunk])
    (htree : SplitTree.Splits chunk first second tree tree')
    (hforest : Forest.Replaces conversation tree tree' forest forest')
    (hfirst : first.Genuine I options conversation ∧
      first.Recorded I options conversation (db'.splitHistory projectId))
    (hsecond : second.Genuine I options conversation ∧
      second.Recorded I options conversation (db'.splitHistory projectId))
    (hsame : ∀ key ∈ forest.keys I options, key ≠ messageChunkImportKey I options conversation chunk →
      db'.countsAsSplit projectId jobId key = db.countsAsSplit projectId jobId key)
    (hchunk : db'.countsAsSplit projectId jobId (messageChunkImportKey I options conversation chunk) = true)
    (hrows : ∀ key, db'.ownStatus projectId jobId key ≠ none → key ∈ forest.keys I options) :
    Rebuilt I options projectId jobId initial db' forest' := by
  have hmem := hforest.mem
  have hroots := (hforest.roots htree.chunk_eq).trans h.roots
  have hgenuine := hforest.genuine h.genuine (htree.genuine (h.genuine _ hmem) hsplit hfirst.1 hsecond.1)
  have hkeys : (forest'.keys I options).Perm (forest.keys I options ++
      (first.chunks ++ second.chunks).map (messageChunkImportKey I options conversation)) := hforest.keys htree
  -- The new chunks have keys that no row has.
  have hfresh : ∀ c ∈ first.chunks ++ second.chunks,
      db'.ownStatus projectId jobId (messageChunkImportKey I options conversation c) = none := by
    intro c hc
    by_contra hrow
    have hdisjoint := (List.nodup_append.mp (hkeys.nodup_iff.mp (hnodup forest' hgenuine hroots))).2.2
    exact hdisjoint _ (hrows _ hrow) _ (List.mem_map_of_mem hc) rfl
  have hcounts : ∀ c ∈ first.chunks ++ second.chunks,
      db'.countsAsSplit projectId jobId (messageChunkImportKey I options conversation c) =
        db'.splitHistory projectId (messageChunkImportKey I options conversation c) := by
    intro c hc
    rw [Database.countsAsSplit, hfresh c hc]
  refine ⟨hroots, hgenuine, ?_, fun key hkey => ?_⟩
  · have htreeNodup : (tree.chunks.map (messageChunkImportKey I options conversation)).Nodup :=
      (List.nodup_flatMap.mp (hnodup forest h.genuine h.roots)).1 _ hmem
    have hrecorded := htree.recorded (h.recorded _ hmem) htreeNodup
      (fun c hc hne => hsame _ (Forest.mem_keys hmem hc) hne) hchunk
      (hfirst.2.congr fun c hc => hcounts c (List.mem_append_left _ hc))
      (hsecond.2.congr fun c hc => hcounts c (List.mem_append_right _ hc))
    -- No other tree has a chunk of this key.
    have hothers : ∀ item ∈ forest.trees, (∃ before after, forest.trees = before ++ (conversation, tree) :: after ∧
        (item ∈ before ∨ item ∈ after)) → ∀ c ∈ item.2.chunks, messageChunkImportKey I options item.1 c ≠
          messageChunkImportKey I options conversation chunk := by
      rintro item hitem ⟨before, after, htrees, hside⟩ c hc heq
      have hpairs := (List.nodup_flatMap.mp (hnodup forest h.genuine h.roots)).2
      rw [htrees, List.pairwise_append, List.pairwise_cons] at hpairs
      have hin := List.mem_map_of_mem (f := messageChunkImportKey I options item.1) hc
      have hself := List.mem_map_of_mem (f := messageChunkImportKey I options conversation)
        (tree.leaves_subset htree.mem)
      rcases hside with hside | hside
      · exact hpairs.2.2 item hside _ List.mem_cons_self hin (heq ▸ hself)
      · exact hpairs.2.1.1 item hside hself (heq ▸ hin)
    obtain ⟨before, after, htrees, htrees'⟩ := hforest.trees
    intro item hitem
    have hold : item ∈ before ∨ item ∈ after → item.2.Recorded I options item.1 (db'.countsAsSplit projectId jobId) := by
      intro hside
      have hitem : item ∈ forest.trees := by
        rw [htrees, List.mem_append, List.mem_cons]
        exact hside.imp_right Or.inr
      exact (h.recorded _ hitem).congr fun c hc => hsame _ (Forest.mem_keys hitem hc)
        (hothers item hitem ⟨before, after, htrees, hside⟩ c hc)
    rw [htrees', List.mem_append, List.mem_cons] at hitem
    rcases hitem with hitem | rfl | hitem
    · exact hold (.inl hitem)
    · exact hrecorded
    · exact hold (.inr hitem)
  · exact hkeys.symm.subset (List.mem_append_left _ (hrows key hkey))

theorem Rebuilt.recorded_statuses (h : Rebuilt I options projectId jobId initial db forest) :
    forest.Recorded I options fun key =>
      (loadPersistedChunkStatuses projectId jobId db key).any ChunkStatus.isSplit := by
  have hrecorded := h.recorded
  rwa [← funext (isSplit_load projectId jobId db)] at hrecorded

theorem Forest.map_source_leaves (forest : Forest) :
    (forest.leaves.filter fun item => !item.2.isEmpty).map (fun item => item.1.source) =
      (forest.roots.filter fun item => !item.2.isEmpty).map fun item => item.1.source := by
  have hempty : ∀ trees : List SplitTree,
      (trees.flatMap SplitTree.leaves).isEmpty = (trees.map SplitTree.chunk).isEmpty := by
    intro trees
    cases trees with
    | nil => rfl
    | cons tree rest =>
      have hne : tree.leaves ≠ [] := by
        induction tree with
        | leaf chunk => exact List.cons_ne_nil _ _
        | node chunk first second ihfirst _ => exact List.append_ne_nil_of_left_ne_nil ihfirst _
      rw [List.flatMap_cons, List.isEmpty_eq_false_iff.mpr (List.append_ne_nil_of_left_ne_nil hne _)]
      rfl
  simp only [Forest.leaves, Forest.roots, List.filter_map, Function.comp_def, hempty, List.map_map]

theorem History.rebuilt {prepared : List (Conversation × List MessageChunk)}
    (hnodup : ∀ forest : Forest, forest.Genuine I options → forest.roots = initial →
      (forest.keys I options).Nodup)
    (hformed : ∀ root ∈ rootChunks initial, root.2.Formed)
    (hinj : Set.InjOn I.importKey (keyMaterials I options initial))
    (hsources : SourcesApart (initial.filter fun item => !item.2.isEmpty))
    (h : History I options projectId jobId initial db forest prepared) :
    Rebuilt I options projectId jobId initial db forest ∧ SourcesApart prepared := by
  induction h with
  | start hnew hroots hgenuine hrecorded =>
    refine ⟨⟨hroots, hgenuine, fun item hitem => ?_, fun key hkey => absurd (hnew key) hkey⟩, List.nodup_nil⟩
    refine (hrecorded item hitem).congr fun c _ => ?_
    rw [Database.countsAsSplit, hnew]
  | @resume db forest before prepared superseded h hprepared ih =>
    refine ⟨ih.1, ?_⟩
    rw [prepareChunks_forest ih.1.genuine ih.1.roots hformed hinj ih.1.recorded_statuses] at hprepared
    cases hprepared
    rw [SourcesApart, Forest.map_source_leaves, ih.1.roots]
    exact hsources
  | stop h ih => exact ⟨ih.1, List.nodup_nil⟩
  | @record db db' forest prepared conversation tree chunk key status h htree hleaf hkey hrecords hstatus hhistory ih =>
    obtain ⟨hrebuilt, hprepared⟩ := ih
    rw [hkey.own hprepared] at hrecords
    refine ⟨⟨hrebuilt.roots, hrebuilt.genuine, fun item hitem => ?_, fun k hrow => ?_⟩, hprepared⟩
    · refine (hrebuilt.recorded item hitem).congr fun c hc => ?_
      by_cases heq : messageChunkImportKey I options item.1 c = messageChunkImportKey I options conversation chunk
      · have hbefore : ∀ tree : SplitTree, tree.Recorded I options conversation (db.countsAsSplit projectId jobId) →
            ∀ c ∈ tree.leaves, db.countsAsSplit projectId jobId (messageChunkImportKey I options conversation c) =
              false := by
          intro tree
          induction tree with
          | leaf c =>
            intro h c hc
            rw [List.mem_singleton.mp hc]
            exact h
          | node c first second ihfirst ihsecond =>
            intro h c hc
            exact (List.mem_append.mp hc).elim (ihfirst h.2.1 c) (ihsecond h.2.2 c)
        rw [heq, hrecords.countsAsSplit, hbefore tree (hrebuilt.recorded _ htree) chunk hleaf]
        exact decide_eq_false hstatus
      · exact countsAsSplit_of_kept (hrecords.kept _ heq) (hhistory _ (Forest.mem_keys hitem hc))
    · by_cases heq : k = messageChunkImportKey I options conversation chunk
      · rw [heq]
        exact Forest.mem_keys htree (tree.leaves_subset hleaf)
      · rw [hrecords.kept k heq] at hrow
        exact hrebuilt.rows k hrow
  | @split db db' forest forest' prepared conversation tree tree' chunk first second key h hkey hsplit htree hforest
      hrecords hhistory hfirst hsecond ih =>
    obtain ⟨hrebuilt, hprepared⟩ := ih
    rw [hkey.own hprepared] at hrecords hsplit
    refine ⟨hrebuilt.grow hnodup hsplit htree hforest ⟨trivial, hfirst⟩ ⟨trivial, hsecond⟩ ?_ ?_ ?_, hprepared⟩
    · exact fun k hk hne => countsAsSplit_of_kept (hrecords.kept k hne) (hhistory k hk)
    · exact hrecords.countsAsSplit
    · intro k hrow
      by_cases heq : k = messageChunkImportKey I options conversation chunk
      · rw [heq]
        exact Forest.mem_keys hforest.mem (tree.leaves_subset htree.mem)
      · rw [hrecords.kept k heq] at hrow
        exact hrebuilt.rows k hrow
  | elsewhere h hrows hnew hsplit htree hforest hfirst hsecond hchunk hhistory ih =>
    obtain ⟨hrebuilt, hprepared⟩ := ih
    refine ⟨hrebuilt.grow hnodup hsplit htree hforest hfirst hsecond ?_ ?_ ?_, hprepared⟩
    · exact fun k hk hne => countsAsSplit_of_kept (hrows k) fun _ => hhistory k hk hne
    · rw [Database.countsAsSplit, hrows, hnew]
      exact hchunk
    · intro k hrow
      rw [hrows] at hrow
      exact hrebuilt.rows k hrow
  | manifests h hrows hhistory ih =>
    obtain ⟨hrebuilt, hprepared⟩ := ih
    refine ⟨⟨hrebuilt.roots, hrebuilt.genuine, fun item hitem => ?_, fun k hrow => ?_⟩, hprepared⟩
    · exact (hrebuilt.recorded item hitem).congr fun c hc =>
        countsAsSplit_of_kept (hrows _) (hhistory _ (Forest.mem_keys hitem hc))
    · rw [hrows] at hrow
      exact hrebuilt.rows k hrow

/-- In every history of an import whose chunks have sources and key materials of their own, the next run prepares
exactly the leaves of the trees built so far. -/
theorem resumed_run_prepares_leaves (I : Importer) (options : ImportOptions) (projectId jobId : String)
    {conversations : List Conversation} {initial : List (Conversation × List MessageChunk)}
    (hinitial : initialChunks I options conversations = .ok initial)
    (hsources : SourcesApart (initial.filter fun item => !item.2.isEmpty))
    (hapart : KeysApart I options initial)
    (hinj : Set.InjOn I.importKey (keyMaterials I options initial))
    {db : Database} {forest : Forest} {prepared : List (Conversation × List MessageChunk)}
    (h : History I options projectId jobId initial db forest prepared) :
    forest.roots = initial ∧ forest.Genuine I options ∧
      prepareChunks I options (loadPersistedChunkStatuses projectId jobId db) initial =
        .ok (forest.leaves.filter fun item => !item.2.isEmpty,
          forest.supersededKeys I options (loadPersistedChunkStatuses projectId jobId db)) ∧
      (∀ key, db.ownStatus projectId jobId key ≠ none → key ∈ forest.keys I options) ∧
      forest.Recorded I options (db.countsAsSplit projectId jobId) := by
  have hformed : ∀ root ∈ rootChunks initial, root.2.Formed := by
    intro root hroot
    obtain ⟨item, hitem, -, hchunk⟩ := mem_rootChunks.mp hroot
    exact initialChunks_formed hinitial item hitem root.2 hchunk
  have hnodup : ∀ forest : Forest, forest.Genuine I options → forest.roots = initial →
      (forest.keys I options).Nodup := fun forest hgenuine hroots => hgenuine.keys_nodup hroots hformed hapart hinj
  obtain ⟨hrebuilt, -⟩ := h.rebuilt hnodup hformed hinj hsources
  exact ⟨hrebuilt.roots, hrebuilt.genuine,
    prepareChunks_forest hrebuilt.genuine hrebuilt.roots hformed hinj hrebuilt.recorded_statuses,
    hrebuilt.rows, hrebuilt.recorded⟩

end

/-! ## Talks of two messages -/

theorem descends_unsplit {I : Importer} {options : ImportOptions} {conversation : Conversation}
    {chunk c : MessageChunk}
    (hchunk : splitMessageChunk I.toTokenizer chunk (messageChunkImportKey I options conversation chunk) = .ok [])
    (h : Descends I options conversation chunk c) : c = chunk := by
  cases h with
  | refl => rfl
  | first hsplit _ =>
    rw [hchunk] at hsplit
    cases hsplit
  | second hsplit _ =>
    rw [hchunk] at hsplit
    cases hsplit

/-- The halves of a chunk that splits no further. -/
theorem descends_halves {I : Importer} {options : ImportOptions} {conversation : Conversation}
    {root first second c : MessageChunk}
    (hroot : splitMessageChunk I.toTokenizer root (messageChunkImportKey I options conversation root) =
      .ok [first, second])
    (hfirst : splitMessageChunk I.toTokenizer first (messageChunkImportKey I options conversation first) = .ok [])
    (hsecond : splitMessageChunk I.toTokenizer second (messageChunkImportKey I options conversation second) = .ok [])
    (h : Descends I options conversation root c) : c ∈ [root, first, second] := by
  cases h with
  | refl => exact List.mem_cons_self
  | first hsplit h =>
    rw [hroot] at hsplit
    cases hsplit
    rw [descends_unsplit hfirst h]
    simp
  | second hsplit h =>
    rw [hroot] at hsplit
    cases hsplit
    rw [descends_unsplit hsecond h]
    simp

def namedImporter : Importer where
  toChunker := plainChunker
  importKey material := match material.coreSourceIndices with
    | [0] => material.conversationTitle ++ ", first half"
    | [1] => material.conversationTitle ++ ", second half"
    | _ => material.conversationTitle
  entityScopeHash _ := ""
  redact text := text
  isoDatetime _ := none

def plainOptions : ImportOptions where
  toChunkOptions := defaultChunkOptions
  entities := []
  infer := true
  redactSecrets := false
  skipDuplicates := true
  maxSplitDepth := 2
  batchId := "batch"
  importKeySchemaVersion := 2

/-- A conversation of two messages that nobody answered. -/
def talk (title : String) : Conversation where
  id := "talk"
  title := title
  messages := [⟨"user", ['h', 'i'], none, none, 0⟩, ⟨"user", ['y', 'o'], none, none, 0⟩]
  createdAt := none
  updatedAt := none
  sourcePath := "talks.json"
  sourceApp := "chat"
  sourceUrl := none

def talkChunk : MessageChunk :=
  ⟨ensureSourceIndices (talk "").messages, 14, [0, 1], [0, 1], 0, 0, none⟩

def firstHalf (parent : String) : MessageChunk :=
  ⟨[⟨"user", ['h', 'i'], none, some 0, 0⟩], 7, [0], [0], 0, 1, some parent⟩

def secondHalf (parent : String) : MessageChunk :=
  ⟨[⟨"user", ['y', 'o'], none, some 1, 0⟩], 7, [1], [1], 0, 1, some parent⟩

theorem initialChunks_talk (title : String) :
    initialChunks namedImporter plainOptions [talk title] = .ok [(talk title, [talkChunk])] := rfl

theorem split_talkChunk (key : String) :
    splitMessageChunk namedImporter.toTokenizer talkChunk key = .ok [firstHalf key, secondHalf key] := rfl

theorem splitMessageChunk_parent (T : Tokenizer) (chunk : MessageChunk) (parent : Option String) (key : String) :
    splitMessageChunk T { chunk with parentImportKey := parent } key = splitMessageChunk T chunk key := rfl

theorem split_firstHalf (key parent : String) :
    splitMessageChunk namedImporter.toTokenizer (firstHalf parent) key = .ok [] :=
  (splitMessageChunk_parent namedImporter.toTokenizer (firstHalf "") (some parent) key).trans rfl

theorem split_secondHalf (key parent : String) :
    splitMessageChunk namedImporter.toTokenizer (secondHalf parent) key = .ok [] :=
  (splitMessageChunk_parent namedImporter.toTokenizer (secondHalf "") (some parent) key).trans rfl

theorem importKey_talkChunk (title : String) :
    messageChunkImportKey namedImporter plainOptions (talk title) talkChunk = title := rfl

theorem descends_talk {title : String} {c : MessageChunk}
    (h : Descends namedImporter plainOptions (talk title) talkChunk c) :
    c ∈ [talkChunk, firstHalf title, secondHalf title] := by
  refine descends_halves ?_ (split_firstHalf _ title) (split_secondHalf _ title) h
  rw [importKey_talkChunk]
  exact split_talkChunk title

theorem keyMaterials_talk (titles : List String) :
    keyMaterials namedImporter plainOptions (titles.map fun title => (talk title, [talkChunk])) ⊆
      {m | m ∈ titles.flatMap fun title => [talkChunk, firstHalf title, secondHalf title].map
        (keyMaterial plainOptions (talk title))} := by
  rintro m ⟨root, hroot, c, hc, rfl⟩
  obtain ⟨item, hitem, heq, hchunk⟩ := mem_rootChunks.mp hroot
  obtain ⟨title, htitle, rfl⟩ := List.mem_map.mp hitem
  obtain ⟨conversation, chunk⟩ := root
  cases heq
  cases List.mem_singleton.mp hchunk
  have hin := descends_talk hc
  exact List.mem_flatMap.mpr ⟨title, htitle, List.mem_map_of_mem hin⟩

theorem injOn_talk {titles : List String} (h : (titles.flatMap fun title =>
    [title, title ++ ", first half", title ++ ", second half"]).Nodup) :
    Set.InjOn namedImporter.importKey
      (keyMaterials namedImporter plainOptions (titles.map fun title => (talk title, [talkChunk]))) := by
  intro m hm m' hm' heq
  refine List.inj_on_of_nodup_map ?_ (keyMaterials_talk titles hm) (keyMaterials_talk titles hm') heq
  rw [List.map_flatMap]
  exact h

theorem keysApart_talk (title : String) : KeysApart namedImporter plainOptions [(talk title, [talkChunk])] where
  roots := List.pairwise_singleton _ _
  halves := by
    intro root hroot parent first second hparent hsplit c d hc hd heq
    obtain ⟨item, hitem, hconversation, hchunk⟩ := mem_rootChunks.mp hroot
    cases List.mem_singleton.mp hitem
    obtain ⟨conversation, chunk⟩ := root
    cases hconversation
    cases List.mem_singleton.mp hchunk
    have hin := descends_talk hparent
    simp only [List.mem_cons, List.not_mem_nil, or_false] at hin
    rcases hin with rfl | rfl | rfl
    · cases hsplit
      rw [descends_unsplit (split_firstHalf _ title) hc, descends_unsplit (split_secondHalf _ title) hd] at heq
      have hcore := congrArg KeyMaterial.coreSourceIndices heq
      cases hcore
    · rw [split_firstHalf] at hsplit
      cases hsplit
    · rw [split_secondHalf] at hsplit
      cases hsplit

def noRows : Database := ⟨[], [], [], [], [], []⟩

/-- The row of one chunk that was split. -/
def splitRow (importKey : String) : Database :=
  { noRows with chunks := [⟨"chunk", "job", "project", importKey, "talk", .split, 1, 0, none, 0, [], [], none, none⟩] }

theorem records_splitRow (importKey : String) :
    Records "project" "job" importKey .split noRows (splitRow importKey) where
  written := by simp [Database.ownStatus, splitRow, ChunkRow.isAt]
  kept := by
    intro key hne
    have : importKey ≠ key := hne.symm
    simp [Database.ownStatus, splitRow, noRows, ChunkRow.isAt, this]

def talks (titles : List String) : List (Conversation × List MessageChunk) :=
  titles.map fun title => (talk title, [talkChunk])

theorem history_talks (titles : List String) : History namedImporter plainOptions "project" "job" (talks titles)
    noRows (titles.map fun title => (talk title, [.leaf talkChunk])) [] := by
  have hleaf : ∀ item ∈ Forest.trees (titles.map fun title => (talk title, [.leaf talkChunk])),
      item.2 = .leaf talkChunk := by
    intro item hitem
    obtain ⟨entry, hentry, hitem⟩ := List.mem_flatMap.mp hitem
    obtain ⟨title, -, rfl⟩ := List.mem_map.mp hentry
    obtain ⟨tree, htree, rfl⟩ := List.mem_map.mp hitem
    exact List.mem_singleton.mp htree
  refine .start (fun _ => rfl) ?_ (fun item hitem => ?_) fun item hitem => ?_
  · rw [Forest.roots, List.map_map]
    rfl
  · rw [hleaf item hitem]
    trivial
  · rw [hleaf item hitem]
    rfl

/-- The next run after a split prepares the halves. -/
theorem talk_resumed : prepareChunks namedImporter plainOptions
      (loadPersistedChunkStatuses "project" "job" (splitRow "hi")) (talks ["hi"]) =
    .ok ([(talk "hi", [firstHalf "hi", secondHalf "hi"])], []) := by
  have hstarted : History namedImporter plainOptions "project" "job" (talks ["hi"]) noRows _ (talks ["hi"]) :=
    .resume (history_talks ["hi"]) rfl
  have hkey : RunKey namedImporter plainOptions (talks ["hi"]) (talk "hi") talkChunk "hi" :=
    .prepared (List.mem_singleton_self (talk "hi", [talkChunk])) (rfl : [talkChunk][0]? = _) rfl
  have hsplit : History namedImporter plainOptions "project" "job" (talks ["hi"]) (splitRow "hi")
      [(talk "hi", [.node talkChunk (.leaf (firstHalf "hi")) (.leaf (secondHalf "hi"))])] (talks ["hi"]) :=
    .split hstarted hkey (split_talkChunk "hi") .here (.intro [] [] [] []) (records_splitRow "hi")
      (fun _ _ _ => rfl) rfl rfl
  exact (resumed_run_prepares_leaves namedImporter plainOptions "project" "job" (initialChunks_talk "hi")
    (List.nodup_singleton _) (keysApart_talk "hi") (@injOn_talk ["hi"] (by decide)) hsplit).2.2.1

/-- Of two conversations with one source path and id, a split of the first is recorded as one of the last. -/
theorem split_of_namesake : ¬ ∀ (I : Importer) (options : ImportOptions) (projectId jobId : String)
    (conversations : List Conversation) (initial : List (Conversation × List MessageChunk)),
    initialChunks I options conversations = .ok initial →
    Set.InjOn I.importKey (keyMaterials I options initial) →
    ∀ (db : Database) (forest : Forest) (prepared : List (Conversation × List MessageChunk)),
      History I options projectId jobId initial db forest prepared →
      prepareChunks I options (loadPersistedChunkStatuses projectId jobId db) initial =
        .ok (forest.leaves.filter fun item => !item.2.isEmpty,
          forest.supersededKeys I options (loadPersistedChunkStatuses projectId jobId db)) := by
  intro h
  have hstarted : History namedImporter plainOptions "project" "job" (talks ["hi", "hello"]) noRows _
      (talks ["hi", "hello"]) := .resume (history_talks ["hi", "hello"]) rfl
  have hkey : RunKey namedImporter plainOptions (talks ["hi", "hello"]) (talk "hi") talkChunk "hello" :=
    RunKey.prepared (List.mem_cons_self : (talk "hi", [talkChunk]) ∈ talks ["hi", "hello"])
      (rfl : [talkChunk][0]? = _) (rfl : initialPayload namedImporter plainOptions (talks ["hi", "hello"]) (talk "hi") 0 =
        some (buildPayload namedImporter plainOptions (talk "hello") talkChunk 0 1))
  have hsplit : History namedImporter plainOptions "project" "job" (talks ["hi", "hello"]) (splitRow "hello")
      [(talk "hi", [.node talkChunk (.leaf (firstHalf "hello")) (.leaf (secondHalf "hello"))]),
        (talk "hello", [.leaf talkChunk])] (talks ["hi", "hello"]) :=
    .split hstarted hkey (split_talkChunk "hello") .here (.intro [] [(talk "hello", [.leaf talkChunk])] [] [])
      (records_splitRow "hello") (fun _ _ _ => rfl) rfl rfl
  have hprepared := h namedImporter plainOptions "project" "job" [talk "hi", talk "hello"] (talks ["hi", "hello"]) rfl
    (@injOn_talk ["hi", "hello"] (by decide)) _ _ _ hsplit
  have hlengths := congrArg (fun made => made.toOption.map fun prepared =>
    prepared.1.map fun item => item.2.length) hprepared
  revert hlengths
  decide +kernel

end YiQiao
