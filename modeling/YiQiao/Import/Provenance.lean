import YiQiao.Import.Resume

/-!
# What is recorded of a split

A row is recorded for a chunk and for each half of a split, with the source messages that it is from and
those that are its own. The report of an import checks the rows of a split against each other.
-/

namespace YiQiao

open Lib Lib.Fallible

/-! ## Rows -/

/-- `ChunkExecution`. -/
structure ChunkExecution where
  conversation : Conversation
  chunk : MessageChunk
  chunkIndex : Nat
  chunkCount : Nat
  importKey : String

/-- The columns of a chunk's row that say where it is from. -/
structure ProvenanceRow where
  importKey : String
  conversationId : String
  chunkIndex : Nat
  chunkCount : Nat
  sourceMessageStart : Option Int
  sourceMessageEnd : Option Int
  sourceMessageIndices : List Int
  coreSourceMessageIndices : List Int
  sourceTurnStart : Option Int
  sourceTurnEnd : Option Int
  parentImportKey : Option String
  splitDepth : Nat
  sourcePath : String

/-- `_ensure_import_chunk`. -/
def ensureImportChunk (execution : ChunkExecution) : ProvenanceRow where
  importKey := execution.importKey
  conversationId := execution.conversation.id
  chunkIndex := execution.chunkIndex
  chunkCount := execution.chunkCount
  sourceMessageStart := execution.chunk.sourceIndices.min?
  sourceMessageEnd := execution.chunk.sourceIndices.max?
  sourceMessageIndices := execution.chunk.sourceIndices
  coreSourceMessageIndices := execution.chunk.coreSourceIndices
  sourceTurnStart := execution.chunk.coreSourceIndices.min?
  sourceTurnEnd := execution.chunk.coreSourceIndices.max?
  parentImportKey := execution.chunk.parentImportKey
  splitDepth := execution.chunk.splitDepth
  sourcePath := execution.conversation.sourcePath

section

variable (I : Importer) (options : ImportOptions) (conversation : Conversation)

/-- `process_chunk` of a chunk at its place. -/
def executionOf (chunk : MessageChunk) (chunkIndex chunkCount : Nat) : ChunkExecution where
  conversation := conversation
  chunk := chunk
  chunkIndex := chunkIndex
  chunkCount := chunkCount
  importKey := messageChunkImportKey I options conversation chunk

/-- `process_split_children`: the halves are processed with their places among each other. -/
def splitExecutions (children : List MessageChunk) : List ChunkExecution :=
  children.zipIdx.map fun child => executionOf I options conversation child.1 child.2 children.length

/-- What is processed of a conversation: its chunks, and the halves of what is split. -/
inductive Processed : ChunkExecution → Prop
  | chunk {chunks : List MessageChunk} {chunk : MessageChunk} {chunkIndex : Nat} :
      adaptiveChunkMessages I.toChunker options.toChunkOptions conversation.messages = .ok chunks →
      chunks[chunkIndex]? = some chunk →
      Processed (executionOf I options conversation chunk chunkIndex chunks.length)
  | half {parent child : ChunkExecution} {children : List MessageChunk} :
      Processed parent → splitMessageChunk I.toTokenizer parent.chunk parent.importKey = .ok children →
      child ∈ splitExecutions I options conversation children → Processed child

end

/-! ## The report -/

/-- What `build_report` finds wrong with the rows of a split. -/
inductive Mismatch where
  | invalidProvenance | coreOutsideSource | messageBoundary | turnBoundary | chunkPosition | orphanSplitDepth
  | parentLink | parentDepth | parentConversation | splitChildCount
  | coreCoverage | coreDuplication | coreOutsideParent | sourceCoverage | sourceOutsideParent
  | overlapOnParentCore | splitChildPosition | splitSourcePath
  deriving DecidableEq, Repr

def mismatch (ok : Prop) [Decidable ok] (found : Mismatch) : List Mismatch := if ok then [] else [found]

@[simp]
theorem mismatch_nil {ok : Prop} [Decidable ok] {found : Mismatch} : mismatch ok found = [] ↔ ok := by
  simp [mismatch]

def ProvenanceRow.source (row : ProvenanceRow) : Finset Int := row.sourceMessageIndices.toFinset

def ProvenanceRow.core (row : ProvenanceRow) : Finset Int := row.coreSourceMessageIndices.toFinset

/-- The checks of a row by itself. -/
def rowMismatches (row : ProvenanceRow) : List Mismatch :=
  mismatch (row.sourceMessageIndices.Nodup ∧ row.coreSourceMessageIndices.Nodup ∧ row.source ≠ ∅ ∧ row.core ≠ ∅)
    .invalidProvenance ++
  mismatch (row.core ⊆ row.source) .coreOutsideSource ++
  mismatch (row.sourceMessageStart = row.sourceMessageIndices.min? ∧
    row.sourceMessageEnd = row.sourceMessageIndices.max?) .messageBoundary ++
  mismatch (row.sourceTurnStart = row.coreSourceMessageIndices.min? ∧
    row.sourceTurnEnd = row.coreSourceMessageIndices.max?) .turnBoundary ++
  mismatch (1 ≤ row.chunkCount ∧ row.chunkIndex < row.chunkCount) .chunkPosition ++
  mismatch (row.parentImportKey.isNone → row.splitDepth = 0) .orphanSplitDepth

/-- The checks of a row against its parent's. -/
def linkMismatches (parent child : ProvenanceRow) : List Mismatch :=
  mismatch (child.parentImportKey = some parent.importKey) .parentLink ++
  mismatch (child.splitDepth = parent.splitDepth + 1) .parentDepth ++
  mismatch (child.conversationId = parent.conversationId) .parentConversation

/-- The checks of two children's rows with their parent's. -/
def splitMismatches (parent first second : ProvenanceRow) : List Mismatch :=
  mismatch (first.core ∪ second.core = parent.core) .coreCoverage ++
  mismatch (first.core ∩ second.core = ∅) .coreDuplication ++
  mismatch (first.core ⊆ parent.core ∧ second.core ⊆ parent.core) .coreOutsideParent ++
  mismatch (first.source ∪ second.source = parent.source) .sourceCoverage ++
  mismatch (first.source ⊆ parent.source ∧ second.source ⊆ parent.source) .sourceOutsideParent ++
  mismatch (first.source ∩ second.source ∩ parent.core = ∅) .overlapOnParentCore ++
  mismatch ((first.chunkIndex, second.chunkIndex) ∈ [(0, 1), (1, 0)] ∧ first.chunkCount = 2 ∧
    second.chunkCount = 2) .splitChildPosition ++
  mismatch (first.sourcePath = parent.sourcePath ∧ second.sourcePath = parent.sourcePath) .splitSourcePath

/-- `build_report` on the rows of a chunk and of the halves it was split in. -/
def splitReport (parent : ProvenanceRow) (children : List ProvenanceRow) : List Mismatch :=
  rowMismatches parent ++ children.flatMap rowMismatches ++ children.flatMap (linkMismatches parent) ++
    match children with
    | [first, second] => splitMismatches parent first second
    | _ => [.splitChildCount]

/-! ## Rows of their own -/

/-- The source messages of a chunk as they are made. -/
structure MessageChunk.Sourced (chunk : MessageChunk) : Prop where
  source : ∀ i, i ∈ chunk.sourceIndices ↔ ∃ m ∈ chunk.messages, m.sourceIndex = some i
  source_nodup : chunk.sourceIndices.Nodup
  core : ∀ i ∈ chunk.coreSourceIndices, i ∈ chunk.sourceIndices
  core_nodup : chunk.coreSourceIndices.Nodup
  root : chunk.parentImportKey = none → chunk.splitDepth = 0

section

variable {T : Tokenizer} {chunk : MessageChunk}

theorem sourceIndices_nodup (messages : List ChatMessage) : (sourceIndices messages).Nodup := by
  have hnodup := @firstsBy_nodup _ _ _ (@id Int) (messages.filterMap ChatMessage.sourceIndex)
  rwa [List.map_id] at hnodup

theorem chunkFromTurns_sourced {turns : List ConversationTurn} {leadingOverlap splitDepth : Nat}
    {parentImportKey : Option String} {core : Option (List Int)} (hroot : parentImportKey = none → splitDepth = 0)
    (h : chunkFromTurns T turns leadingOverlap splitDepth parentImportKey core = .ok chunk) :
    chunk.Sourced ∧ (∀ i, i ∈ chunk.sourceIndices ↔ i ∈ sourceIndices (turnMessages turns)) ∧
      chunk.parentImportKey = parentImportKey ∧ chunk.splitDepth = splitDepth := by
  rw [chunkFromTurns] at h
  simp only [bind_ok, pure_ok] at h
  obtain ⟨merged, hmerged, rfl⟩ := h
  refine ⟨⟨fun _ => mem_sourceIndices, sourceIndices_nodup _, ?_, ?_, hroot⟩, fun _ => mem_sourceIndices_merged hmerged,
    rfl, rfl⟩
  · intro i hi
    cases core with
    | some allowed => exact (List.mem_filter.mp hi).1
    | none =>
        dsimp only at hi ⊢
        split at hi
        · exact hi
        · rw [mem_sourceIndices_merged hmerged]
          obtain ⟨m, hm, hindex⟩ := mem_sourceIndices.mp hi
          exact mem_sourceIndices.mpr ⟨m, turnMessages_subset (List.drop_subset _ _) hm, hindex⟩
  · cases core with
    | some allowed => exact (sourceIndices_nodup _).filter _
    | none =>
        dsimp only
        split
        · exact sourceIndices_nodup _
        · exact sourceIndices_nodup _

/-- A message is cut in at least one piece. -/
theorem splitLongMessageTokens_ne (maxTokens : Nat) (m : ChatMessage) : splitLongMessageTokens T maxTokens m ≠ [] := by
  intro hnil
  rw [splitLongMessageTokens, List.map_eq_nil_iff, List.zipIdx_eq_nil_iff] at hnil
  by_cases hcontent : m.content = []
  · rw [hcontent, splitTextByTokens_nil] at hnil
    cases hnil
  · have htext := splitTextByTokens_text (T := T) m.content maxTokens
    rw [hnil] at htext
    exact hcontent htext.symm

/-- The turns that a split divides are from the messages that are the chunk's own. -/
theorem mem_splitTurns (h : chunk.Sourced) {i : Int} :
    i ∈ sourceIndices (turnMessages (splitTurns T chunk)) ↔ i ∈ chunk.coreSourceIndices := by
  have hpieces := splitTurns_messages T chunk
  rw [hpieces, mem_sourceIndices]
  constructor
  · rintro ⟨piece, hpiece, hi⟩
    obtain ⟨m, hm, hpiece⟩ := List.mem_flatMap.mp hpiece
    obtain ⟨j, hj, hcore⟩ := (Option.any_eq_true _ _).mp (List.mem_filter.mp hm).2
    rw [(splitLongMessageTokens_like hpiece).1, hj] at hi
    cases hi
    exact of_decide_eq_true hcore
  · intro hcore
    obtain ⟨m, hm, hi⟩ := (h.source i).mp (h.core i hcore)
    obtain ⟨piece, hpiece⟩ := List.exists_mem_of_ne_nil _ (splitLongMessageTokens_ne (T := T) (splitLimit T chunk) m)
    have hown : m ∈ coreMessages chunk := by
      apply List.mem_filter.mpr
      simp [hm, hi, hcore]
    exact ⟨piece, List.mem_flatMap.mpr ⟨m, hown, hpiece⟩, (splitLongMessageTokens_like hpiece).1.trans hi⟩

/-- A child and the turns it is from. -/
theorem splitChild_sourced {child : MessageChunk} {key : String} {group : List ConversationTurn} {overlap : List Int}
    (hindexed : ∀ m ∈ turnMessages group, m.sourceIndex.isSome)
    (h : splitChild T chunk key group overlap = .ok (some child)) :
    child.Sourced ∧ (∀ i, i ∈ child.sourceIndices ↔ i ∈ sourceIndices (turnMessages group)) ∧
      child.parentImportKey = some key ∧ ChildOf chunk child group overlap := by
  have hchild := splitChild_ok hindexed h
  unfold splitChild at h
  dsimp only at h
  split at h
  · cases h
  · obtain ⟨made, hmade, hsome⟩ := Fallible.map_ok.mp h
    cases hsome
    obtain ⟨hsourced, hsource, hparent, -⟩ := chunkFromTurns_sourced (by simp) hmade
    exact ⟨hsourced, hsource, hparent, hchild⟩

/-! ## Rows of a split -/

/-- The chunk repeats nothing of the chunk before it, it is cut between its messages, and no question is
carried over the cut. -/
structure SplitsClean (T : Tokenizer) (chunk : MessageChunk) : Prop where
  own : ∀ i ∈ chunk.sourceIndices, i ∈ chunk.coreSourceIndices
  between : ∀ index, splitAt chunk (splitTurns T chunk) = some index →
    ∀ i ∈ coreIndices chunk ((splitTurns T chunk).take index),
      i ∉ coreIndices chunk ((splitTurns T chunk).drop index)
  uncarried : ∀ index, splitAt chunk (splitTurns T chunk) = some index →
    carriedQuestion T ((splitTurns T chunk).take index) ((splitTurns T chunk).drop index) = none

/-- What the two children of a chunk are from, and what is their own: the first has what is before the cut, the
second what is after it and the source index of a question from before it. -/
structure Divided (T : Tokenizer) (chunk first second : MessageChunk) (key : String) : Prop where
  sourced_first : first.Sourced
  sourced_second : second.Sourced
  parent_first : first.parentImportKey = some key
  parent_second : second.parentImportKey = some key
  depth_first : first.splitDepth = chunk.splitDepth + 1
  depth_second : second.splitDepth = chunk.splitDepth + 1
  core_first_ne : first.coreSourceIndices ≠ []
  core_second_ne : second.coreSourceIndices ≠ []
  core : ∀ i, i ∈ chunk.coreSourceIndices ↔ i ∈ first.coreSourceIndices ∨ i ∈ second.coreSourceIndices
  source_first : ∀ i, i ∈ first.sourceIndices ↔ i ∈ first.coreSourceIndices
  carried : ∀ i ∈ second.sourceIndices, i ∈ first.coreSourceIndices ∨ i ∈ second.coreSourceIndices
  clean : SplitsClean T chunk ↔ (∀ i ∈ chunk.sourceIndices, i ∈ chunk.coreSourceIndices) ∧
    ∀ i ∈ first.coreSourceIndices, i ∉ second.sourceIndices

theorem splitMessageChunk_divided (hchunk : chunk.Sourced) {key : String} {children : List MessageChunk}
    (h : splitMessageChunk T chunk key = .ok children) (hne : children ≠ []) :
    ∃ first second, children = [first, second] ∧ Divided T chunk first second key := by
  obtain ⟨index, first, second, hindex, hfirst, hsecond, rfl⟩ := splitMessageChunk_ok h hne
  set before := (splitTurns T chunk).take index with hbefore
  set after := (splitTurns T chunk).drop index with hafter
  have hindexed : ∀ m ∈ turnMessages before ++ turnMessages after, m.sourceIndex.isSome := by
    intro m hm
    rw [← turnMessages_append, List.take_append_drop] at hm
    exact splitTurns_indexed hm
  have hcut : ∀ i, i ∈ chunk.coreSourceIndices ↔
      i ∈ sourceIndices (turnMessages before) ∨ i ∈ sourceIndices (turnMessages after) := by
    intro i
    rw [← mem_splitTurns hchunk (T := T), ← List.take_append_drop index (splitTurns T chunk), turnMessages_append]
    simp only [mem_sourceIndices, List.mem_append, or_and_right, exists_or]
    rfl
  obtain ⟨hsourced₁, hsource₁, hparent₁, hchild₁⟩ :=
    splitChild_sourced (fun m hm => hindexed m (List.mem_append_left _ hm)) hfirst
  obtain ⟨hsourced₂, hsource₂, hparent₂, hchild₂⟩ := splitChild_sourced (fun m hm => by
    rcases mem_carriedTurns.mp hm with hq | hm
    · exact hindexed m (List.mem_append_left _ (carriedQuestion_mem hq))
    · exact hindexed m (List.mem_append_right _ hm)) hsecond
  have hcore₁ : ∀ i, i ∈ first.coreSourceIndices ↔ i ∈ sourceIndices (turnMessages before) := by
    intro i
    rw [hchild₁.core, hcut]
    simp +contextual
  have hcore₂ : ∀ i, i ∈ second.coreSourceIndices ↔ i ∈ sourceIndices (turnMessages after) := by
    intro i
    rw [hchild₂.core_carried, hcut]
    simp +contextual
  have hown : ∀ turns : List ConversationTurn, ∀ i, i ∈ coreIndices chunk turns ↔
      i ∈ sourceIndices (turnMessages turns) ∧ i ∈ chunk.coreSourceIndices := by
    intro turns i
    simp [coreIndices]
  refine ⟨first, second, rfl, hsourced₁, hsourced₂, hparent₁, hparent₂, hchild₁.depth, hchild₂.depth,
    hchild₁.core_ne, hchild₂.core_ne, ?_, ?_, ?_, ?_⟩
  · intro i
    rw [hcore₁, hcore₂, hcut]
  · intro i
    rw [hsource₁, hcore₁]
  · intro i hi
    obtain ⟨m, hm, hmi⟩ := mem_sourceIndices.mp ((hsource₂ i).mp hi)
    rcases mem_carriedTurns.mp hm with hq | hm
    · exact .inl ((hcore₁ i).mpr (mem_sourceIndices.mpr ⟨m, carriedQuestion_mem hq, hmi⟩))
    · exact .inr ((hcore₂ i).mpr (mem_sourceIndices.mpr ⟨m, hm, hmi⟩))
  · constructor
    · rintro ⟨hclean, hbetween, huncarried⟩
      refine ⟨hclean, fun i hi hi' => ?_⟩
      obtain ⟨m, hm, hmi⟩ := mem_sourceIndices.mp ((hsource₂ i).mp hi')
      rw [huncarried index hindex] at hm
      have hafter' : i ∈ sourceIndices (turnMessages after) := mem_sourceIndices.mpr ⟨m, by simpa using hm, hmi⟩
      have hin := (hcut i).mpr (.inr hafter')
      exact hbetween index hindex i ((hown before i).mpr ⟨(hcore₁ i).mp hi, hin⟩)
        ((hown after i).mpr ⟨hafter', hin⟩)
    · rintro ⟨hclean, hapart⟩
      refine ⟨hclean, fun index' hindex' i hi hi' => ?_, fun index' hindex' => ?_⟩
      · cases hindex.symm.trans hindex'
        obtain ⟨m, hm, hmi⟩ := mem_sourceIndices.mp ((hown after i).mp hi').1
        exact hapart i ((hcore₁ i).mpr ((hown before i).mp hi).1)
          ((hsource₂ i).mpr (mem_sourceIndices.mpr ⟨m, mem_carriedTurns.mpr (.inr hm), hmi⟩))
      · cases hindex.symm.trans hindex'
        cases hq : carriedQuestion T before after with
        | none => rfl
        | some q =>
            obtain ⟨i, hi⟩ := Option.isSome_iff_exists.mp
              (hindexed q (List.mem_append_left _ (carriedQuestion_mem hq)))
            exact absurd ((hsource₂ i).mpr (mem_sourceIndices.mpr ⟨q, mem_carriedTurns.mpr (.inl hq), hi⟩))
              (hapart i ((hcore₁ i).mpr (mem_sourceIndices.mpr ⟨q, carriedQuestion_mem hq, hi⟩)))

end

/-! ## The report of a split -/

section

variable {I : Importer} {options : ImportOptions} {conversation : Conversation} {execution : ChunkExecution}

/-- What is processed is made of source messages, at a place of its own. -/
theorem processed_sourced (h : Processed I options conversation execution) : execution.chunk.Sourced ∧
    execution.conversation = conversation ∧
    execution.importKey = messageChunkImportKey I options conversation execution.chunk ∧
    execution.chunkIndex < execution.chunkCount := by
  induction h with
  | @chunk chunks chunk chunkIndex hchunks hat =>
      obtain ⟨runs, -, hmakes, -⟩ := adaptiveChunkMessages_covers hchunks
      obtain ⟨r, -, hmake⟩ := exists_left_of_mem hmakes (List.mem_of_getElem? hat)
      exact ⟨(chunkFromTurns_sourced (fun _ => rfl) hmake).1, rfl, rfl, (List.getElem?_eq_some_iff.mp hat).1⟩
  | @half parent child children _ hsplit hchild ih =>
      obtain ⟨⟨made, index⟩, hmade, rfl⟩ := List.mem_map.mp hchild
      have hat := List.mem_zipIdx_iff_getElem?.mp hmade
      obtain ⟨first, second, rfl, hdivided⟩ :=
        splitMessageChunk_divided ih.1 hsplit (List.ne_nil_of_mem (List.mem_of_getElem? hat))
      refine ⟨?_, rfl, rfl, (List.getElem?_eq_some_iff.mp hat).1⟩
      rcases List.mem_pair.mp (List.mem_of_getElem? hat) with hfirst | hsecond
      · exact hfirst ▸ hdivided.sourced_first
      · exact hsecond ▸ hdivided.sourced_second

/-- The row of a chunk that something is core in passes its own checks. -/
theorem rowMismatches_sourced (hchunk : execution.chunk.Sourced) (hne : execution.chunk.coreSourceIndices ≠ [])
    (hplace : execution.chunkIndex < execution.chunkCount) : rowMismatches (ensureImportChunk execution) = [] := by
  obtain ⟨i, hi⟩ := List.exists_mem_of_ne_nil _ hne
  simp only [rowMismatches, List.append_eq_nil_iff, mismatch_nil]
  refine ⟨⟨⟨⟨⟨⟨hchunk.source_nodup, hchunk.core_nodup, ?_, ?_⟩, ?_⟩, rfl, rfl⟩, rfl, rfl⟩, ?_, hplace⟩, ?_⟩
  · exact Finset.ne_empty_of_mem (List.mem_toFinset.mpr (hchunk.core i hi))
  · exact Finset.ne_empty_of_mem (List.mem_toFinset.mpr hi)
  · intro j hj
    exact List.mem_toFinset.mpr (hchunk.core j (List.mem_toFinset.mp hj))
  · exact Nat.one_le_of_lt hplace
  · intro hnone
    exact hchunk.root (Option.isNone_iff_eq_none.mp hnone)

/-- Where nothing is repeated and the halves share nothing, their rows add up to their parent's, and only there. -/
theorem splitMismatches_divided {T : Tokenizer} {parent : ChunkExecution} {first second : MessageChunk}
    {key : String} (hparent : parent.chunk.Sourced) (h : Divided T parent.chunk first second key) :
    splitMismatches (ensureImportChunk parent)
        (ensureImportChunk (executionOf I options parent.conversation first 0 2))
        (ensureImportChunk (executionOf I options parent.conversation second 1 2)) = [] ↔
      (∀ i ∈ parent.chunk.sourceIndices, i ∈ parent.chunk.coreSourceIndices) ∧
        ∀ i ∈ first.coreSourceIndices, i ∉ second.sourceIndices := by
  have hsource₂ := h.sourced_second.core
  simp only [splitMismatches, List.append_eq_nil_iff, mismatch_nil]
  simp only [ProvenanceRow.core, ProvenanceRow.source,
    ensureImportChunk, executionOf, Finset.ext_iff, Finset.subset_iff, Finset.mem_union, Finset.mem_inter,
    List.mem_toFinset, Finset.notMem_empty, iff_false]
  constructor
  · rintro ⟨⟨⟨⟨⟨⟨⟨-, -⟩, -⟩, hcoverage⟩, -⟩, hoverlap⟩, -⟩, -⟩
    constructor
    · intro i hi
      rcases (hcoverage i).mpr hi with hi | hi
      · exact (h.core i).mpr (.inl ((h.source_first i).mp hi))
      · exact (h.core i).mpr (h.carried i hi)
    · intro i hi hi'
      exact hoverlap i ⟨⟨(h.source_first i).mpr hi, hi'⟩, (h.core i).mpr (.inl hi)⟩
  · rintro ⟨hown, hapart⟩
    have hsub₂ : ∀ i ∈ second.sourceIndices, i ∈ second.coreSourceIndices := by
      intro i hi
      rcases h.carried i hi with hi' | hi'
      · exact absurd hi (hapart i hi')
      · exact hi'
    refine ⟨⟨⟨⟨⟨⟨⟨?_, ?_⟩, ?_, ?_⟩, ?_⟩, ?_, ?_⟩, ?_⟩, by simp⟩, by simp⟩
    · exact fun i => (h.core i).symm
    · exact fun i hi => hapart i hi.1 (hsource₂ i hi.2)
    · exact fun i hi => (h.core i).mpr (.inl hi)
    · exact fun i hi => (h.core i).mpr (.inr hi)
    · intro i
      constructor
      · rintro (hi | hi)
        · exact hparent.core i ((h.core i).mpr (.inl ((h.source_first i).mp hi)))
        · exact hparent.core i ((h.core i).mpr (.inr (hsub₂ i hi)))
      · intro hi
        rcases (h.core i).mp (hown i hi) with hi | hi
        · exact .inl ((h.source_first i).mpr hi)
        · exact .inr (hsource₂ i hi)
    · exact fun i hi => hparent.core i ((h.core i).mpr (.inl ((h.source_first i).mp hi)))
    · exact fun i hi => hparent.core i ((h.core i).mpr (.inr (hsub₂ i hi)))
    · exact fun i hi => hapart i ((h.source_first i).mp hi.1.1) hi.1.2

/-- The rows of a split pass the report exactly when the split is clean. -/
theorem split_report_clean (I : Importer) (options : ImportOptions) (conversation : Conversation)
    {parent : ChunkExecution} (hparent : Processed I options conversation parent) {children : List MessageChunk}
    (hsplit : splitMessageChunk I.toTokenizer parent.chunk parent.importKey = .ok children) (hne : children ≠ []) :
    splitReport (ensureImportChunk parent)
        ((splitExecutions I options conversation children).map ensureImportChunk) = [] ↔
      SplitsClean I.toTokenizer parent.chunk := by
  obtain ⟨hsourced, rfl, -, hplace⟩ := processed_sourced hparent
  obtain ⟨first, second, rfl, hdivided⟩ := splitMessageChunk_divided hsourced hsplit hne
  have hcore : parent.chunk.coreSourceIndices ≠ [] := by
    obtain ⟨i, hi⟩ := List.exists_mem_of_ne_nil _ hdivided.core_first_ne
    exact List.ne_nil_of_mem ((hdivided.core i).mpr (.inl hi))
  have hrow := rowMismatches_sourced hsourced hcore hplace
  have hrow₁ : rowMismatches (ensureImportChunk (executionOf I options parent.conversation first 0 2)) = [] :=
    rowMismatches_sourced hdivided.sourced_first hdivided.core_first_ne Nat.zero_lt_two
  have hrow₂ : rowMismatches (ensureImportChunk (executionOf I options parent.conversation second 1 2)) = [] :=
    rowMismatches_sourced hdivided.sourced_second hdivided.core_second_ne Nat.one_lt_two
  have hlink₁ : linkMismatches (ensureImportChunk parent)
      (ensureImportChunk (executionOf I options parent.conversation first 0 2)) = [] := by
    simp [linkMismatches, ensureImportChunk, executionOf, hdivided.parent_first, hdivided.depth_first]
  have hlink₂ : linkMismatches (ensureImportChunk parent)
      (ensureImportChunk (executionOf I options parent.conversation second 1 2)) = [] := by
    simp [linkMismatches, ensureImportChunk, executionOf, hdivided.parent_second, hdivided.depth_second]
  have hreport : splitReport (ensureImportChunk parent)
      ((splitExecutions I options parent.conversation [first, second]).map ensureImportChunk) =
        splitMismatches (ensureImportChunk parent)
          (ensureImportChunk (executionOf I options parent.conversation first 0 2))
          (ensureImportChunk (executionOf I options parent.conversation second 1 2)) := by
    simp [splitReport, splitExecutions, hrow, hrow₁, hrow₂, hlink₁, hlink₂]
  rw [hreport, hdivided.clean]
  exact splitMismatches_divided hsourced hdivided

end

/-! ## A question and its answer -/

/-- Two messages that nobody answered are two turns. -/
theorem split_report_talk :
    splitReport (ensureImportChunk (executionOf namedImporter plainOptions (talk "Talk") talkChunk 0 1))
        ((splitExecutions namedImporter plainOptions (talk "Talk")
          [firstHalf "Talk", secondHalf "Talk"]).map ensureImportChunk) = [] ↔
      SplitsClean namedImporter.toTokenizer talkChunk :=
  split_report_clean namedImporter plainOptions (talk "Talk")
    (@Processed.chunk _ _ _ [talkChunk] talkChunk 0 rfl rfl) (split_talkChunk "Talk") (by simp)

def answered : Conversation := { talk "Talk" with messages := greeting }

def answeredChunk : MessageChunk := ⟨ensureSourceIndices greeting, 14, [0, 1], [0, 1], 0, 0, none⟩

/-- The answer is split from its question, which is repeated before it. -/
def answerHalves : List MessageChunk :=
  [⟨[⟨"user", ['h', 'i'], none, some 0, 0⟩], 7, [0], [0], 0, 1, some "Talk"⟩,
    ⟨ensureSourceIndices greeting, 14, [0, 1], [1], 1, 1, some "Talk"⟩]

theorem answer_repeats_question :
    ¬ ∀ (I : Importer) (options : ImportOptions) (conversation : Conversation) (parent : ChunkExecution),
      Processed I options conversation parent → ∀ children,
        splitMessageChunk I.toTokenizer parent.chunk parent.importKey = .ok children → children ≠ [] →
          splitReport (ensureImportChunk parent)
            ((splitExecutions I options conversation children).map ensureImportChunk) = [] := by
  intro h
  have hreport := h namedImporter plainOptions answered
    (executionOf namedImporter plainOptions answered answeredChunk 0 1)
    (@Processed.chunk _ _ _ [answeredChunk] answeredChunk 0 rfl rfl) answerHalves rfl (by simp [answerHalves])
  have hfound : splitReport (ensureImportChunk (executionOf namedImporter plainOptions answered answeredChunk 0 1))
      ((splitExecutions namedImporter plainOptions answered answerHalves).map ensureImportChunk) =
        [.overlapOnParentCore] := by rfl
  rw [hfound] at hreport
  cases hreport

end YiQiao
