import YiQiao.Lib.Pieces
import YiQiao.Import.Expand

/-!
# What the leaves say

The chunks that a run works on are the leaves of what was made of a conversation. Every message of the conversation is
put together from pieces that the leaves have as their own.
-/

namespace YiQiao

open Lib Lib.Fallible

/-! ## Chunks of a conversation -/

section

variable {T : Tokenizer} {i : Int}

/-- What a chunk says of its own at a source index stands in one message of it. -/
theorem ownContent_mem {chunk : MessageChunk} (hformed : chunk.Formed) (hne : chunk.ownContent i ≠ []) :
    i ∈ chunk.coreSourceIndices ∧ ∃ m ∈ chunk.messages, m.sourceIndex = some i ∧ m.content = chunk.ownContent i := by
  rw [MessageChunk.ownContent] at hne ⊢
  split at hne
  · rename_i hi
    rw [if_pos hi]
    refine ⟨hi, ?_⟩
    obtain ⟨m, hmem, hindex, hcontent⟩ : ∃ m ∈ chunk.messages, m.sourceIndex = some i ∧ m.content ≠ [] := by
      simpa [contentOf, List.flatMap_eq_nil_iff] using hne
    exact ⟨m, hmem, hindex, (contentOf_unrepeated hformed.unrepeated hmem hindex).symm⟩
  · exact (hne rfl).elim

/-- What is new in a chunk is the end of what it says of its own. -/
theorem makes_own {r : ChunkRun} {chunk : MessageChunk} (h : r.Makes T chunk) (hne : contentOf i (turnMessages r.core) ≠ []) :
    contentOf i (turnMessages r.core) <:+ chunk.ownContent i := by
  have hcontent := (makes_content h).2 i
  rw [ChunkRun.Makes, chunkFromTurns] at h
  simp only [bind_ok, pure_ok] at h
  obtain ⟨merged, hmerged, rfl⟩ := h
  have hmem : i ∈ sourceIndices (turnMessages r.core) := by
    obtain ⟨m, hm, hindex, -⟩ : ∃ m ∈ turnMessages r.core, m.sourceIndex = some i ∧ m.content ≠ [] := by
      simpa [contentOf, List.flatMap_eq_nil_iff] using hne
    exact mem_sourceIndices.mpr ⟨m, hm, hindex⟩
  have hdrop : r.turns.drop (min r.overlap.length r.turns.length) = r.core := by
    rw [ChunkRun.turns, Nat.min_eq_left (by simp), List.drop_left]
  rw [MessageChunk.ownContent, hcontent]
  simp only [hdrop, if_neg (List.ne_nil_of_mem hmem), hmem, if_true]
  rw [ChunkRun.turns, turnMessages_append, contentOf_append]
  exact List.suffix_append _ _

/-- A message stands in what its source index says. -/
theorem content_part {messages : List ChatMessage} {m : ChatMessage} (hm : m ∈ messages) (hi : m.sourceIndex = some i) :
    m.content <:+: contentOf i messages := by
  obtain ⟨before, after, rfl⟩ := List.append_of_mem hm
  rw [contentOf_append, contentOf_cons]
  have hself : contentOf i [m] = m.content := by simp [contentOf, hi]
  rw [hself, ← List.append_assoc]
  exact ⟨_, _, rfl⟩

/-- The messages of a conversation are made of what its chunks say of their own. -/
theorem chunks_pieced {C : Chunker} {options : ChunkOptions} {messages : List ChatMessage} {chunks : List MessageChunk}
    (h : adaptiveChunkMessages C options messages = .ok chunks) {m : ChatMessage} (hm : m ∈ ensureSourceIndices messages)
    (hi : m.sourceIndex = some i) :
    PiecedFrom (fun whole => ∃ chunk ∈ chunks, whole = chunk.ownContent i) m.content := by
  obtain ⟨runs, -, hmakes, hcores⟩ := adaptiveChunkMessages_covers h
  refine PiecedFrom.part ?_ (content_part hm hi)
  rw [← buildTurns_content (T := C.toTokenizer) messages options.chunkMaxTokens, ← hcores, turnMessages,
    List.flatMap_assoc, contentOf_flatMap, List.flatMap_def]
  refine PiecedFrom.flatten fun text htext => ?_
  obtain ⟨r, hr, rfl⟩ := List.mem_map.mp htext
  obtain ⟨chunk, hchunk, hmade⟩ := exists_right_of_mem hmakes hr
  by_cases hne : contentOf i (turnMessages r.core) = []
  · exact hne ▸ PiecedFrom.nil
  · exact PiecedFrom.of_part ⟨chunk, hchunk, rfl⟩ (makes_own hmade hne).isInfix

end

/-! ## Leaves -/

section

variable {I : Importer} {options : ImportOptions} {conversation : Conversation}
  {statuses : String → Option ChunkStatus}

/-- The leaves of a chunk say together what it says of its own. -/
theorem expand_own {fuel : Nat} {ancestors : List String} {superseded : Bool} {chunk : MessageChunk}
    {leaves : List MessageChunk × List String} (hformed : chunk.Formed)
    (h : expand I options conversation statuses fuel ancestors superseded chunk = .ok leaves) :
    (∀ leaf ∈ leaves.1, leaf.Formed) ∧ ∀ i, chunk.ownContent i = leaves.1.flatMap fun leaf => leaf.ownContent i := by
  induction fuel generalizing ancestors superseded chunk leaves with
  | zero => cases h
  | succ fuel ih =>
    rw [expand] at h
    split at h
    · split at h
      · cases h
      · split at h
        · cases h
        · rename_i first second hsplit
          simp only [bind_ok, pure_ok] at h
          obtain ⟨left, hleft, right, hright, rfl⟩ := h
          obtain ⟨a, b, hab, halves⟩ := splitMessageChunk_halves hformed hsplit (List.cons_ne_nil _ _)
          cases hab
          obtain ⟨hformed₁, hown₁⟩ := ih halves.formed_first hleft
          obtain ⟨hformed₂, hown₂⟩ := ih halves.formed_second hright
          refine ⟨List.forall_mem_append.mpr ⟨hformed₁, hformed₂⟩, fun i => ?_⟩
          rw [halves.own, hown₁, hown₂, List.flatMap_append]
        · cases h
    · cases h
      simp [hformed]

/-- A superseded leaf stands under a chunk that is recorded as stored, and says what stands in it. -/
def SupersededKey (I : Importer) (options : ImportOptions) (statuses : String → Option ChunkStatus) (key : String) : Prop :=
  ∃ (conversation : Conversation) (whole part : MessageChunk),
    statuses (messageChunkImportKey I options conversation whole) = some .supersededSplit ∧
    key = messageChunkImportKey I options conversation part ∧ ∀ i, part.ownContent i <:+: whole.ownContent i

theorem expand_superseded {fuel : Nat} {ancestors : List String} {superseded : Bool} {chunk : MessageChunk}
    {leaves : List MessageChunk × List String} (hformed : chunk.Formed)
    (h : expand I options conversation statuses fuel ancestors superseded chunk = .ok leaves)
    (hsuperseded : superseded = true → ∃ whole : MessageChunk,
      statuses (messageChunkImportKey I options conversation whole) = some .supersededSplit ∧
      ∀ i, chunk.ownContent i <:+: whole.ownContent i) :
    ∀ key ∈ leaves.2, SupersededKey I options statuses key := by
  induction fuel generalizing ancestors superseded chunk leaves with
  | zero => cases h
  | succ fuel ih =>
    rw [expand] at h
    have hbelow : (superseded || decide (statuses (messageChunkImportKey I options conversation chunk) =
        some .supersededSplit)) = true → ∃ whole : MessageChunk,
          statuses (messageChunkImportKey I options conversation whole) = some .supersededSplit ∧
          ∀ i, chunk.ownContent i <:+: whole.ownContent i := by
      intro hor
      rcases Bool.or_eq_true_iff.mp hor with hin | hown
      · exact hsuperseded hin
      · exact ⟨chunk, of_decide_eq_true hown, fun i => List.infix_rfl⟩
    split at h
    · split at h
      · cases h
      · split at h
        · cases h
        · rename_i first second hsplit
          simp only [bind_ok, pure_ok] at h
          obtain ⟨left, hleft, right, hright, rfl⟩ := h
          obtain ⟨a, b, hab, halves⟩ := splitMessageChunk_halves hformed hsplit (List.cons_ne_nil _ _)
          cases hab
          have hfirst : ∀ i, first.ownContent i <:+: chunk.ownContent i := fun i =>
            halves.own i ▸ (List.prefix_append _ _).isInfix
          have hsecond : ∀ i, second.ownContent i <:+: chunk.ownContent i := fun i =>
            halves.own i ▸ (List.suffix_append _ _).isInfix
          have hone := ih halves.formed_first hleft fun hor =>
            (hbelow hor).imp fun whole hw => ⟨hw.1, fun i => (hfirst i).trans (hw.2 i)⟩
          have htwo := ih halves.formed_second hright fun hor =>
            (hbelow hor).imp fun whole hw => ⟨hw.1, fun i => (hsecond i).trans (hw.2 i)⟩
          exact List.forall_mem_append.mpr ⟨hone, htwo⟩
        · cases h
    · cases h
      intro key hkey
      split at hkey
      · rename_i hin
        obtain ⟨whole, hwhole, hpart⟩ := hbelow hin.1
        rw [List.mem_singleton] at hkey
        exact ⟨conversation, whole, chunk, hwhole, hkey, hpart⟩
      · cases hkey

/-- What a run works on of a chunk. -/
theorem prepareChunks_leaves {initial prepared : List (Conversation × List MessageChunk)} {superseded : List String}
    (h : prepareChunks I options statuses initial = .ok (prepared, superseded)) {item : Conversation × List MessageChunk}
    (hitem : item ∈ initial) {chunk : MessageChunk} (hchunk : chunk ∈ item.2) :
    ∃ leaves, expand I options item.1 statuses (chunk.weight + 1) [] false chunk = .ok leaves ∧
      (leaves.1 ≠ [] → ∃ item' ∈ prepared, item'.1 = item.1 ∧ leaves.1 ⊆ item'.2) := by
  simp only [prepareChunks, bind_ok, pure_ok] at h
  obtain ⟨expanded, hexpanded, heq⟩ := h
  cases heq
  obtain ⟨e, he, hmade⟩ := exists_right_of_mem (mapM_ok.mp hexpanded) hitem
  simp only [expandPersistedSplitChunks, bind_ok, pure_ok] at hmade
  obtain ⟨_, ⟨parts, hparts, rfl⟩, rfl⟩ := hmade
  obtain ⟨leaves, hleaves, hexpand⟩ := exists_right_of_mem (mapM_ok.mp hparts) hchunk
  refine ⟨leaves, hexpand, fun hne => ?_⟩
  have hsub : leaves.1 ⊆ parts.flatMap Prod.fst := fun leaf hleaf => List.mem_flatMap.mpr ⟨leaves, hleaves, hleaf⟩
  obtain ⟨leaf, hleaf⟩ := List.exists_mem_of_ne_nil _ hne
  refine ⟨(item.1, parts.flatMap Prod.fst), List.mem_filter.mpr ⟨List.mem_map.mpr ⟨_, he, rfl⟩, ?_⟩, rfl, hsub⟩
  simpa using List.ne_nil_of_mem (hsub hleaf)

theorem prepareChunks_mem {initial prepared : List (Conversation × List MessageChunk)} {superseded : List String}
    (h : prepareChunks I options statuses initial = .ok (prepared, superseded)) {item : Conversation × List MessageChunk}
    (hitem : item ∈ prepared) {leaf : MessageChunk} (hleaf : leaf ∈ item.2) :
    ∃ item' ∈ initial, item'.1 = item.1 ∧ ∃ chunk ∈ item'.2, ∃ leaves,
      expand I options item.1 statuses (chunk.weight + 1) [] false chunk = .ok leaves ∧ leaf ∈ leaves.1 := by
  simp only [prepareChunks, bind_ok, pure_ok] at h
  obtain ⟨expanded, hexpanded, heq⟩ := h
  cases heq
  obtain ⟨e, he, rfl⟩ := List.mem_map.mp (List.mem_filter.mp hitem).1
  obtain ⟨item', hitem', hmade⟩ := exists_left_of_mem (mapM_ok.mp hexpanded) he
  simp only [expandPersistedSplitChunks, bind_ok, pure_ok] at hmade
  obtain ⟨_, ⟨parts, hparts, rfl⟩, rfl⟩ := hmade
  obtain ⟨leaves, hleaves, hmem⟩ := List.mem_flatMap.mp hleaf
  obtain ⟨chunk, hchunk, hexpand⟩ := exists_left_of_mem (mapM_ok.mp hparts) hleaves
  exact ⟨item', hitem', rfl, chunk, hchunk, leaves, hexpand, hmem⟩

theorem prepareChunks_superseded {initial prepared : List (Conversation × List MessageChunk)} {superseded : List String}
    (hformed : ∀ item ∈ initial, ∀ chunk ∈ item.2, chunk.Formed)
    (h : prepareChunks I options statuses initial = .ok (prepared, superseded)) :
    ∀ key ∈ superseded, SupersededKey I options statuses key := by
  simp only [prepareChunks, bind_ok, pure_ok] at h
  obtain ⟨expanded, hexpanded, heq⟩ := h
  cases heq
  intro key hkey
  obtain ⟨e, he, hkey⟩ := List.mem_flatMap.mp hkey
  obtain ⟨item, hitem, hmade⟩ := exists_left_of_mem (mapM_ok.mp hexpanded) he
  simp only [expandPersistedSplitChunks, bind_ok, pure_ok] at hmade
  obtain ⟨_, ⟨parts, hparts, rfl⟩, rfl⟩ := hmade
  obtain ⟨leaves, hleaves, hkey⟩ := List.mem_flatMap.mp hkey
  obtain ⟨chunk, hchunk, hexpand⟩ := exists_left_of_mem (mapM_ok.mp hparts) hleaves
  exact expand_superseded (hformed item hitem chunk hchunk) hexpand (fun h => by cases h) key hkey

/-- The messages of every conversation are made of what the leaves say of their own that a run works on. -/
theorem prepared_pieced {conversations : List Conversation} {initial prepared : List (Conversation × List MessageChunk)}
    {superseded : List String} (hinitial : initialChunks I options conversations = .ok initial)
    (hprepared : prepareChunks I options statuses initial = .ok (prepared, superseded))
    (hconversation : conversation ∈ conversations) {m : ChatMessage} (hm : m ∈ ensureSourceIndices conversation.messages)
    {i : Int} (hi : m.sourceIndex = some i) :
    PiecedFrom (fun whole => ∃ item ∈ prepared, item.1 = conversation ∧ ∃ leaf ∈ item.2, whole = leaf.ownContent i)
      m.content := by
  obtain ⟨item, hitem, hchunks⟩ := exists_right_of_mem (mapM_ok.mp hinitial) hconversation
  have hformed := initialChunks_formed hinitial item hitem
  simp only [bind_ok, pure_ok] at hchunks
  obtain ⟨chunks, hchunks, rfl⟩ := hchunks
  obtain ⟨pieces, hjoin, hpieces⟩ := chunks_pieced hchunks hm hi
  rw [← hjoin]
  refine PiecedFrom.flatten fun piece hpiece => ?_
  obtain ⟨_, ⟨chunk, hchunk, rfl⟩, hpart⟩ := hpieces piece hpiece
  obtain ⟨leaves, hexpand, hprepared⟩ := prepareChunks_leaves hprepared hitem hchunk
  refine PiecedFrom.part ?_ hpart
  rw [(expand_own (hformed chunk hchunk) hexpand).2 i, List.flatMap_def]
  refine PiecedFrom.flatten fun text htext => ?_
  obtain ⟨leaf, hleaf, rfl⟩ := List.mem_map.mp htext
  obtain ⟨item', hitem', hsame, hsub⟩ := hprepared (List.ne_nil_of_mem hleaf)
  exact PiecedFrom.of_part ⟨item', hitem', hsame, leaf, hsub hleaf, rfl⟩ List.infix_rfl

end

end YiQiao
