import Mathlib.Algebra.BigOperators.Group.Finset.Basic
import Mathlib.Algebra.Order.BigOperators.Group.Finset
import YiQiao.Import.Blank

/-!
# The halves of a chunk

A split divides the core content of a chunk between its children: every source index says in the two halves
what it says in the chunk, in order, and each half says less than the chunk.
-/

namespace YiQiao

open Lib Lib.Fallible

section

variable {T : Tokenizer} {chunk : MessageChunk}

/-- The messages of a chunk as they are made: merged, and each with its source index. -/
structure MessageChunk.Formed (chunk : MessageChunk) : Prop where
  unrepeated : Unrepeated chunk.messages
  indexed : ∀ m ∈ chunk.messages, m.sourceIndex.isSome

/-- What a source index says in a chunk that it is core in. -/
def MessageChunk.ownContent (chunk : MessageChunk) (i : Int) : Text :=
  if i ∈ chunk.coreSourceIndices then contentOf i chunk.messages else []

/-- How much a chunk says: the characters of its core messages, and the messages. -/
def MessageChunk.weight (chunk : MessageChunk) : Nat :=
  ∑ i ∈ chunk.coreSourceIndices.toFinset, ((chunk.ownContent i).length + 1)

/-! ## Fragments -/

theorem ensureSourceIndices_of_indexed {messages : List ChatMessage} (h : ∀ m ∈ messages, m.sourceIndex.isSome) :
    ensureSourceIndices messages = messages := by
  have hpair : ∀ x ∈ messages.zipIdx, { x.1 with sourceIndex := some (x.1.sourceIndex.getD x.2) } = x.1 := by
    rintro ⟨m, k⟩ hx
    obtain ⟨i, hi⟩ := Option.isSome_iff_exists.mp (h m (List.fst_mem_of_mem_zipIdx hx))
    cases m
    cases hi
    rfl
  rw [ensureSourceIndices, List.map_congr_left hpair, List.zipIdx_map_fst]

theorem coreMessages_indexed {m : ChatMessage} (h : m ∈ coreMessages chunk) : m.sourceIndex.isSome := by
  obtain ⟨i, hi, -⟩ := (Option.any_eq_true _ _).mp (List.mem_filter.mp h).2
  rw [hi]
  rfl

/-- How long the pieces of the messages that a split divides may be. -/
def splitLimit (T : Tokenizer) (chunk : MessageChunk) : Nat :=
  if (buildTurns T (coreMessages chunk) (turnLimit chunk)).length < 2 then pieceLimit chunk else turnLimit chunk - 16

/-- The fragments that a split divides are the pieces of the core messages. -/
theorem splitTurns_messages (T : Tokenizer) (chunk : MessageChunk) : turnMessages (splitTurns T chunk) =
    (coreMessages chunk).flatMap (splitLongMessageTokens T (splitLimit T chunk)) := by
  unfold splitTurns splitLimit
  dsimp only
  split
  · exact pieceTurns_messages chunk
  · rw [buildTurns_messages, ensureSourceIndices_of_indexed fun m => coreMessages_indexed]

theorem contentOf_coreMessages {i : Int} (hi : i ∈ chunk.coreSourceIndices) :
    contentOf i (coreMessages chunk) = contentOf i chunk.messages := by
  rw [contentOf, contentOf, coreMessages, List.filter_filter]
  congr 1
  refine List.filter_congr fun m _ => ?_
  by_cases hm : m.sourceIndex = some i
  · simp [hm, hi]
  · simp [hm]

theorem contentOf_splitTurns (T : Tokenizer) {i : Int} (hi : i ∈ chunk.coreSourceIndices) :
    contentOf i (turnMessages (splitTurns T chunk)) = contentOf i chunk.messages := by
  have hpieces := splitTurns_messages T chunk
  rw [hpieces, contentOf_flatMap, List.flatMap_congr fun m _ => splitLongMessageTokens_content _ m i,
    ← contentOf_flatMap, List.flatMap_singleton', contentOf_coreMessages hi]

/-- The fragments of a source index are the pieces of its one message. -/
theorem filter_pieces {messages : List ChatMessage} (hmessages : Unrepeated messages) {m : ChatMessage}
    (hm : m ∈ messages) {i : Int} (hi : m.sourceIndex = some i) (maxTokens : Nat) :
    (messages.flatMap (splitLongMessageTokens T maxTokens)).filter (fun piece => piece.sourceIndex = some i) =
      splitLongMessageTokens T maxTokens m := by
  have hall : ∀ m' : ChatMessage, m'.sourceIndex = some i →
      (splitLongMessageTokens T maxTokens m').filter (fun piece => piece.sourceIndex = some i) =
        splitLongMessageTokens T maxTokens m' := by
    intro m' hm'
    refine List.filter_eq_self.mpr fun piece hpiece => ?_
    rw [(splitLongMessageTokens_like hpiece).1, hm']
    exact decide_eq_true rfl
  have hnone : ∀ m' : ChatMessage, m'.sourceIndex ≠ some i →
      (splitLongMessageTokens T maxTokens m').filter (fun piece => piece.sourceIndex = some i) = [] := by
    intro m' hm'
    refine List.filter_eq_nil_iff.mpr fun piece hpiece heq => hm' ?_
    rw [← (splitLongMessageTokens_like hpiece).1]
    exact of_decide_eq_true heq
  induction messages with
  | nil => cases hm
  | cons first rest ih =>
    obtain ⟨hfirst, hrest⟩ := List.pairwise_cons.mp hmessages
    rw [List.flatMap_cons, List.filter_append]
    rcases List.mem_cons.mp hm with rfl | hm
    · have hothers : (rest.flatMap (splitLongMessageTokens T maxTokens)).filter
          (fun piece => piece.sourceIndex = some i) = [] := by
        rw [List.filter_flatMap]
        refine List.flatMap_eq_nil_iff.mpr fun m' hm' => hnone m' fun heq => ?_
        exact hfirst m' hm' (by rw [hi]; rfl) (by rw [hi, heq])
      rw [hall m hi, hothers, List.append_nil]
    · have hother : first.sourceIndex ≠ some i := by
        intro heq
        exact hfirst m hm (by rw [heq]; rfl) (by rw [heq, hi])
      rw [hnone first hother, List.nil_append, ih hrest hm]

/-- A source index with fragments on both sides of a cut says something on both. -/
theorem contentOf_ne_nil {messages before after : List ChatMessage} {maxTokens : Nat} (hmessages : Unrepeated messages)
    (hsplit : messages.flatMap (splitLongMessageTokens T maxTokens) = before ++ after) {i : Int}
    {a b : ChatMessage} (ha : a ∈ before) (hb : b ∈ after) (hai : a.sourceIndex = some i)
    (hbi : b.sourceIndex = some i) : contentOf i before ≠ [] ∧ contentOf i after ≠ [] := by
  have hmem : a ∈ messages.flatMap (splitLongMessageTokens T maxTokens) := by
    rw [hsplit]
    exact List.mem_append_left _ ha
  obtain ⟨m, hm, hpiece⟩ := List.mem_flatMap.mp hmem
  have hi : m.sourceIndex = some i := (splitLongMessageTokens_like hpiece).1.symm.trans hai
  have hpieces := filter_pieces (T := T) hmessages hm hi maxTokens
  rw [hsplit, List.filter_append] at hpieces
  have hina : a ∈ before.filter fun piece => piece.sourceIndex = some i :=
    List.mem_filter.mpr ⟨ha, decide_eq_true hai⟩
  have hinb : b ∈ after.filter fun piece => piece.sourceIndex = some i :=
    List.mem_filter.mpr ⟨hb, decide_eq_true hbi⟩
  have hcontent : m.content ≠ [] := by
    intro hnil
    have hlength := congrArg List.length hpieces
    rw [List.length_append, splitLongMessageTokens, hnil, splitTextByTokens_nil] at hlength
    have hpos := List.length_pos_of_mem hina
    have hpos' := List.length_pos_of_mem hinb
    simp at hlength
    omega
  have hsome : ∀ piece ∈ splitLongMessageTokens T maxTokens m, piece.content ≠ [] := by
    intro piece hpiece
    obtain ⟨part, hpart, rfl⟩ := List.mem_map.mp hpiece
    exact splitTextByTokens_ne maxTokens hcontent part.1 (List.fst_mem_of_mem_zipIdx hpart)
  rw [← hpieces] at hsome
  constructor
  · intro hnil
    exact hsome a (List.mem_append_left _ hina) (List.flatMap_eq_nil_iff.mp hnil a hina)
  · intro hnil
    exact hsome b (List.mem_append_right _ hinb) (List.flatMap_eq_nil_iff.mp hnil b hinb)

/-! ## Children -/

/-- Merging keeps every source index. -/
theorem mergeMessage_indices {m : ChatMessage} {messages merged : List ChatMessage}
    (h : mergeMessage m messages = .ok merged) :
    ∀ e ∈ m :: messages, ∃ e' ∈ merged, e'.sourceIndex = e.sourceIndex := by
  induction messages generalizing merged with
  | nil =>
    cases h
    exact fun e he => ⟨e, he, rfl⟩
  | cons existing rest ih =>
    rw [mergeMessage] at h
    split at h
    · rename_i hsame
      split at h
      · cases h
        intro e he
        rcases List.mem_cons.mp he with rfl | he
        · exact ⟨_, List.mem_cons_self, hsame.2⟩
        · rcases List.mem_cons.mp he with rfl | he
          · exact ⟨_, List.mem_cons_self, rfl⟩
          · exact ⟨e, List.mem_cons_of_mem _ he, rfl⟩
      · cases h
    · obtain ⟨tail, htail, rfl⟩ := Fallible.map_ok.mp h
      intro e he
      have hkept : e = existing ∨ e ∈ m :: rest := by
        rcases List.mem_cons.mp he with rfl | he
        · exact .inr List.mem_cons_self
        · rcases List.mem_cons.mp he with rfl | he
          · exact .inl rfl
          · exact .inr (List.mem_cons_of_mem _ he)
      rcases hkept with rfl | hkept
      · exact ⟨e, List.mem_cons_self, rfl⟩
      · obtain ⟨e', he', hindex⟩ := ih htail e hkept
        exact ⟨e', List.mem_cons_of_mem _ he', hindex⟩

theorem mergeMessages_indices {fragments merged : List ChatMessage} (h : mergeMessages fragments = .ok merged) :
    ∀ m ∈ fragments, ∃ e ∈ merged, e.sourceIndex = m.sourceIndex := by
  refine foldlM_ok (I := fun done merged => ∀ m ∈ done, ∃ e ∈ merged, e.sourceIndex = m.sourceIndex) h
    (fun _ hm => by cases hm) ?_
  intro done m _ messages merged _ hdone hstep m' hm'
  have hkept := mergeMessage_indices hstep
  rcases List.mem_append.mp hm' with hm' | hm'
  · obtain ⟨e, he, hindex⟩ := hdone m' hm'
    obtain ⟨e', he', hindex'⟩ := hkept e (List.mem_cons_of_mem _ he)
    exact ⟨e', he', hindex'.trans hindex⟩
  · rw [List.mem_singleton.mp hm']
    exact hkept m List.mem_cons_self

theorem mem_sourceIndices {messages : List ChatMessage} {i : Int} :
    i ∈ sourceIndices messages ↔ ∃ m ∈ messages, m.sourceIndex = some i := by
  rw [sourceIndices, ← List.mem_filterMap]
  constructor
  · exact fun h => (firstsBy_sublist _).subset h
  · intro h
    have hkey : id i ∈ (firstsBy id (messages.filterMap ChatMessage.sourceIndex)).map id := key_mem_firstsBy h
    rwa [List.map_id] at hkey

/-- Merging keeps the source indices. -/
theorem mem_sourceIndices_merged {fragments merged : List ChatMessage} (h : mergeMessages fragments = .ok merged)
    {i : Int} : i ∈ sourceIndices merged ↔ i ∈ sourceIndices fragments := by
  rw [mem_sourceIndices, mem_sourceIndices]
  constructor
  · rintro ⟨e, he, hi⟩
    obtain ⟨m, hm, hlike⟩ := mergeMessages_mem h he
    exact ⟨m, hm, hlike.1.symm.trans hi⟩
  · rintro ⟨m, hm, hi⟩
    obtain ⟨e, he, hindex⟩ := mergeMessages_indices h m hm
    exact ⟨e, he, hindex.trans hi⟩

/-- What a child is made of. -/
structure ChildOf (chunk child : MessageChunk) (group : List ConversationTurn) (overlap : List Int) : Prop where
  formed : child.Formed
  core : ∀ i, i ∈ child.coreSourceIndices ↔
    i ∈ sourceIndices (turnMessages group) ∧ i ∉ overlap ∧ i ∈ chunk.coreSourceIndices
  core_ne : child.coreSourceIndices ≠ []
  content : ∀ i, contentOf i child.messages = contentOf i (turnMessages group)
  depth : child.splitDepth = chunk.splitDepth + 1

theorem splitChild_ok {child : MessageChunk} {key : String} {group : List ConversationTurn} {overlap : List Int}
    (hindexed : ∀ m ∈ turnMessages group, m.sourceIndex.isSome)
    (h : splitChild T chunk key group overlap = .ok (some child)) : ChildOf chunk child group overlap := by
  unfold splitChild at h
  dsimp only at h
  split at h
  · cases h
  · rename_i hne
    rw [not_or] at hne
    obtain ⟨made, hmade, hsome⟩ := Fallible.map_ok.mp h
    cases hsome
    rw [chunkFromTurns] at hmade
    simp only [bind_ok, pure_ok] at hmade
    obtain ⟨merged, hmerged, rfl⟩ := hmade
    obtain ⟨hunique, hcontent⟩ := mergeMessages_content hmerged
    have hcore : ∀ i, i ∈ (sourceIndices merged).filter (fun j => decide (j ∈
        (sourceIndices (turnMessages group)).filter fun i => decide (i ∉ overlap ∧ i ∈ chunk.coreSourceIndices))) ↔
        i ∈ sourceIndices (turnMessages group) ∧ i ∉ overlap ∧ i ∈ chunk.coreSourceIndices := by
      intro i
      simp only [List.mem_filter, mem_sourceIndices_merged hmerged, decide_eq_true_eq]
      tauto
    refine ⟨⟨hunique, fun e he => ?_⟩, hcore, ?_, hcontent, rfl⟩
    · obtain ⟨m, hm, hlike⟩ := mergeMessages_mem hmerged he
      rw [hlike.1]
      exact hindexed m hm
    · intro hnil
      obtain ⟨i, hi⟩ := List.exists_mem_of_ne_nil _ hne.2
      rw [List.mem_filter, decide_eq_true_eq] at hi
      have hin := (hcore i).mpr hi
      simp only at hnil
      rw [hnil] at hin
      cases hin

theorem contentOf_of_notMem {i : Int} {messages : List ChatMessage} (h : i ∉ sourceIndices messages) :
    contentOf i messages = [] := by
  rw [contentOf, List.filter_eq_nil_iff.mpr, List.flatMap_nil]
  intro m hm heq
  exact h (mem_sourceIndices.mpr ⟨m, hm, of_decide_eq_true heq⟩)

theorem weight_lt {child : MessageChunk} (hsub : ∀ i ∈ child.coreSourceIndices, i ∈ chunk.coreSourceIndices)
    (hle : ∀ i ∈ child.coreSourceIndices, (child.ownContent i).length ≤ (chunk.ownContent i).length) {i : Int}
    (hi : i ∈ chunk.coreSourceIndices)
    (hlt : i ∈ child.coreSourceIndices → (child.ownContent i).length < (chunk.ownContent i).length) :
    child.weight < chunk.weight := by
  have hsubset : child.coreSourceIndices.toFinset ⊆ chunk.coreSourceIndices.toFinset := by
    intro j hj
    rw [List.mem_toFinset] at hj ⊢
    exact hsub j hj
  have hbound : child.weight ≤
      ∑ j ∈ child.coreSourceIndices.toFinset, ((chunk.ownContent j).length + 1) := by
    refine Finset.sum_le_sum fun j hj => ?_
    rw [List.mem_toFinset] at hj
    exact Nat.succ_le_succ (hle j hj)
  by_cases hin : i ∈ child.coreSourceIndices
  · calc child.weight < ∑ j ∈ child.coreSourceIndices.toFinset, ((chunk.ownContent j).length + 1) := by
          refine Finset.sum_lt_sum (fun j hj => ?_) ⟨i, List.mem_toFinset.mpr hin, Nat.succ_lt_succ (hlt hin)⟩
          rw [List.mem_toFinset] at hj
          exact Nat.succ_le_succ (hle j hj)
      _ ≤ chunk.weight := Finset.sum_le_sum_of_subset hsubset
  · refine hbound.trans_lt (Finset.sum_lt_sum_of_subset hsubset (List.mem_toFinset.mpr hi) ?_ (Nat.succ_pos _)
      fun _ _ _ => Nat.zero_le _)
    rwa [List.mem_toFinset]

/-- The carried question is of no source index of the second half. -/
theorem carriedQuestion_apart {before after : List ConversationTurn} {m : ChatMessage}
    (h : carriedQuestion T before after = some m) {i : Int} (hi : m.sourceIndex = some i) :
    i ∉ sourceIndices (turnMessages after) := by
  intro hin
  unfold carriedQuestion at h
  split at h
  · have hfound := List.find?_some h
    simp only [decide_eq_true_eq] at hfound
    exact hfound.2.2.1 (by simpa [hi] using hin)
  · cases h

/-- The turns of the second half are the carried question's and those after the cut. -/
theorem mem_carriedTurns {question : Option ChatMessage} {after : List ConversationTurn} {m : ChatMessage} :
    m ∈ turnMessages ((question.toList.map fun m => turnOf T [m]) ++ after) ↔
      question = some m ∨ m ∈ turnMessages after := by
  rw [turnMessages_append, List.mem_append]
  cases question with
  | none => simp [turnMessages]
  | some q => simp [turnMessages, turnOf, eq_comm]

/-- The carried question is not a core message of the second half. -/
theorem ChildOf.core_carried {child : MessageChunk} {before after : List ConversationTurn}
    (h : ChildOf chunk child (((carriedQuestion T before after).toList.map fun m => turnOf T [m]) ++ after)
      ((carriedQuestion T before after).toList.filterMap ChatMessage.sourceIndex)) (i : Int) :
    i ∈ child.coreSourceIndices ↔ i ∈ sourceIndices (turnMessages after) ∧ i ∈ chunk.coreSourceIndices := by
  rw [h.core, mem_sourceIndices, mem_sourceIndices]
  constructor
  · rintro ⟨⟨m, hm, hi⟩, hnot, hin⟩
    rcases mem_carriedTurns.mp hm with hq | hm
    · exact absurd (List.mem_filterMap.mpr ⟨m, Option.mem_toList.mpr hq, hi⟩) hnot
    · exact ⟨⟨m, hm, hi⟩, hin⟩
  · rintro ⟨⟨m, hm, hi⟩, hin⟩
    refine ⟨⟨m, mem_carriedTurns.mpr (.inr hm), hi⟩, ?_, hin⟩
    intro hoverlap
    obtain ⟨q, hq, hqi⟩ := List.mem_filterMap.mp hoverlap
    exact carriedQuestion_apart (Option.mem_toList.mp hq) hqi (mem_sourceIndices.mpr ⟨m, hm, hi⟩)

/-- What two children make of their chunk. -/
structure Halves (chunk first second : MessageChunk) : Prop where
  formed_first : first.Formed
  formed_second : second.Formed
  own : ∀ i, chunk.ownContent i = first.ownContent i ++ second.ownContent i
  weight_first : first.weight < chunk.weight
  weight_second : second.weight < chunk.weight
  depth_first : first.splitDepth = chunk.splitDepth + 1
  depth_second : second.splitDepth = chunk.splitDepth + 1

theorem splitMessageChunk_halves (hformed : chunk.Formed) {key : String} {children : List MessageChunk}
    (h : splitMessageChunk T chunk key = .ok children) (hne : children ≠ []) :
    ∃ first second, children = [first, second] ∧ Halves chunk first second := by
  obtain ⟨index, first, second, -, hfirst, hsecond, rfl⟩ := splitMessageChunk_ok h hne
  set before := (splitTurns T chunk).take index with hbefore
  set after := (splitTurns T chunk).drop index with hafter
  set question := carriedQuestion T before after with hquestion
  have hjoin : splitTurns T chunk = before ++ after := (List.take_append_drop _ _).symm
  have hindexed : ∀ m ∈ turnMessages before ++ turnMessages after, m.sourceIndex.isSome := by
    intro m hm
    rw [← turnMessages_append, ← hjoin] at hm
    exact splitTurns_indexed hm
  have hchild₁ := splitChild_ok (fun m hm => hindexed m (List.mem_append_left _ hm)) hfirst
  have hcontent₂ : ∀ i, i ∉ question.toList.filterMap ChatMessage.sourceIndex →
      contentOf i (turnMessages ((question.toList.map fun m => turnOf T [m]) ++ after)) =
        contentOf i (turnMessages after) := by
    intro i hi
    rw [turnMessages_append, contentOf_append]
    cases hq : question with
    | none => rfl
    | some m =>
      rw [hq] at hi
      have hm : m.sourceIndex ≠ some i := by
        intro heq
        exact hi (by simp [heq])
      simp [turnMessages, turnOf, contentOf, hm]
  have hchild₂ := splitChild_ok (fun m hm => by
    rcases mem_carriedTurns.mp hm with hq | hm
    · exact hindexed m (List.mem_append_left _ (carriedQuestion_mem hq))
    · exact hindexed m (List.mem_append_right _ hm)) hsecond
  have hcore₂ := hchild₂.core_carried
  have hown₁ : ∀ i ∈ chunk.coreSourceIndices, first.ownContent i = contentOf i (turnMessages before) := by
    intro i hi
    rw [MessageChunk.ownContent]
    split
    · exact hchild₁.content i
    · rename_i hnot
      rw [contentOf_of_notMem]
      exact fun hin => hnot ((hchild₁.core i).mpr ⟨hin, by simp, hi⟩)
  have hown₂ : ∀ i ∈ chunk.coreSourceIndices, second.ownContent i = contentOf i (turnMessages after) := by
    intro i hi
    rw [MessageChunk.ownContent]
    split
    · rename_i hin
      rw [hchild₂.content, hcontent₂ i ((hchild₂.core i).mp hin).2.1]
    · rename_i hnot
      rw [contentOf_of_notMem]
      exact fun hin => hnot ((hcore₂ i).mpr ⟨hin, hi⟩)
  have hown : ∀ i ∈ chunk.coreSourceIndices, chunk.ownContent i = first.ownContent i ++ second.ownContent i := by
    intro i hi
    rw [hown₁ i hi, hown₂ i hi, ← contentOf_append, ← turnMessages_append, ← hjoin, contentOf_splitTurns T hi,
      MessageChunk.ownContent, if_pos hi]
  -- A source index of both halves says something in each.
  have hboth : ∀ i, i ∈ first.coreSourceIndices → i ∈ second.coreSourceIndices →
      first.ownContent i ≠ [] ∧ second.ownContent i ≠ [] := by
    intro i h₁ h₂
    have hin := ((hcore₂ i).mp h₂).2
    obtain ⟨a, ha, hai⟩ := mem_sourceIndices.mp ((hchild₁.core i).mp h₁).1
    obtain ⟨b, hb, hbi⟩ := mem_sourceIndices.mp ((hcore₂ i).mp h₂).1
    have hpieces := splitTurns_messages T chunk
    rw [hjoin, turnMessages_append] at hpieces
    rw [hown₁ i hin, hown₂ i hin]
    exact contentOf_ne_nil (hformed.unrepeated.filter _) hpieces.symm ha hb hai hbi
  refine ⟨first, second, rfl, hchild₁.formed, hchild₂.formed, fun i => ?_, ?_, ?_, hchild₁.depth, hchild₂.depth⟩
  · by_cases hi : i ∈ chunk.coreSourceIndices
    · exact hown i hi
    · have h₁ : i ∉ first.coreSourceIndices := fun hin => hi ((hchild₁.core i).mp hin).2.2
      have h₂ : i ∉ second.coreSourceIndices := fun hin => hi ((hcore₂ i).mp hin).2
      rw [MessageChunk.ownContent, MessageChunk.ownContent, MessageChunk.ownContent, if_neg hi, if_neg h₁,
        if_neg h₂, List.append_nil]
  · obtain ⟨i, hi⟩ := List.exists_mem_of_ne_nil _ hchild₂.core_ne
    have hin := ((hcore₂ i).mp hi).2
    refine weight_lt (fun j hj => ((hchild₁.core j).mp hj).2.2) (fun j hj => ?_) hin fun hfirst => ?_
    · rw [hown j ((hchild₁.core j).mp hj).2.2, List.length_append]
      exact Nat.le_add_right _ _
    · rw [hown i hin, List.length_append]
      exact Nat.lt_add_of_pos_right (List.length_pos_iff.mpr (hboth i hfirst hi).2)
  · obtain ⟨i, hi⟩ := List.exists_mem_of_ne_nil _ hchild₁.core_ne
    have hin := ((hchild₁.core i).mp hi).2.2
    refine weight_lt (fun j hj => ((hcore₂ j).mp hj).2) (fun j hj => ?_) hin fun hsecond => ?_
    · rw [hown j ((hcore₂ j).mp hj).2, List.length_append]
      exact Nat.le_add_left _ _
    · rw [hown i hin, List.length_append]
      exact Nat.lt_add_of_pos_left (List.length_pos_iff.mpr (hboth i hi hsecond).1)

end

end YiQiao
