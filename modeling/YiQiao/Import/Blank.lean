import YiQiao.Import.Cover
import YiQiao.Import.Split

/-!
# Blank messages

A message that is only white space is refused when its chunk is stored. The text splitter may return a
separator as a part of its own; no chunk holds a blank message where no turn is left with such a part alone.
-/

namespace YiQiao

open Lib Lib.Fallible

/-- `not content.strip()`. -/
def Text.Blank (text : Text) : Prop := text.all isSpace = true

instance (text : Text) : Decidable text.Blank := inferInstanceAs (Decidable (_ = _))

/-- The chunks of a conversation, and the halves of those that were split. -/
inductive Produced (C : Chunker) (options : ChunkOptions) (messages : List ChatMessage) : MessageChunk → Prop
  | root {chunks : List MessageChunk} {chunk : MessageChunk} :
      adaptiveChunkMessages C options messages = .ok chunks → chunk ∈ chunks → Produced C options messages chunk
  | child {parent chunk : MessageChunk} {key : String} {children : List MessageChunk} :
      Produced C options messages parent → splitMessageChunk C.toTokenizer parent key = .ok children →
      chunk ∈ children → Produced C options messages chunk

/-- What a turn holds of any message is not only white space. -/
def ConversationTurn.Solid (turn : ConversationTurn) : Prop :=
  ∀ m ∈ turn.messages, ∀ i, m.sourceIndex = some i → ¬ Text.Blank (contentOf i turn.messages)

/-- The turns that a split divides are solid, and the question it repeats is not blank. -/
structure SplitsSolid (T : Tokenizer) (chunk : MessageChunk) : Prop where
  turns : ∀ turn ∈ splitTurns T chunk, turn.Solid
  question : ∀ index q, splitAt chunk (splitTurns T chunk) = some index →
    carriedQuestion T ((splitTurns T chunk).take index) ((splitTurns T chunk).drop index) = some q →
    ¬ Text.Blank q.content

/-! ## Merging solid turns -/

section

variable {T : Tokenizer}

theorem blank_append {xs ys : Text} : Text.Blank (xs ++ ys) ↔ Text.Blank xs ∧ Text.Blank ys := by
  rw [Text.Blank, List.all_append, Bool.and_eq_true]
  rfl

/-- A merged message says all that its source index says. -/
theorem contentOf_unrepeated {merged : List ChatMessage} (h : Unrepeated merged) {e : ChatMessage} (he : e ∈ merged)
    {i : Int} (hi : e.sourceIndex = some i) : contentOf i merged = e.content := by
  induction merged with
  | nil => cases he
  | cons first rest ih =>
      obtain ⟨hfirst, hrest⟩ := List.pairwise_cons.mp h
      rw [contentOf_cons]
      rcases List.mem_cons.mp he with rfl | he
      · have hnone : contentOf i rest = [] := by
          rw [contentOf, List.filter_eq_nil_iff.mpr, List.flatMap_nil]
          intro e' he' heq
          exact hfirst e' he' (by rw [hi]; rfl) (by rw [hi, of_decide_eq_true heq])
        rw [hnone]
        simp [contentOf, hi]
      · have hother : first.sourceIndex ≠ some i := by
          intro heq
          exact hfirst e he (by rw [heq]; rfl) (by rw [heq, hi])
        rw [ih hrest he]
        simp [contentOf, hother]

/-- What solid turns hold of a message is not blank. -/
theorem contentOf_solid {turns : List ConversationTurn} (hsolid : ∀ turn ∈ turns, turn.Solid) {m : ChatMessage}
    (hm : m ∈ turnMessages turns) {i : Int} (hi : m.sourceIndex = some i) :
    ¬ Text.Blank (contentOf i (turnMessages turns)) := by
  obtain ⟨turn, hturn, hmem⟩ := List.mem_flatMap.mp hm
  obtain ⟨before, after, rfl⟩ := List.append_of_mem hturn
  intro hblank
  rw [turnMessages_append, contentOf_append, blank_append, turnMessages, turnMessages, List.flatMap_cons,
    contentOf_append, blank_append] at hblank
  exact hsolid turn hturn m hmem i hi hblank.2.1

theorem chunkFromTurns_solid {turns : List ConversationTurn} {leadingOverlap splitDepth : Nat}
    {parentImportKey : Option String} {core : Option (List Int)} {chunk : MessageChunk}
    (hsolid : ∀ turn ∈ turns, turn.Solid) (hindexed : ∀ m ∈ turnMessages turns, m.sourceIndex.isSome)
    (h : chunkFromTurns T turns leadingOverlap splitDepth parentImportKey core = .ok chunk) :
    ∀ m ∈ chunk.messages, ¬ Text.Blank m.content := by
  rw [chunkFromTurns] at h
  simp only [bind_ok, pure_ok] at h
  obtain ⟨merged, hmerged, rfl⟩ := h
  intro e he
  obtain ⟨hunique, hcontent⟩ := mergeMessages_content hmerged
  obtain ⟨m, hm, hlike⟩ := mergeMessages_mem hmerged he
  obtain ⟨i, hi⟩ := Option.isSome_iff_exists.mp (hindexed m hm)
  rw [← contentOf_unrepeated hunique he (hlike.1.trans hi), hcontent]
  exact contentOf_solid hsolid hm hi

theorem ensureSourceIndices_indexed {messages : List ChatMessage} {m : ChatMessage}
    (hm : m ∈ ensureSourceIndices messages) : m.sourceIndex.isSome := by
  obtain ⟨x, _, rfl⟩ := List.mem_map.mp hm
  rfl

theorem buildTurns_indexed {messages : List ChatMessage} {maxTokens : Nat} {m : ChatMessage}
    (hm : m ∈ turnMessages (buildTurns T messages maxTokens)) : m.sourceIndex.isSome := by
  rw [buildTurns_messages] at hm
  obtain ⟨source, hsource, hm⟩ := List.mem_flatMap.mp hm
  rw [(splitLongMessageTokens_like hm).1]
  exact ensureSourceIndices_indexed hsource

theorem pieceTurns_messages (chunk : MessageChunk) : turnMessages (pieceTurns T chunk) =
    (coreMessages chunk).flatMap (splitLongMessageTokens T (pieceLimit chunk)) := by
  rw [pieceTurns, turnMessages, List.flatMap_map]
  exact List.flatMap_singleton' _

theorem splitTurns_indexed {chunk : MessageChunk} {m : ChatMessage}
    (hm : m ∈ turnMessages (splitTurns T chunk)) : m.sourceIndex.isSome := by
  unfold splitTurns at hm
  dsimp only at hm
  split at hm
  · rw [pieceTurns_messages] at hm
    obtain ⟨source, hsource, hm⟩ := List.mem_flatMap.mp hm
    rw [(splitLongMessageTokens_like hm).1]
    obtain ⟨i, hi, _⟩ := (Option.any_eq_true _ _).mp (List.mem_filter.mp hsource).2
    rw [hi]
    rfl
  · exact buildTurns_indexed hm

/-! ## Splitting solid turns -/

theorem splitChild_solid {chunk child : MessageChunk} {key : String} {group : List ConversationTurn}
    {overlap : List Int} (hsolid : ∀ turn ∈ group, turn.Solid)
    (hindexed : ∀ m ∈ turnMessages group, m.sourceIndex.isSome)
    (h : splitChild T chunk key group overlap = .ok (some child)) :
    ∀ m ∈ child.messages, ¬ Text.Blank m.content := by
  unfold splitChild at h
  dsimp only at h
  split at h
  · cases h
  · cases hmake : chunkFromTurns T group _ (chunk.splitDepth + 1) (some key) _ with
    | error err =>
        rw [hmake] at h
        cases h
    | ok made =>
        rw [hmake] at h
        cases h
        exact chunkFromTurns_solid hsolid hindexed hmake

/-- What a split that gave children did. -/
theorem splitMessageChunk_ok {chunk : MessageChunk} {key : String} {children : List MessageChunk}
    (h : splitMessageChunk T chunk key = .ok children) (hne : children ≠ []) :
    ∃ index first second,
      let before := (splitTurns T chunk).take index
      let after := (splitTurns T chunk).drop index
      let question := carriedQuestion T before after
      splitAt chunk (splitTurns T chunk) = some index ∧
      splitChild T chunk key before [] = .ok (some first) ∧
      splitChild T chunk key ((question.toList.map fun m => turnOf T [m]) ++ after)
        (question.toList.filterMap ChatMessage.sourceIndex) = .ok (some second) ∧
      children = [first, second] := by
  unfold splitMessageChunk at h
  dsimp only at h
  split at h
  · rw [pure_ok] at h
    exact absurd h.symm hne
  · rename_i index hindex
    rw [bind_ok] at h
    obtain ⟨first, hfirst, h⟩ := h
    cases first with
    | none => exact absurd (pure_ok.mp h).symm hne
    | some first =>
        dsimp only at h
        rw [bind_ok] at h
        obtain ⟨second, hsecond, h⟩ := h
        cases second with
        | none => exact absurd (pure_ok.mp h).symm hne
        | some second => exact ⟨index, first, second, hindex, hfirst, hsecond, (pure_ok.mp h).symm⟩

theorem carriedQuestion_mem {before after : List ConversationTurn} {m : ChatMessage}
    (h : carriedQuestion T before after = some m) : m ∈ turnMessages before := by
  unfold carriedQuestion at h
  split at h
  · exact List.mem_reverse.mp (List.mem_of_find?_eq_some h)
  · cases h

/-- A turn of one message that is not blank is solid. -/
theorem solid_singleton {m : ChatMessage} (h : ¬ Text.Blank m.content) : (turnOf T [m]).Solid := by
  intro m' hm' i hi
  rw [List.mem_singleton.mp hm'] at hi
  simpa [turnOf, contentOf, hi] using h

theorem splitMessageChunk_solid {chunk child : MessageChunk} {key : String} {children : List MessageChunk}
    (hsolid : SplitsSolid T chunk) (h : splitMessageChunk T chunk key = .ok children) (hchild : child ∈ children) :
    ∀ m ∈ child.messages, ¬ Text.Blank m.content := by
  obtain ⟨index, first, second, hindex, hfirst, hsecond, rfl⟩ :=
    splitMessageChunk_ok h (List.ne_nil_of_mem hchild)
  have hbefore := List.take_subset index (splitTurns T chunk)
  have hafter := List.drop_subset index (splitTurns T chunk)
  rcases List.mem_pair.mp hchild with rfl | rfl
  · exact splitChild_solid (fun turn hturn => hsolid.turns turn (hbefore hturn))
      (fun m hm => splitTurns_indexed (turnMessages_subset hbefore hm)) hfirst
  · refine splitChild_solid ?_ ?_ hsecond
    · intro turn hturn
      rcases List.mem_append.mp hturn with hturn | hturn
      · obtain ⟨question, hquestion, rfl⟩ := List.mem_map.mp hturn
        exact solid_singleton (hsolid.question index question hindex (Option.mem_toList.mp hquestion))
      · exact hsolid.turns turn (hafter hturn)
    · intro m hm
      rw [turnMessages_append, List.mem_append] at hm
      rcases hm with hm | hm
      · obtain ⟨turn, hturn, hm⟩ := List.mem_flatMap.mp hm
        obtain ⟨question, hquestion, rfl⟩ := List.mem_map.mp hturn
        rw [List.mem_singleton.mp hm]
        exact splitTurns_indexed (turnMessages_subset hbefore
          (carriedQuestion_mem (Option.mem_toList.mp hquestion)))
      · exact splitTurns_indexed (turnMessages_subset hafter hm)

end

def hello : List ChatMessage := [⟨"user", ['h', 'i'], none, none, 0⟩]

def helloChunk : MessageChunk := ⟨[⟨"user", ['h', 'i'], none, some 0, 0⟩], 7, [0], [0], 0, 0, none⟩

/-- A short message makes one chunk, which cannot be split. -/
theorem produced_hello {chunk : MessageChunk} (h : Produced plainChunker defaultChunkOptions hello chunk) :
    chunk = helloChunk := by
  induction h with
  | root hchunks hmem =>
      have hroots : adaptiveChunkMessages plainChunker defaultChunkOptions hello = .ok [helloChunk] := by rfl
      rw [hroots] at hchunks
      cases hchunks
      exact List.mem_singleton.mp hmem
  | child _ hsplit hmem ih =>
      subst ih
      cases hsplit
      cases hmem

def helloTurn : ConversationTurn := ⟨[⟨"user", ['h', 'i'], none, some 0, 0⟩], 7⟩

theorem helloTurn_solid : helloTurn.Solid := by
  intro m hm i hi
  rw [List.mem_singleton.mp hm] at hi
  cases hi
  decide

theorem splitsSolid_hello : SplitsSolid plainChunker.toTokenizer helloChunk where
  turns := by
    have hturns : splitTurns plainChunker.toTokenizer helloChunk = [helloTurn] := by rfl
    rw [hturns, List.forall_mem_singleton]
    exact helloTurn_solid
  question := by
    intro index q hindex
    cases hindex

/-- Two paragraphs of as many tokens as a piece may have. -/
def paragraphs : List ChatMessage :=
  [⟨"user", List.replicate 500 '中' ++ ['\n', '\n'] ++ List.replicate 500 '中', none, none, 0⟩]

def chunksOf (made : Except ChunkError (List MessageChunk)) : List MessageChunk := made.toOption.getD []

theorem chunksOf_mem {made : Except ChunkError (List MessageChunk)} {chunk : MessageChunk}
    (h : chunk ∈ chunksOf made) : ∃ chunks, made = .ok chunks ∧ chunk ∈ chunks := by
  cases made with
  | error err => cases h
  | ok chunks => exact ⟨chunks, rfl, h⟩

end YiQiao
