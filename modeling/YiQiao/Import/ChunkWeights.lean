import YiQiao.Import.Halves
import YiQiao.Import.Overweight

/-!
# What a chunk weighs

The turns of a conversation keep the budget, and so do the turns in the window. A chunk weighs at most what its turns
do, since the pieces of a message weigh no more when they are joined again.
-/

namespace YiQiao

open Lib Lib.Fallible

/-! ## Turns -/

section

variable {T : Tokenizer} {maxTokens : Nat} {messages : List ChatMessage} {turn : ConversationTurn}

/-- A turn that knows what it weighs. -/
def ConversationTurn.Weighed (T : Tokenizer) (turn : ConversationTurn) : Prop :=
  turn.tokenCount = (turn.messages.map (messageTokens T)).sum

theorem turnsFrom_weighed (current : List ChatMessage) (userIndex : Option Int) (messages : List ChatMessage) :
    ∀ turn ∈ turnsFrom T current userIndex messages, turn.Weighed T := by
  induction messages generalizing current userIndex with
  | nil =>
    intro turn hturn
    unfold turnsFrom at hturn
    split at hturn
    · cases hturn
    · rw [List.mem_singleton.mp hturn]
      rfl
  | cons m rest ih =>
    intro turn hturn
    unfold turnsFrom at hturn
    dsimp only at hturn
    split at hturn
    · rcases List.mem_cons.mp hturn with rfl | hturn
      · rfl
      · exact ih _ _ turn hturn
    · exact ih _ _ turn hturn

theorem turnsFrom_mem {current : List ChatMessage} {userIndex : Option Int}
    (hturn : turn ∈ turnsFrom T current userIndex messages) : turn.messages ⊆ current ++ messages := by
  rw [← turnsFrom_messages (T := T) current userIndex messages]
  intro m hm
  exact List.mem_flatMap.mpr ⟨turn, hturn, hm⟩

/-- A turn of messages that keep the budget is cut into turns that keep it. -/
theorem boundTurn_light (hweighed : turn.Weighed T) (hmessages : ∀ m ∈ turn.messages, messageTokens T m ≤ maxTokens) :
    ∀ piece ∈ boundTurn T maxTokens turn, piece.Weighed T ∧ piece.tokenCount ≤ maxTokens := by
  intro piece hpiece
  unfold boundTurn at hpiece
  split at hpiece
  · rename_i hle
    rw [List.mem_singleton.mp hpiece]
    exact ⟨hweighed, hle⟩
  · obtain ⟨part, hpart, rfl⟩ := List.mem_map.mp hpiece
    exact ⟨rfl, pack_le hmessages hpart⟩

theorem splitLongMessageTokens_tokens (hnone : T.encode = none) {m piece : ChatMessage}
    (hparts : ∀ part ∈ splitTextByTokens T m.content maxTokens, tokenSum T part ≤ maxTokens + 1)
    (hpiece : piece ∈ splitLongMessageTokens T maxTokens m) : messageTokens T piece ≤ maxTokens + 7 := by
  obtain ⟨part, hpart, rfl⟩ := List.mem_map.mp hpiece
  have hle := hparts part.1 (List.fst_mem_of_mem_zipIdx hpart)
  simp only [messageTokens, estimateTokens_fallback hnone]
  omega

theorem buildTurns_light (hnone : T.encode = none) (hmax : 16 ≤ maxTokens)
    (hparts : ∀ m ∈ ensureSourceIndices messages,
      ∀ part ∈ splitTextByTokens T m.content (maxTokens - 16), tokenSum T part ≤ maxTokens - 16 + 1) :
    ∀ turn ∈ buildTurns T messages maxTokens, turn.Weighed T ∧ turn.tokenCount ≤ maxTokens := by
  intro piece hpiece
  obtain ⟨turn, hturn, hpiece⟩ := List.mem_flatMap.mp hpiece
  apply boundTurn_light (turnsFrom_weighed _ _ _ turn hturn) _ piece hpiece
  intro m hm
  have hmem := turnsFrom_mem hturn hm
  rw [List.nil_append] at hmem
  obtain ⟨whole, hwhole, hm⟩ := List.mem_flatMap.mp hmem
  have hle := splitLongMessageTokens_tokens hnone (hparts whole hwhole) hm
  omega

theorem turnTokens_weighed {turns : List ConversationTurn} (h : ∀ turn ∈ turns, turn.Weighed T) :
    turnTokens turns = ((turnMessages turns).map (messageTokens T)).sum := by
  induction turns with
  | nil => rfl
  | cons turn turns ih =>
    obtain ⟨hturn, hturns⟩ := List.forall_mem_cons.mp h
    have hrest := ih hturns
    rw [turnTokens] at hrest
    rw [turnTokens, List.map_cons, List.sum_cons, hrest, hturn]
    simp [turnMessages]

end

/-! ## Messages joined again -/

section

variable {T : Tokenizer} {maxTokens : Nat} {messages merged fragments : List ChatMessage} {i : Int}

/-- The messages of a source index. -/
def ofIndex (i : Int) (messages : List ChatMessage) : List ChatMessage := messages.filter fun m => m.sourceIndex = some i

theorem contentOf_eq : contentOf i messages = ((ofIndex i messages).map ChatMessage.content).flatten := by
  simp [contentOf, ofIndex, List.flatMap_def]

theorem sum_filter (p : ChatMessage → Bool) (weight : ChatMessage → Nat) (messages : List ChatMessage) :
    ((messages.filter p).map weight).sum + ((messages.filter fun m => !p m).map weight).sum =
      (messages.map weight).sum := by
  induction messages with
  | nil => simp
  | cons m rest ih =>
    cases hp : p m with
    | true => simp [hp]; omega
    | false => simp [hp]; omega

/-- Messages of different source indices share no fragment. -/
theorem sum_fragments_le (weight : ChatMessage → Nat) (hmerged : Unrepeated merged)
    (hsome : ∀ e ∈ merged, e.sourceIndex.isSome) (fragments : List ChatMessage) :
    (merged.map fun e => ((fragments.filter fun m => m.sourceIndex = e.sourceIndex).map weight).sum).sum ≤
      (fragments.map weight).sum := by
  induction merged generalizing fragments with
  | nil => simp
  | cons e merged ih =>
    obtain ⟨hfirst, hrest⟩ := List.pairwise_cons.mp hmerged
    obtain ⟨hsome, hsomes⟩ := List.forall_mem_cons.mp hsome
    have hothers := ih hrest hsomes (fragments.filter fun m => !(m.sourceIndex = e.sourceIndex))
    have hsplit := sum_filter (fun m => m.sourceIndex = e.sourceIndex) weight fragments
    have hsame : (merged.map fun e' => (((fragments.filter fun m => !(m.sourceIndex = e.sourceIndex)).filter
          fun m => m.sourceIndex = e'.sourceIndex).map weight).sum) =
        merged.map fun e' => ((fragments.filter fun m => m.sourceIndex = e'.sourceIndex).map weight).sum := by
      apply List.map_congr_left
      intro e' he'
      have hdiff := hfirst e' he' hsome
      rw [List.filter_filter]
      congr 2
      apply List.filter_congr
      intro m _
      by_cases hm : m.sourceIndex = e'.sourceIndex
      · have hne : ¬ m.sourceIndex = e.sourceIndex := fun heq => hdiff (heq.symm.trans hm)
        simp only [hm, hne.imp fun heq => hm.trans heq, decide_true, decide_false, Bool.not_false, Bool.and_true]
      · simp [hm]
    rw [hsame] at hothers
    rw [List.map_cons, List.sum_cons]
    omega

/-- The pieces of a source index are the parts of one message. -/
theorem pieces_mergeable (hdistinct : Unrepeated messages)
    (hparts : ∀ m ∈ messages, Mergeable T (splitTextByTokens T m.content maxTokens)) {m : ChatMessage}
    (hm : m ∈ messages) (hi : m.sourceIndex = some i) :
    Mergeable T ((ofIndex i (messages.flatMap (splitLongMessageTokens T maxTokens))).map ChatMessage.content) := by
  have hpieces : (splitLongMessageTokens T maxTokens m).map ChatMessage.content =
      splitTextByTokens T m.content maxTokens := by
    rw [splitLongMessageTokens, List.map_map]
    exact List.zipIdx_map_fst _ _
  rw [ofIndex, filter_pieces hdistinct hm hi, hpieces]
  exact hparts m hm

theorem estimate_flatten_le (hnone : T.encode = none) {few : List ChatMessage} (hne : few ≠ [])
    (h : tokenSum T (few.map ChatMessage.content).flatten ≤ ((few.map ChatMessage.content).map (tokenSum T)).sum) :
    estimateTokens T (few.map ChatMessage.content).flatten + 6 ≤ (few.map (messageTokens T)).sum := by
  have hgeneral : ∀ few : List ChatMessage,
      ((few.map ChatMessage.content).map (tokenSum T)).sum + 6 * few.length ≤ (few.map (messageTokens T)).sum ∧
        7 * few.length ≤ (few.map (messageTokens T)).sum := by
    intro few
    induction few with
    | nil => simp
    | cons m few ih =>
      simp only [List.map_cons, List.sum_cons, List.length_cons, messageTokens, estimateTokens_fallback hnone] at ih ⊢
      omega
  obtain ⟨hsum, hlength⟩ := hgeneral few
  have hpos := List.length_pos_iff.mpr hne
  rw [estimateTokens_fallback hnone]
  omega

/-- Neighbouring fragments weigh no more once they are merged. -/
theorem mergeMessages_le (hnone : T.encode = none) (hdistinct : Unrepeated messages)
    (hindexed : ∀ m ∈ messages, m.sourceIndex.isSome)
    (hparts : ∀ m ∈ messages, Mergeable T (splitTextByTokens T m.content maxTokens))
    (hfragments : fragments <:+: messages.flatMap (splitLongMessageTokens T maxTokens))
    (h : mergeMessages fragments = .ok merged) :
    (merged.map (messageTokens T)).sum ≤ (fragments.map (messageTokens T)).sum := by
  obtain ⟨hmerged, hcontent⟩ := mergeMessages_content h
  have hsome : ∀ m ∈ fragments, m.sourceIndex.isSome := by
    intro m hm
    obtain ⟨whole, hwhole, hpiece⟩ := List.mem_flatMap.mp (hfragments.subset hm)
    rw [(splitLongMessageTokens_like hpiece).1]
    exact hindexed whole hwhole
  have hsomes : ∀ e ∈ merged, e.sourceIndex.isSome := by
    intro e he
    obtain ⟨m, hm, hlike⟩ := mergeMessages_mem h he
    rw [hlike.1]
    exact hsome m hm
  apply le_trans _ (sum_fragments_le (messageTokens T) hmerged hsomes fragments)
  apply List.sum_le_sum
  intro e he
  obtain ⟨i, hi⟩ := Option.isSome_iff_exists.mp (hsomes e he)
  obtain ⟨m, hm, hlike⟩ := mergeMessages_mem h he
  have hwithin : (ofIndex i fragments).map ChatMessage.content <:+:
      (ofIndex i (messages.flatMap (splitLongMessageTokens T maxTokens))).map ChatMessage.content :=
    (hfragments.filter _).map _
  obtain ⟨whole, hwhole, hpiece⟩ := List.mem_flatMap.mp (hfragments.subset hm)
  have hindex : whole.sourceIndex = some i := by rw [← (splitLongMessageTokens_like hpiece).1, ← hlike.1, hi]
  have hle := (pieces_mergeable hdistinct hparts hwhole hindex).infix_le hwithin
  have hne : ofIndex i fragments ≠ [] := by
    apply List.ne_nil_of_mem
    exact List.mem_filter.mpr ⟨hm, by simp [← hlike.1, hi]⟩
  have htext : e.content = ((ofIndex i fragments).map ChatMessage.content).flatten := by
    rw [← contentOf_eq, ← hcontent, contentOf_unrepeated hmerged he hi]
  rw [messageTokens, htext, hi]
  exact estimate_flatten_le hnone hne hle

end

/-! ## The window -/

section

variable {C : Chunker} {options : ChunkOptions} {w w' : Window} {done : List ConversationTurn}
  {turn : ConversationTurn} {runs : List ChunkRun}

/-- The window and the chunks before it keep the budget. -/
structure Window.Light (options : ChunkOptions) (w : Window) : Prop where
  current : turnTokens w.current ≤ options.chunkMaxTokens
  chunks : ∀ chunk ∈ w.chunks, chunk.tokenCount ≤ options.chunkMaxTokens

/-- There is room for the turn. -/
def Window.Takes (options : ChunkOptions) (turn : ConversationTurn) (w : Window) : Prop :=
  turnTokens w.current + turn.tokenCount ≤ options.chunkMaxTokens

/-- A chunk of turns that have been read weighs at most what they do. -/
def NoHeavier (C : Chunker) (done : List ConversationTurn) : Prop :=
  ∀ turns leadingOverlap chunk, turns <:+ done →
    chunkFromTurns C.toTokenizer turns leadingOverlap 0 none none = .ok chunk → chunk.tokenCount ≤ turnTokens turns

theorem turnTokens_suffix {turns turns' : List ConversationTurn} (h : turns <:+ turns') :
    turnTokens turns ≤ turnTokens turns' := by
  obtain ⟨front, rfl⟩ := h
  simp [turnTokens]

theorem emit_light (hchunk : NoHeavier C done) (hcovers : w.Covers C.toTokenizer done runs) (h : w.Light options)
    (hemit : w.emit C options = .ok w') : w'.Light options := by
  unfold Window.emit at hemit
  split at hemit
  · cases hemit
    exact h
  · simp only [bind_ok, pure_ok] at hemit
    obtain ⟨chunk, hmade, rfl⟩ := hemit
    have hle := hchunk _ _ _ hcovers.current_suffix hmade
    constructor
    · exact (turnTokens_suffix (List.drop_suffix _ _)).trans h.current
    · intro other hother
      rcases List.mem_append.mp hother with hother | hother
      · exact h.chunks other hother
      · rw [List.mem_singleton.mp hother]
        exact hle.trans h.current

theorem fit_light (h : w.Light options) (hturn : turn.tokenCount ≤ options.chunkMaxTokens) :
    (w.fit options turn).Light options ∧ (w.fit options turn).Takes options turn := by
  have hgeneral : ∀ (current : List ConversationTurn) (leadingOverlap : Nat),
      (dropToFit options turn w.chunks current leadingOverlap).chunks = w.chunks ∧
        (dropToFit options turn w.chunks current leadingOverlap).Takes options turn := by
    intro current
    induction current with
    | nil =>
      intro leadingOverlap
      simpa [dropToFit, Window.Takes, turnTokens] using hturn
    | cons first rest ih =>
      intro leadingOverlap
      unfold dropToFit
      split
      · exact ih _
      · rename_i hfits
        exact ⟨rfl, Nat.not_lt.mp hfits⟩
  obtain ⟨hchunks, htakes⟩ := hgeneral w.current w.leadingOverlap
  constructor
  · constructor
    · exact (Nat.le_add_right _ _).trans htakes
    · intro chunk hchunk
      rw [Window.fit, hchunks] at hchunk
      exact h.chunks chunk hchunk
  · exact htakes

theorem makeRoom_light (hchunk : NoHeavier C done) (hcovers : w.Covers C.toTokenizer done runs) (h : w.Light options)
    (hturn : turn.tokenCount ≤ options.chunkMaxTokens) (hroom : w.makeRoom C options turn = .ok w') :
    w'.Light options ∧ w'.Takes options turn := by
  unfold Window.makeRoom at hroom
  split at hroom
  · simp only [bind_ok, pure_ok] at hroom
    obtain ⟨emitted, hemit, rfl⟩ := hroom
    exact fit_light (emit_light hchunk hcovers h hemit) hturn
  · cases hroom
    exact fit_light h hturn

theorem endTopic_light (hchunk : NoHeavier C done) (hcovers : w.Covers C.toTokenizer done runs) (h : w.Light options)
    (htakes : w.Takes options turn) (hturn : turn.tokenCount ≤ options.chunkMaxTokens)
    (htopic : w.endTopic C options turn = .ok w') : w'.Light options ∧ w'.Takes options turn := by
  unfold Window.endTopic at htopic
  split at htopic
  · simp only [bind_ok, pure_ok] at htopic
    obtain ⟨emitted, hemit, rfl⟩ := htopic
    exact fit_light (emit_light hchunk hcovers h hemit) hturn
  · cases htopic
    exact ⟨h, htakes⟩

theorem push_light (h : w.Light options) (htakes : w.Takes options turn) : (w.push turn).Light options := by
  constructor
  · simpa [Window.push, Window.Takes, turnTokens] using htakes
  · exact h.chunks

/-- What one turn of the loop keeps. -/
theorem step_light (hchunk : NoHeavier C done) (hnext : NoHeavier C (done ++ [turn]))
    (hcovers : w.Covers C.toTokenizer done runs) (h : w.Light options) (hturn : turn.tokenCount ≤ options.chunkMaxTokens)
    (hstep : w.step C options turn = .ok w') : w'.Light options := by
  unfold Window.step at hstep
  simp only [bind_ok] at hstep
  obtain ⟨w₁, hroom, w₂, htopic, hpush⟩ := hstep
  obtain ⟨runs₁, hcovers₁⟩ := makeRoom_covers hcovers hroom
  obtain ⟨h₁, htakes₁⟩ := makeRoom_light hchunk hcovers h hturn hroom
  obtain ⟨runs₂, hcovers₂⟩ := endTopic_covers hcovers₁ htopic
  obtain ⟨h₂, htakes₂⟩ := endTopic_light hchunk hcovers₁ h₁ htakes₁ hturn htopic
  have h₃ := push_light h₂ htakes₂
  split at hpush
  · exact emit_light hnext (push_covers turn hcovers₂) h₃ hpush
  · cases hpush
    exact h₃

/-- The chunks of turns that keep the budget keep it. -/
theorem adaptiveChunkMessages_light {messages : List ChatMessage} {chunks : List MessageChunk}
    (hturns : ∀ turn ∈ buildTurns C.toTokenizer messages options.chunkMaxTokens,
      turn.tokenCount ≤ options.chunkMaxTokens)
    (hchunk : ∀ done, done <+: buildTurns C.toTokenizer messages options.chunkMaxTokens → NoHeavier C done)
    (h : adaptiveChunkMessages C options messages = .ok chunks) :
    ∀ chunk ∈ chunks, chunk.tokenCount ≤ options.chunkMaxTokens := by
  simp only [adaptiveChunkMessages, bind_ok] at h
  obtain ⟨w, hfold, hlast⟩ := h
  obtain ⟨⟨runs, hcovers⟩, hlight⟩ := foldlM_ok (I := fun done w =>
      (∃ runs, w.Covers C.toTokenizer done runs) ∧ w.Light options) hfold
    ⟨⟨[], trivial, .nil, le_rfl, List.suffix_rfl, rfl⟩, Nat.zero_le _, by simp⟩ (by
      rintro done turn rest w w' hsplit ⟨⟨runs, hcovers⟩, hlight⟩ hstep
      have hnext : done ++ [turn] <+: buildTurns C.toTokenizer messages options.chunkMaxTokens :=
        ⟨rest, by rw [hsplit, List.append_assoc, List.singleton_append]⟩
      have hturn : turn ∈ buildTurns C.toTokenizer messages options.chunkMaxTokens := by simp [hsplit]
      constructor
      · exact step_covers hcovers hstep
      · exact step_light (hchunk done ((List.prefix_append _ _).trans hnext)) (hchunk _ hnext) hcovers hlight
          (hturns turn hturn) hstep)
  split at hlast
  · simp only [bind_ok, pure_ok] at hlast
    obtain ⟨chunk, hmade, rfl⟩ := hlast
    intro other hother
    rcases List.mem_append.mp hother with hother | hother
    · exact hlight.chunks other hother
    · rw [List.mem_singleton.mp hother]
      exact (hchunk _ List.prefix_rfl _ _ _ hcovers.current_suffix hmade).trans hlight.current
  · cases hlast
    exact hlight.chunks

end

/-! ## The budget -/

section

variable {T : Tokenizer} {C : Chunker} {options : ChunkOptions} {messages : List ChatMessage}

theorem ensureSourceIndices_content {m : ChatMessage} (hm : m ∈ ensureSourceIndices messages) :
    ∃ m' ∈ messages, m'.content = m.content := by
  obtain ⟨x, hx, rfl⟩ := List.mem_map.mp hm
  exact ⟨x.1, List.fst_mem_of_mem_zipIdx hx, rfl⟩

theorem chunks_light (hnone : C.encode = none) (hmax : 16 ≤ options.chunkMaxTokens)
    (hdistinct : Unrepeated (ensureSourceIndices messages))
    (hlight : ∀ m ∈ messages, ∀ part ∈ splitTextByTokens C.toTokenizer m.content (options.chunkMaxTokens - 16),
      tokenSum C.toTokenizer part ≤ options.chunkMaxTokens - 16 + 1)
    (hmergeable : ∀ m ∈ messages,
      Mergeable C.toTokenizer (splitTextByTokens C.toTokenizer m.content (options.chunkMaxTokens - 16)))
    {chunks : List MessageChunk} (h : adaptiveChunkMessages C options messages = .ok chunks) :
    ∀ chunk ∈ chunks, chunk.tokenCount ≤ options.chunkMaxTokens := by
  have hturns : ∀ turn ∈ buildTurns C.toTokenizer messages options.chunkMaxTokens,
      turn.Weighed C.toTokenizer ∧ turn.tokenCount ≤ options.chunkMaxTokens := by
    apply buildTurns_light hnone hmax
    intro m hm
    obtain ⟨m', hm', hcontent⟩ := ensureSourceIndices_content hm
    rw [← hcontent]
    exact hlight m' hm'
  apply adaptiveChunkMessages_light (fun turn hturn => (hturns turn hturn).2) _ h
  intro done hdone turns leadingOverlap chunk hturns' hmade
  have hwithin : turns <:+: buildTurns C.toTokenizer messages options.chunkMaxTokens :=
    hturns'.isInfix.trans hdone.isInfix
  have hfragments : turnMessages turns <:+:
      (ensureSourceIndices messages).flatMap (splitLongMessageTokens C.toTokenizer (options.chunkMaxTokens - 16)) := by
    rw [← buildTurns_messages]
    obtain ⟨front, back, hsplit⟩ := hwithin
    refine ⟨turnMessages front, turnMessages back, ?_⟩
    rw [← turnMessages_append, ← turnMessages_append, hsplit]
  rw [turnTokens_weighed fun turn hturn => (hturns turn (hwithin.subset hturn)).1]
  rw [chunkFromTurns] at hmade
  simp only [bind_ok, pure_ok] at hmade
  obtain ⟨merged, hmerged, rfl⟩ := hmade
  apply mergeMessages_le hnone hdistinct (fun m => ensureSourceIndices_indexed) _ hfragments hmerged
  intro m hm
  obtain ⟨m', hm', hcontent⟩ := ensureSourceIndices_content hm
  rw [← hcontent]
  exact hmergeable m' hm'

/-- Parts and chunks keep their budgets where every cut leaves words and numbers. -/
theorem parts_within_budget (hnone : T.encode = none) (hd : T.Decimals) :
    (∀ text maxTokens, 1 ≤ maxTokens →
      (TextRestsWhole T maxTokens text → TextSlicesWhole T maxTokens text →
        ∀ part ∈ splitTextByTokens T text maxTokens, estimateTokens T part ≤ maxTokens) ∧
      ((∀ part ∈ splitTextByTokens T text maxTokens, estimateTokens T part ≤ maxTokens) →
        TextSlicesWhole T maxTokens text)) ∧
    ∀ (C : Chunker) (options : ChunkOptions) (messages : List ChatMessage) (chunks : List MessageChunk),
      C.toTokenizer = T → 4000 ≤ options.chunkMaxTokens → Unrepeated (ensureSourceIndices messages) →
      (∀ m ∈ messages, TextRestsWhole T (options.chunkMaxTokens - 16) m.content) →
      adaptiveChunkMessages C options messages = .ok chunks →
      ∀ chunk ∈ chunks, chunk.tokenCount ≤ options.chunkMaxTokens := by
  constructor
  · intro text maxTokens hmax
    constructor
    · intro hrests hslices part hpart
      have hle := (splitTextByTokens_le hd hnone hmax hrests).2.1 hslices part hpart
      rw [estimateTokens_fallback hnone]
      omega
    · intro hle
      apply slicesWhole_of_le hd hnone hmax
      intro part hpart
      have hpart := hle part hpart
      rw [estimateTokens_fallback hnone] at hpart
      omega
  · rintro C options messages chunks rfl hmax hdistinct hrests h
    have hmin : 1 ≤ options.chunkMaxTokens - 16 := by omega
    have hparts : ∀ m ∈ messages, _ := fun m hm => splitTextByTokens_le hd hnone hmin (hrests m hm)
    exact chunks_light hnone (by omega) hdistinct (fun m hm => (hparts m hm).1) (fun m hm => (hparts m hm).2.2) h

end

/-! ## A word cut beside its apostrophe -/

theorem plainChunker_decimals : plainChunker.Decimals := by
  intro c hc
  have hrange : 48 ≤ c.toNat ∧ c.toNat ≤ 57 := by
    simp only [plainChunker, Char.isDigit, Bool.and_eq_true, decide_eq_true_eq, ge_iff_le, UInt32.le_iff_toNat_le] at hc
    exact hc
  refine ⟨?_, ?_, ?_, ?_, ?_⟩
  · simp only [isIdeograph, Bool.or_eq_false_iff, Bool.and_eq_false_iff, decide_eq_false_iff_not]
    omega
  · apply Bool.eq_false_iff.mpr
    intro halpha
    have hletter := isAlpha_range halpha
    omega
  · simp [isSpace]
    omega
  · rintro rfl
    exact absurd hrange (by decide)
  · rintro rfl
    exact absurd hrange (by decide)

/-- A word of seven letters, and two short messages. -/
theorem parts_within_budget_greeting :
    (∀ part ∈ splitTextByTokens plainChunker.toTokenizer ['a', 'b', 'c', 'd', 'e', 'f', 'g'] 1,
      estimateTokens plainChunker.toTokenizer part ≤ 1) ∧
    ∃ chunks, adaptiveChunkMessages plainChunker defaultChunkOptions greeting = .ok chunks ∧
      ∀ chunk ∈ chunks, chunk.tokenCount ≤ 6000 := by
  have hbudget := parts_within_budget (T := plainChunker.toTokenizer) rfl plainChunker_decimals
  have hshort : ∀ text, textUnits text = [text] →
      (fallbackTokens plainChunker.toTokenizer text).1 = [⟨[], text, true⟩] →
      (fallbackTokens plainChunker.toTokenizer text).2 = [] →
      (tokenWeight text.length true ≤ 5984) → TextRestsWhole plainChunker.toTokenizer 5984 text := by
    intro text hunits htoken hnil hlight unit hunit
    rw [hunits, List.mem_singleton] at hunit
    rw [hunit, htoken]
    exact ⟨fun hheavy => absurd hlight (Nat.not_le.mpr hheavy), trivial⟩
  constructor
  · apply ((hbudget.1 ['a', 'b', 'c', 'd', 'e', 'f', 'g'] 1 le_rfl).1)
    · intro unit hunit
      have hunits : textUnits ['a', 'b', 'c', 'd', 'e', 'f', 'g'] = [['a', 'b', 'c', 'd', 'e', 'f', 'g']] := by
        decide +kernel
      rw [hunits, List.mem_singleton] at hunit
      rw [hunit]
      refine ⟨fun _ => ?_, trivial⟩
      change fallbackToken _ _ = _
      decide +kernel
    · intro unit hunit
      have hunits : textUnits ['a', 'b', 'c', 'd', 'e', 'f', 'g'] = [['a', 'b', 'c', 'd', 'e', 'f', 'g']] := by
        decide +kernel
      rw [hunits, List.mem_singleton] at hunit
      rw [hunit]
      have htokens : (fallbackTokens plainChunker.toTokenizer ['a', 'b', 'c', 'd', 'e', 'f', 'g']).1 =
          [⟨[], ['a', 'b', 'c', 'd', 'e', 'f', 'g'], true⟩] := by rfl
      rw [htokens]
      intro m hm _ _ k hk
      rw [List.mem_singleton.mp hm] at hk ⊢
      change (k + 1) * 4 < 7 at hk
      obtain rfl : k = 0 := by omega
      decide +kernel
  · have hagree : Agree (ensureSourceIndices greeting) := agree_of_unset (by decide)
    obtain ⟨chunks, hchunks⟩ := adaptiveChunkMessages_ok plainChunker defaultChunkOptions hagree
    refine ⟨chunks, hchunks, ?_⟩
    apply hbudget.2 plainChunker defaultChunkOptions greeting chunks rfl (by decide) _ _ hchunks
    · simp [Unrepeated, ensureSourceIndices, greeting]
    · intro m hm
      rcases List.mem_pair.mp hm with rfl | rfl
      · apply hshort
        · decide +kernel
        · rfl
        · rfl
        · decide
      · apply hshort
        · decide +kernel
        · rfl
        · rfl
        · decide

/-- The part behind the first cut begins with the apostrophe. -/
theorem apostrophe_over_budget :
    ¬ ∀ T : Tokenizer, T.encode = none → T.Decimals → ∀ text maxTokens, 1 ≤ maxTokens →
      ∀ part ∈ splitTextByTokens T text maxTokens, estimateTokens T part ≤ maxTokens := by
  intro h
  have hparts := h plainChunker.toTokenizer rfl plainChunker_decimals
    ['a', 'b', 'c', 'd', '\'', 'e', 'f', 'g', 'h'] 1 le_rfl
  revert hparts
  decide +kernel

end YiQiao
