import YiQiao.Import.Chunks

/-!
# What the chunks cover

Every turn of a conversation is new in exactly one of its chunks, in order, and what a chunk repeats stands
right before what is new in it. The pieces of a message join back to it over the chunks.
-/

namespace YiQiao

open Lib Lib.Fallible

/-- The turns of a chunk: those that were emitted before, and the new ones. -/
structure ChunkRun where
  overlap : List ConversationTurn
  core : List ConversationTurn

def ChunkRun.turns (r : ChunkRun) : List ConversationTurn := r.overlap ++ r.core

/-- The chunk that a run is merged into. -/
def ChunkRun.Makes (T : Tokenizer) (r : ChunkRun) (chunk : MessageChunk) : Prop :=
  chunkFromTurns T r.turns r.overlap.length 0 none none = .ok chunk

/-- Every run begins where the one before it ended, and repeats turns from right before. -/
def Follow : List ConversationTurn → List ChunkRun → Prop
  | _, [] => True
  | done, r :: rs => r.overlap <:+ done ∧ r.core ≠ [] ∧ Follow (done ++ r.core) rs

theorem follow_snoc {done : List ConversationTurn} {rs : List ChunkRun} {r : ChunkRun} :
    Follow done (rs ++ [r]) ↔
      Follow done rs ∧ r.overlap <:+ done ++ rs.flatMap ChunkRun.core ∧ r.core ≠ [] := by
  induction rs generalizing done with
  | nil => simp [Follow]
  | cons s rs ih => simp only [List.cons_append, Follow, ih, List.flatMap_cons, List.append_assoc, and_assoc]

/-! ## The window over the turns -/

section

variable {C : Chunker} {options : ChunkOptions} {w w' : Window} {done : List ConversationTurn}
  {turn : ConversationTurn}

/-- The chunks so far cover the turns up to what is new in the window. -/
structure Window.Covers (T : Tokenizer) (done : List ConversationTurn) (w : Window) (runs : List ChunkRun) :
    Prop where
  follow : Follow [] runs
  chunks : List.Forall₂ (ChunkRun.Makes T) runs w.chunks
  leading : w.leadingOverlap ≤ w.current.length
  overlap : w.current.take w.leadingOverlap <:+ runs.flatMap ChunkRun.core
  fresh : runs.flatMap ChunkRun.core ++ w.current.drop w.leadingOverlap = done

/-- There is nothing new in the window. -/
def Window.Stale (w : Window) : Prop := w.leadingOverlap = w.current.length

theorem Window.Covers.current_suffix {runs : List ChunkRun} (h : w.Covers C.toTokenizer done runs) :
    w.current <:+ done := by
  obtain ⟨front, hfront⟩ := h.overlap
  refine ⟨front, ?_⟩
  calc front ++ w.current = front ++ (w.current.take w.leadingOverlap ++ w.current.drop w.leadingOverlap) := by
        rw [List.take_append_drop]
    _ = runs.flatMap ChunkRun.core ++ w.current.drop w.leadingOverlap := by rw [← List.append_assoc, hfront]
    _ = done := h.fresh

/-- The run of what is in the window. -/
def Window.run (w : Window) : ChunkRun := ⟨w.current.take w.leadingOverlap, w.current.drop w.leadingOverlap⟩

theorem Window.run_makes {chunk : MessageChunk} (hle : w.leadingOverlap ≤ w.current.length)
    (h : chunkFromTurns C.toTokenizer w.current w.leadingOverlap 0 none none = .ok chunk) :
    w.run.Makes C.toTokenizer chunk := by
  rw [ChunkRun.Makes, ChunkRun.turns, Window.run, List.take_append_drop, List.length_take, Nat.min_eq_left hle]
  exact h

theorem Window.Covers.follow_run {runs : List ChunkRun} (h : w.Covers C.toTokenizer done runs)
    (hnew : w.leadingOverlap < w.current.length) : Follow [] (runs ++ [w.run]) := by
  refine follow_snoc.mpr ⟨h.follow, h.overlap, fun hnil => ?_⟩
  rw [Window.run, List.drop_eq_nil_iff] at hnil
  omega

theorem Window.Covers.run_done {runs : List ChunkRun} (h : w.Covers C.toTokenizer done runs) :
    (runs ++ [w.run]).flatMap ChunkRun.core = done := by
  rw [List.flatMap_append, List.flatMap_singleton]
  exact h.fresh

theorem emit_covers {runs : List ChunkRun} (h : w.Covers C.toTokenizer done runs)
    (hnew : w.leadingOverlap < w.current.length) (hemit : w.emit C options = .ok w') :
    ∃ runs', w'.Covers C.toTokenizer done runs' ∧ w'.Stale := by
  have hne : ¬ (w.current = [] ∨ w.current.length ≤ w.leadingOverlap) := by
    rintro (hnil | hle)
    · rw [hnil] at hnew
      cases hnew
    · omega
  unfold Window.emit at hemit
  rw [if_neg hne] at hemit
  simp only [bind_ok, pure_ok] at hemit
  obtain ⟨chunk, hchunk, rfl⟩ := hemit
  refine ⟨runs ++ [w.run], ⟨h.follow_run hnew, ?_, le_rfl, ?_, ?_⟩, rfl⟩
  · exact List.rel_append h.chunks (.cons (Window.run_makes h.leading hchunk) .nil)
  · rw [h.run_done, List.take_length]
    exact (List.drop_suffix _ _).trans h.current_suffix
  · rw [h.run_done, List.drop_length, List.append_nil]

theorem dropToFit_spec (options : ChunkOptions) (turn : ConversationTurn) (chunks : List MessageChunk) (current : List ConversationTurn) :
    ∃ kept, kept <:+ current ∧
      dropToFit options turn chunks current current.length = ⟨chunks, kept, kept.length⟩ := by
  induction current with
  | nil => exact ⟨[], List.suffix_rfl, rfl⟩
  | cons first rest ih =>
      unfold dropToFit
      split
      · obtain ⟨kept, hkept, hdrop⟩ := ih
        exact ⟨kept, hkept.trans (List.suffix_cons first rest), hdrop⟩
      · exact ⟨first :: rest, List.suffix_rfl, rfl⟩

/-- Giving up overlap covers what was covered. -/
theorem fit_covers {runs : List ChunkRun} (h : w.Covers C.toTokenizer done runs) (hstale : w.Stale) :
    (w.fit options turn).Covers C.toTokenizer done runs := by
  obtain ⟨kept, hkept, hdrop⟩ := dropToFit_spec options turn w.chunks w.current
  have hoverlap := h.overlap
  have hfresh := h.fresh
  rw [hstale, List.take_length] at hoverlap
  rw [hstale, List.drop_length, List.append_nil] at hfresh
  rw [Window.fit, hstale, hdrop]
  refine ⟨h.follow, h.chunks, le_rfl, ?_, ?_⟩
  · rw [List.take_length]
    exact hkept.trans hoverlap
  · rw [List.drop_length, List.append_nil]
    exact hfresh

theorem fit_of_fits (hfits : ¬ w.overflows options turn) : w.fit options turn = w := by
  cases w with
  | mk chunks current leading =>
      cases current with
      | nil => rfl
      | cons first rest =>
          have hlight : ¬ options.chunkMaxTokens < turnTokens (first :: rest) + turn.tokenCount :=
            fun hheavy => hfits ⟨List.cons_ne_nil _ _, hheavy⟩
          rw [Window.fit, dropToFit, if_neg hlight]

theorem makeRoom_covers {runs : List ChunkRun} (h : w.Covers C.toTokenizer done runs)
    (hroom : w.makeRoom C options turn = .ok w') : ∃ runs', w'.Covers C.toTokenizer done runs' := by
  unfold Window.makeRoom at hroom
  split at hroom
  · rename_i hover
    simp only [bind_ok, pure_ok] at hroom
    obtain ⟨emitted, hemit, rfl⟩ := hroom
    obtain ⟨runs', hcovers, hstale⟩ := emit_covers h hover.2 hemit
    exact ⟨runs', fit_covers hcovers hstale⟩
  · rename_i hover
    rw [pure_ok] at hroom
    subst hroom
    by_cases hfits : w.overflows options turn
    · exact ⟨runs, fit_covers h (le_antisymm h.leading (not_lt.mp fun hnew => hover ⟨hfits, hnew⟩))⟩
    · rw [fit_of_fits hfits]
      exact ⟨runs, h⟩

theorem endTopic_covers {runs : List ChunkRun} (h : w.Covers C.toTokenizer done runs)
    (htopic : w.endTopic C options turn = .ok w') : ∃ runs', w'.Covers C.toTokenizer done runs' := by
  unfold Window.endTopic at htopic
  split at htopic
  · rename_i hends
    simp only [bind_ok, pure_ok] at htopic
    obtain ⟨emitted, hemit, rfl⟩ := htopic
    obtain ⟨runs', hcovers, hstale⟩ := emit_covers h hends.1 hemit
    exact ⟨runs', fit_covers hcovers hstale⟩
  · rw [pure_ok] at htopic
    subst htopic
    exact ⟨runs, h⟩

theorem push_covers (turn : ConversationTurn) {runs : List ChunkRun} (h : w.Covers C.toTokenizer done runs) :
    (w.push turn).Covers C.toTokenizer (done ++ [turn]) runs := by
  refine ⟨h.follow, h.chunks, ?_, ?_, ?_⟩
  · rw [Window.push, List.length_append]
    exact h.leading.trans (Nat.le_add_right _ _)
  · rw [Window.push, List.take_append_of_le_length h.leading]
    exact h.overlap
  · rw [Window.push, List.drop_append_of_le_length h.leading, ← List.append_assoc, h.fresh]

theorem step_covers {runs : List ChunkRun} (h : w.Covers C.toTokenizer done runs)
    (hstep : w.step C options turn = .ok w') : ∃ runs', w'.Covers C.toTokenizer (done ++ [turn]) runs' := by
  unfold Window.step at hstep
  simp only [bind_ok] at hstep
  obtain ⟨w₁, hroom, w₂, htopic, hpush⟩ := hstep
  obtain ⟨runs₁, h₁⟩ := makeRoom_covers h hroom
  obtain ⟨runs₂, h₂⟩ := endTopic_covers h₁ htopic
  have h₃ := push_covers turn h₂
  split at hpush
  · by_cases hnew : (w₂.push turn).leadingOverlap < (w₂.push turn).current.length
    · obtain ⟨runs', h', _⟩ := emit_covers h₃ hnew hpush
      exact ⟨runs', h'⟩
    · rw [Window.emit, if_pos (.inr (not_lt.mp hnew))] at hpush
      cases hpush
      exact ⟨runs₂, h₃⟩
  · rw [pure_ok] at hpush
    subst hpush
    exact ⟨runs₂, h₃⟩

/-- What is left in the window at the end is a chunk of its own. -/
theorem last_covers {runs : List ChunkRun} (h : w.Covers C.toTokenizer done runs) {chunks : List MessageChunk}
    (hlast : (if w.leadingOverlap < w.current.length then do
        let chunk ← chunkFromTurns C.toTokenizer w.current w.leadingOverlap 0 none none
        pure (w.chunks ++ [chunk])
      else pure w.chunks) = .ok chunks) :
    ∃ runs', Follow [] runs' ∧ List.Forall₂ (ChunkRun.Makes C.toTokenizer) runs' chunks ∧
      runs'.flatMap ChunkRun.core = done := by
  split at hlast
  · rename_i hnew
    simp only [bind_ok, pure_ok] at hlast
    obtain ⟨chunk, hchunk, rfl⟩ := hlast
    exact ⟨runs ++ [w.run], h.follow_run hnew,
      List.rel_append h.chunks (.cons (Window.run_makes h.leading hchunk) .nil), h.run_done⟩
  · rename_i hnew
    rw [pure_ok] at hlast
    subst hlast
    refine ⟨runs, h.follow, h.chunks, ?_⟩
    have hfresh := h.fresh
    rwa [List.drop_eq_nil_of_le (not_lt.mp hnew), List.append_nil] at hfresh

end

/-! ## Merging -/

/-- Messages of one source index have one role. -/
def Agree (messages : List ChatMessage) : Prop :=
  ∀ m ∈ messages, ∀ m' ∈ messages, m.sourceIndex = m'.sourceIndex → m.role = m'.role

/-- What the messages of a source index say. -/
def contentOf (i : Int) (messages : List ChatMessage) : Text :=
  (messages.filter fun m => m.sourceIndex = some i).flatMap ChatMessage.content

theorem contentOf_append (i : Int) (xs ys : List ChatMessage) :
    contentOf i (xs ++ ys) = contentOf i xs ++ contentOf i ys := by
  rw [contentOf, List.filter_append, List.flatMap_append]
  rfl

theorem contentOf_cons (i : Int) (m : ChatMessage) (rest : List ChatMessage) :
    contentOf i (m :: rest) = contentOf i [m] ++ contentOf i rest := contentOf_append i [m] rest

theorem contentOf_flatMap {α : Type} (i : Int) (f : α → List ChatMessage) (xs : List α) :
    contentOf i (xs.flatMap f) = xs.flatMap fun x => contentOf i (f x) := by
  induction xs with
  | nil => rfl
  | cons x xs ih => rw [List.flatMap_cons, contentOf_append, ih, List.flatMap_cons]

/-- Unrepeated messages have different source indices. -/
def Unrepeated (messages : List ChatMessage) : Prop :=
  messages.Pairwise fun m m' => m.sourceIndex.isSome → m.sourceIndex ≠ m'.sourceIndex

/-- A message of the same source index and role. -/
def ChatMessage.Like (m m' : ChatMessage) : Prop := m.sourceIndex = m'.sourceIndex ∧ m.role = m'.role

section

variable {m : ChatMessage} {messages merged fragments : List ChatMessage}

theorem mergeMessage_mem (h : mergeMessage m messages = .ok merged) {e : ChatMessage} (he : e ∈ merged) :
    e.Like m ∨ ∃ e' ∈ messages, e.Like e' := by
  induction messages generalizing merged with
  | nil =>
      cases h
      rw [List.mem_singleton.mp he]
      exact .inl ⟨rfl, rfl⟩
  | cons existing rest ih =>
      unfold mergeMessage at h
      split at h
      · split at h
        · cases h
          rcases List.mem_cons.mp he with rfl | he
          · exact .inr ⟨existing, List.mem_cons_self, rfl, rfl⟩
          · exact .inr ⟨e, List.mem_cons_of_mem _ he, rfl, rfl⟩
        · cases h
      · cases hrest : mergeMessage m rest with
        | error err =>
            rw [hrest] at h
            cases h
        | ok tail =>
            rw [hrest] at h
            cases h
            rcases List.mem_cons.mp he with rfl | he
            · exact .inr ⟨_, List.mem_cons_self, rfl, rfl⟩
            · rcases ih hrest he with hlike | ⟨e', he', hlike⟩
              · exact .inl hlike
              · exact .inr ⟨e', List.mem_cons_of_mem _ he', hlike⟩

theorem mergeMessage_ok (h : ∀ e ∈ messages, e.sourceIndex = m.sourceIndex → e.role = m.role) :
    ∃ merged, mergeMessage m messages = .ok merged := by
  induction messages with
  | nil => exact ⟨_, rfl⟩
  | cons existing rest ih =>
      unfold mergeMessage
      split
      · rename_i hsame
        rw [if_pos (h existing List.mem_cons_self hsame.2)]
        exact ⟨_, rfl⟩
      · obtain ⟨merged, hmerged⟩ := ih fun e he => h e (List.mem_cons_of_mem _ he)
        rw [hmerged]
        exact ⟨_, rfl⟩

theorem mergeMessages_ok (h : Agree fragments) : ∃ merged, mergeMessages fragments = .ok merged := by
  obtain ⟨merged, hmerged, _⟩ := foldlM_total (f := fun messages m => mergeMessage m messages)
    (I := fun _ messages => ∀ e ∈ messages, ∃ m ∈ fragments, e.Like m) (s := []) fragments (by simp)
    (by
      intro done m rest messages hfragments hI
      have hm : m ∈ fragments := by
        rw [hfragments]
        exact List.mem_append_right _ List.mem_cons_self
      obtain ⟨merged, hmerged⟩ : ∃ merged, mergeMessage m messages = .ok merged := by
        refine mergeMessage_ok fun e he hindex => ?_
        obtain ⟨m', hm', hlike⟩ := hI e he
        rw [hlike.2]
        exact h m' hm' m hm (hlike.1.symm.trans hindex)
      refine ⟨merged, hmerged, fun e he => ?_⟩
      rcases mergeMessage_mem hmerged he with hlike | ⟨e', he', hlike⟩
      · exact ⟨m, hm, hlike⟩
      · obtain ⟨m', hm', hlike'⟩ := hI e' he'
        exact ⟨m', hm', hlike.1.trans hlike'.1, hlike.2.trans hlike'.2⟩)
  exact ⟨merged, hmerged⟩

theorem mergeMessages_mem (h : mergeMessages fragments = .ok merged) {e : ChatMessage} (he : e ∈ merged) :
    ∃ m ∈ fragments, e.Like m := by
  refine foldlM_ok (I := fun _ merged => ∀ e ∈ merged, ∃ m ∈ fragments, e.Like m) h (by simp) ?_ e he
  rintro done m rest messages merged hsplit hmessages hstep e he
  rcases mergeMessage_mem hstep he with hlike | ⟨e', he', hlike⟩
  · exact ⟨m, by rw [hsplit]; exact List.mem_append_right _ List.mem_cons_self, hlike⟩
  · obtain ⟨m', hm', hlike'⟩ := hmessages e' he'
    exact ⟨m', hm', hlike.1.trans hlike'.1, hlike.2.trans hlike'.2⟩

theorem mergeMessage_unrepeated (h : mergeMessage m messages = .ok merged) (hmessages : Unrepeated messages) :
    Unrepeated merged := by
  induction messages generalizing merged with
  | nil =>
      cases h
      exact List.pairwise_singleton _ _
  | cons existing rest ih =>
      obtain ⟨hfirst, hrest⟩ := List.pairwise_cons.mp hmessages
      unfold mergeMessage at h
      split at h
      · split at h
        · cases h
          exact List.pairwise_cons.mpr ⟨hfirst, hrest⟩
        · cases h
      · rename_i hother
        cases htail : mergeMessage m rest with
        | error err =>
            rw [htail] at h
            cases h
        | ok tail =>
            rw [htail] at h
            cases h
            refine List.pairwise_cons.mpr ⟨fun e he hsome hsame => ?_, ih htail hrest⟩
            rcases mergeMessage_mem htail he with hlike | ⟨e', he', hlike⟩
            · refine hother ⟨?_, hsame.trans hlike.1⟩
              rwa [← hlike.1, ← hsame]
            · exact hfirst e' he' hsome (hsame.trans hlike.1)

/-- Merging a fragment appends what it says to what its source index says. -/
theorem mergeMessage_content (h : mergeMessage m messages = .ok merged) (hmessages : Unrepeated messages) (i : Int) :
    contentOf i merged = contentOf i messages ++ contentOf i [m] := by
  induction messages generalizing merged with
  | nil =>
      cases h
      rfl
  | cons existing rest ih =>
      obtain ⟨hfirst, hrest⟩ := List.pairwise_cons.mp hmessages
      unfold mergeMessage at h
      split at h
      · rename_i hsame
        split at h
        · cases h
          rw [contentOf_cons i _ rest, contentOf_cons i existing rest]
          by_cases hi : m.sourceIndex = some i
          · have hnone : contentOf i rest = [] := by
              rw [contentOf, List.filter_eq_nil_iff.mpr, List.flatMap_nil]
              intro e he heq
              exact hfirst e he (by rw [hsame.2, hi]; rfl) (by rw [hsame.2, hi, of_decide_eq_true heq])
            have hexisting := hsame.2.trans hi
            rw [hnone]
            simp [contentOf, hi, hexisting]
          · have hexisting : existing.sourceIndex ≠ some i := fun heq => hi (hsame.2.symm.trans heq)
            simp [contentOf, hi, hexisting]
        · cases h
      · cases htail : mergeMessage m rest with
        | error err =>
            rw [htail] at h
            cases h
        | ok tail =>
            rw [htail] at h
            cases h
            rw [contentOf_cons i existing tail, ih htail hrest, ← List.append_assoc, ← contentOf_cons]

/-- Merging keeps what every source index says. -/
theorem mergeMessages_content (h : mergeMessages fragments = .ok merged) :
    Unrepeated merged ∧ ∀ i, contentOf i merged = contentOf i fragments := by
  refine foldlM_ok (I := fun done merged => Unrepeated merged ∧ ∀ i, contentOf i merged = contentOf i done) h
    ⟨.nil, fun _ => rfl⟩ ?_
  rintro done m _ messages merged _ ⟨hmessages, hcontent⟩ hstep
  refine ⟨mergeMessage_unrepeated hstep hmessages, fun i => ?_⟩
  rw [mergeMessage_content hstep hmessages, hcontent, contentOf_append]

end

/-! ## The messages of the turns -/

section

variable {T : Tokenizer}

theorem turnMessages_append (xs ys : List ConversationTurn) :
    turnMessages (xs ++ ys) = turnMessages xs ++ turnMessages ys := List.flatMap_append

theorem turnsFrom_messages (current : List ChatMessage) (userIndex : Option Int) (messages : List ChatMessage) :
    turnMessages (turnsFrom T current userIndex messages) = current ++ messages := by
  induction messages generalizing current userIndex with
  | nil =>
      unfold turnsFrom
      split
      · rename_i h
        rw [h]
        rfl
      · simp [turnMessages, turnOf]
  | cons m rest ih =>
      unfold turnsFrom
      dsimp only
      split
      · rw [turnMessages, List.flatMap_cons]
        exact congrArg (current ++ ·) (ih [m] _)
      · rw [ih, List.append_assoc, List.singleton_append]

theorem boundTurn_messages (maxTokens : Nat) (turn : ConversationTurn) :
    turnMessages (boundTurn T maxTokens turn) = turn.messages := by
  unfold boundTurn
  split
  · simp [turnMessages]
  · rw [turnMessages, List.flatMap_map]
    change (pack (messageTokens T) maxTokens turn.messages).flatMap id = turn.messages
    rw [List.flatMap_id, pack_flatten]

/-- The turns hold the pieces of the messages in order. -/
theorem buildTurns_messages (messages : List ChatMessage) (maxTokens : Nat) :
    turnMessages (buildTurns T messages maxTokens) =
      (ensureSourceIndices messages).flatMap (splitLongMessageTokens T (maxTokens - 16)) := by
  rw [buildTurns, turnMessages, List.flatMap_assoc]
  exact (List.flatMap_congr fun turn _ => boundTurn_messages maxTokens turn).trans
    ((turnsFrom_messages [] none _).trans (List.nil_append _))

theorem splitLongMessageTokens_like {maxTokens : Nat} {m piece : ChatMessage}
    (h : piece ∈ splitLongMessageTokens T maxTokens m) : piece.Like m := by
  obtain ⟨part, _, rfl⟩ := List.mem_map.mp h
  exact ⟨rfl, rfl⟩

theorem splitLongMessageTokens_content (maxTokens : Nat) (m : ChatMessage) (i : Int) :
    contentOf i (splitLongMessageTokens T maxTokens m) = contentOf i [m] := by
  by_cases hi : m.sourceIndex = some i
  · have hall : ∀ pieces : List (Text × Nat), contentOf i (pieces.map fun part =>
        { m with content := part.1, partIndex := part.2 }) = (pieces.map Prod.fst).flatten := by
      intro pieces
      induction pieces with
      | nil => rfl
      | cons part pieces ih =>
          rw [List.map_cons, contentOf_cons, ih, List.map_cons, List.flatten_cons]
          simp [contentOf, hi]
    rw [splitLongMessageTokens, hall, List.zipIdx_map_fst, splitTextByTokens_text]
    simp [contentOf, hi]
  · have hnone : ∀ xs : List ChatMessage, (∀ x ∈ xs, x.Like m) → contentOf i xs = [] := by
      intro xs hxs
      rw [contentOf, List.filter_eq_nil_iff.mpr, List.flatMap_nil]
      intro x hx heq
      exact hi ((hxs x hx).1.symm.trans (of_decide_eq_true heq))
    rw [hnone _ fun _ => splitLongMessageTokens_like, hnone _ fun x hx => by
      rw [List.mem_singleton.mp hx]
      exact ⟨rfl, rfl⟩]

/-- The pieces of a source index join back to what it says. -/
theorem buildTurns_content (messages : List ChatMessage) (maxTokens : Nat) (i : Int) :
    contentOf i (turnMessages (buildTurns T messages maxTokens)) = contentOf i (ensureSourceIndices messages) := by
  rw [buildTurns_messages, contentOf_flatMap]
  calc (ensureSourceIndices messages).flatMap (fun m => contentOf i (splitLongMessageTokens T (maxTokens - 16) m))
      = (ensureSourceIndices messages).flatMap (fun m => contentOf i [m]) :=
        List.flatMap_congr fun m _ => splitLongMessageTokens_content _ m i
    _ = contentOf i ((ensureSourceIndices messages).flatMap fun m => [m]) := (contentOf_flatMap i _ _).symm
    _ = contentOf i (ensureSourceIndices messages) := by rw [List.flatMap_singleton']

/-- The pieces of messages that agree agree. -/
theorem Agree.pieces {messages : List ChatMessage} (h : Agree messages) (maxTokens : Nat) :
    Agree (messages.flatMap (splitLongMessageTokens T maxTokens)) := by
  intro piece hpiece piece' hpiece' hsame
  obtain ⟨m, hm, hpiece⟩ := List.mem_flatMap.mp hpiece
  obtain ⟨m', hm', hpiece'⟩ := List.mem_flatMap.mp hpiece'
  have hlike := splitLongMessageTokens_like hpiece
  have hlike' := splitLongMessageTokens_like hpiece'
  rw [hlike.2, hlike'.2]
  exact h m hm m' hm' (hlike.1.symm.trans (hsame.trans hlike'.1))

theorem buildTurns_agree {messages : List ChatMessage} (h : Agree (ensureSourceIndices messages)) (maxTokens : Nat) :
    Agree (turnMessages (buildTurns T messages maxTokens)) := by
  rw [buildTurns_messages]
  exact h.pieces _

/-- Messages numbered by position agree. -/
theorem agree_of_unset {messages : List ChatMessage} (hunset : ∀ m ∈ messages, m.sourceIndex = none) :
    Agree (ensureSourceIndices messages) := by
  rintro _ hm _ hm' hsame
  obtain ⟨⟨m, k⟩, hmk, rfl⟩ := List.mem_map.mp hm
  obtain ⟨⟨m', k'⟩, hmk', rfl⟩ := List.mem_map.mp hm'
  have hget := List.mem_zipIdx_iff_getElem?.mp hmk
  have hget' := List.mem_zipIdx_iff_getElem?.mp hmk'
  dsimp only at hget hget' hsame ⊢
  rw [hunset m (List.mem_of_getElem? hget), hunset m' (List.mem_of_getElem? hget')] at hsame
  have hk : k = k' := by simpa using hsame
  rw [hk, hget', Option.some.injEq] at hget
  rw [hget]

/-- A list whose messages have no source index is numbered by position. -/
theorem contentOf_unset {messages : List ChatMessage} (hunset : ∀ m ∈ messages, m.sourceIndex = none) {k : Nat}
    {m : ChatMessage} (hm : messages[k]? = some m) : contentOf k (ensureSourceIndices messages) = m.content := by
  have hgeneral : ∀ (xs : List ChatMessage) (start : Nat), (∀ x ∈ xs, x.sourceIndex = none) →
      contentOf k ((xs.zipIdx start).map fun x => { x.1 with sourceIndex := some (x.1.sourceIndex.getD x.2) }) =
        if start ≤ k then (xs[k - start]?.map ChatMessage.content).getD [] else [] := by
    intro xs
    induction xs with
    | nil => intro start _; simp [contentOf]
    | cons x xs ih =>
        intro start hxs
        rw [List.zipIdx_cons, List.map_cons, contentOf_cons, ih _ fun y hy => hxs y (List.mem_cons_of_mem _ hy),
          hxs x List.mem_cons_self]
        rcases lt_trichotomy start k with hlt | heq | hgt
        · have hpos : k - start = (k - (start + 1)) + 1 := by omega
          rw [if_pos (by omega), if_pos hlt.le, hpos, List.getElem?_cons_succ]
          have hne : (start : Int) ≠ k := by omega
          simp [contentOf, hne]
        · subst heq
          simp [contentOf]
        · rw [if_neg (by omega), if_neg (by omega)]
          have hne : (start : Int) ≠ k := by omega
          simp [contentOf, hne]
  have h := hgeneral messages 0 hunset
  rw [if_pos (Nat.zero_le k), Nat.sub_zero, hm] at h
  exact h

end

/-! ## Every turn, every piece -/

section

variable {C : Chunker} {options : ChunkOptions} {w : Window} {done : List ConversationTurn}
  {turn : ConversationTurn}

theorem Agree.mono {xs ys : List ChatMessage} (h : Agree ys) (hsub : xs ⊆ ys) : Agree xs :=
  fun m hm m' hm' => h m (hsub hm) m' (hsub hm')

theorem chunkFromTurns_ok {T : Tokenizer} {turns : List ConversationTurn} (h : Agree (turnMessages turns))
    (leadingOverlap splitDepth : Nat) (parentImportKey : Option String) (core : Option (List Int)) :
    ∃ chunk, chunkFromTurns T turns leadingOverlap splitDepth parentImportKey core = .ok chunk := by
  obtain ⟨merged, hmerged⟩ := mergeMessages_ok h
  rw [chunkFromTurns, hmerged]
  exact ⟨_, rfl⟩

theorem emit_ok (C : Chunker) (options : ChunkOptions) (h : Agree (turnMessages w.current)) : ∃ w', w.emit C options = .ok w' := by
  unfold Window.emit
  split
  · exact ⟨w, rfl⟩
  · obtain ⟨chunk, hchunk⟩ := chunkFromTurns_ok (T := C.toTokenizer) h w.leadingOverlap 0 none none
    rw [hchunk]
    exact ⟨_, rfl⟩

theorem turnMessages_subset {xs ys : List ConversationTurn} (h : xs ⊆ ys) :
    turnMessages xs ⊆ turnMessages ys := by
  intro m hm
  obtain ⟨turn, hturn, hm⟩ := List.mem_flatMap.mp hm
  exact List.mem_flatMap.mpr ⟨turn, h hturn, hm⟩

theorem turnMessages_suffix {xs ys : List ConversationTurn} (h : xs <:+ ys) :
    turnMessages xs ⊆ turnMessages ys := turnMessages_subset h.subset

theorem step_ok (options : ChunkOptions) {runs : List ChunkRun} (h : w.Covers C.toTokenizer done runs)
    (hagree : Agree (turnMessages (done ++ [turn]))) : ∃ w', w.step C options turn = .ok w' := by
  have hdone : ∀ {v : Window} {rs : List ChunkRun}, v.Covers C.toTokenizer done rs →
      Agree (turnMessages v.current) := fun hv =>
    hagree.mono (List.Subset.trans (turnMessages_suffix hv.current_suffix) (by
      rw [turnMessages_append]
      exact List.subset_append_left _ _))
  obtain ⟨w₁, h₁⟩ : ∃ w₁, w.makeRoom C options turn = .ok w₁ := by
    unfold Window.makeRoom
    split
    · obtain ⟨emitted, hemitted⟩ := emit_ok C options (hdone h)
      rw [hemitted]
      exact ⟨_, rfl⟩
    · exact ⟨_, rfl⟩
  obtain ⟨runs₁, hruns₁⟩ := makeRoom_covers h h₁
  obtain ⟨w₂, h₂⟩ : ∃ w₂, w₁.endTopic C options turn = .ok w₂ := by
    unfold Window.endTopic
    split
    · obtain ⟨emitted, hemitted⟩ := emit_ok C options (hdone hruns₁)
      rw [hemitted]
      exact ⟨_, rfl⟩
    · exact ⟨_, rfl⟩
  obtain ⟨runs₂, hruns₂⟩ := endTopic_covers hruns₁ h₂
  simp only [Window.step, bind, Except.bind, h₁, h₂]
  split
  · exact emit_ok C options (hagree.mono (turnMessages_suffix (push_covers turn hruns₂).current_suffix))
  · exact ⟨_, rfl⟩

/-- The chunks of a conversation cover its turns. -/
theorem adaptiveChunkMessages_covers {messages : List ChatMessage} {chunks : List MessageChunk}
    (h : adaptiveChunkMessages C options messages = .ok chunks) :
    ∃ runs, Follow [] runs ∧ List.Forall₂ (ChunkRun.Makes C.toTokenizer) runs chunks ∧
      runs.flatMap ChunkRun.core = buildTurns C.toTokenizer messages options.chunkMaxTokens := by
  unfold adaptiveChunkMessages at h
  rw [bind_ok] at h
  obtain ⟨w, hfold, hlast⟩ := h
  obtain ⟨runs, hruns⟩ : ∃ runs, w.Covers C.toTokenizer
      (buildTurns C.toTokenizer messages options.chunkMaxTokens) runs := by
    refine foldlM_ok (I := fun done w => ∃ runs, w.Covers C.toTokenizer done runs) hfold
      ⟨[], trivial, .nil, le_rfl, List.suffix_rfl, rfl⟩ ?_
    rintro done turn _ w₁ w₂ _ ⟨runs, hruns⟩ hstep
    exact step_covers hruns hstep
  exact last_covers hruns hlast

/-- Chunking succeeds where messages of one source index have one role. -/
theorem adaptiveChunkMessages_ok (C : Chunker) (options : ChunkOptions) {messages : List ChatMessage}
    (hagree : Agree (ensureSourceIndices messages)) :
    ∃ chunks, adaptiveChunkMessages C options messages = .ok chunks := by
  have hturns := buildTurns_agree (T := C.toTokenizer) hagree options.chunkMaxTokens
  obtain ⟨w, hfold, runs, hruns⟩ := foldlM_total (f := fun (w : Window) turn => w.step C options turn)
    (I := fun done w => ∃ runs, w.Covers C.toTokenizer done runs) (s := ⟨[], [], 0⟩)
    (buildTurns C.toTokenizer messages options.chunkMaxTokens) ⟨[], trivial, .nil, le_rfl, List.suffix_rfl, rfl⟩ (by
      rintro done turn rest w hsplit ⟨runs, hruns⟩
      have hprefix : Agree (turnMessages (done ++ [turn])) := by
        refine hturns.mono (turnMessages_subset ?_)
        rw [hsplit, List.append_cons done turn rest]
        exact List.subset_append_left _ _
      obtain ⟨w', hw'⟩ := step_ok options hruns hprefix
      exact ⟨w', hw', step_covers hruns hw'⟩)
  simp only [adaptiveChunkMessages, bind, Except.bind, hfold]
  split
  · obtain ⟨chunk, hchunk⟩ := chunkFromTurns_ok (T := C.toTokenizer)
      (hturns.mono (turnMessages_suffix hruns.current_suffix)) w.leadingOverlap 0 none none
    rw [hchunk]
    exact ⟨_, rfl⟩
  · exact ⟨_, rfl⟩

/-- The turns of every run are turns of the conversation. -/
theorem follow_subset {runs : List ChunkRun} (h : Follow done runs) {r : ChunkRun} (hr : r ∈ runs) :
    r.turns ⊆ done ++ runs.flatMap ChunkRun.core := by
  induction runs generalizing done with
  | nil => cases hr
  | cons s runs ih =>
      obtain ⟨hoverlap, _, hrest⟩ := h
      rw [List.flatMap_cons, ← List.append_assoc]
      rcases List.mem_cons.mp hr with rfl | hr
      · refine List.Subset.trans ?_ (List.subset_append_left _ _)
        exact List.append_subset.mpr ⟨List.Subset.trans hoverlap.subset (List.subset_append_left _ _),
          List.subset_append_right _ _⟩
      · exact ih hrest hr

/-- What a chunk says is what the pieces of its run say. -/
theorem makes_content {T : Tokenizer} {r : ChunkRun} {chunk : MessageChunk} (h : r.Makes T chunk) :
    chunk.overlapTurns = r.overlap.length ∧
      ∀ i, contentOf i chunk.messages = contentOf i (turnMessages r.turns) := by
  rw [ChunkRun.Makes, chunkFromTurns] at h
  simp only [bind_ok, pure_ok] at h
  obtain ⟨merged, hmerged, rfl⟩ := h
  exact ⟨rfl, (mergeMessages_content hmerged).2⟩

/-- The chunks of a conversation, the turns that are new in each, and the pieces of every message. -/
theorem chunks_cover_turns (C : Chunker) (options : ChunkOptions) (messages : List ChatMessage)
    (hagree : Agree (ensureSourceIndices messages)) :
    ∃ chunks runs, adaptiveChunkMessages C options messages = .ok chunks ∧ Follow [] runs ∧
      runs.flatMap ChunkRun.core = buildTurns C.toTokenizer messages options.chunkMaxTokens ∧
      List.Forall₂ (fun r chunk => r.Makes C.toTokenizer chunk ∧ chunk.overlapTurns = r.overlap.length ∧
        ∀ i, contentOf i chunk.messages = contentOf i (turnMessages r.turns)) runs chunks ∧
      ∀ i, (runs.flatMap fun r => contentOf i (turnMessages r.core)) =
        contentOf i (ensureSourceIndices messages) := by
  obtain ⟨chunks, hchunks⟩ := adaptiveChunkMessages_ok C options hagree
  obtain ⟨runs, hfollow, hmakes, hcores⟩ := adaptiveChunkMessages_covers hchunks
  refine ⟨chunks, runs, hchunks, hfollow, hcores, hmakes.imp fun _ _ h => ⟨h, makes_content h⟩, fun i => ?_⟩
  rw [← buildTurns_content (T := C.toTokenizer) messages options.chunkMaxTokens, ← hcores, turnMessages,
    List.flatMap_assoc, contentOf_flatMap]
  rfl

end

/-! ## Two roles at one source index -/

def plainChunker : Chunker where
  encode := none
  isDecimal := Char.isDigit
  strongTurnBoundary _ _ _ := false

def defaultChunkOptions : ChunkOptions := ⟨5000, 6000, 1, 45⟩

def greeting : List ChatMessage := [⟨"user", ['h', 'i'], none, none, 0⟩, ⟨"assistant", ['y', 'o'], none, none, 0⟩]

theorem chunks_cover_greeting : ∃ chunks runs,
    adaptiveChunkMessages plainChunker defaultChunkOptions greeting = .ok chunks ∧ Follow [] runs ∧
      runs.flatMap ChunkRun.core = buildTurns plainChunker.toTokenizer greeting 6000 ∧
      List.Forall₂ (fun r chunk => r.Makes plainChunker.toTokenizer chunk ∧
        chunk.overlapTurns = r.overlap.length ∧
        ∀ i, contentOf i chunk.messages = contentOf i (turnMessages r.turns)) runs chunks ∧
      ∀ i, (runs.flatMap fun r => contentOf i (turnMessages r.core)) =
        contentOf i (ensureSourceIndices greeting) :=
  chunks_cover_turns plainChunker defaultChunkOptions greeting (agree_of_unset (by decide))

/-- A question and an answer that claim one source index. -/
def clash : List ChatMessage :=
  [⟨"user", ['h', 'i'], none, some 0, 0⟩, ⟨"assistant", ['y', 'o'], none, some 0, 0⟩]

theorem clash_not_chunked :
    ¬ ∀ (C : Chunker) (options : ChunkOptions) (messages : List ChatMessage),
      ∃ chunks runs, adaptiveChunkMessages C options messages = .ok chunks ∧ Follow [] runs ∧
        runs.flatMap ChunkRun.core = buildTurns C.toTokenizer messages options.chunkMaxTokens ∧
        List.Forall₂ (ChunkRun.Makes C.toTokenizer) runs chunks := by
  intro h
  obtain ⟨chunks, _, hchunks, _⟩ := h plainChunker defaultChunkOptions clash
  have herror : adaptiveChunkMessages plainChunker defaultChunkOptions clash =
      .error (.multipleRoles (some 0)) := by rfl
  rw [herror] at hchunks
  cases hchunks

end YiQiao
