import YiQiao.Import.Progress
import YiQiao.Import.Traces

/-!
# What comes of a chunk

Whatever is answered, a chunk is processed to its end: it is halved at most as often as it weighs. What is asked on the
way is asked for the chunk and for halves of halves of it.
-/

namespace YiQiao

open Lib Lib.Fallible

/-- The chunk itself, or a half of what was halved before. -/
inductive HalvedFrom (T : Tokenizer) (root : MessageChunk) : MessageChunk → Prop where
  | root : HalvedFrom T root root
  | half {chunk first second half : MessageChunk} {key : String} (hchunk : HalvedFrom T root chunk)
      (hsplit : splitMessageChunk T chunk key = .ok [first, second]) (hhalf : half ∈ [first, second]) :
      HalvedFrom T root half

/-- The chunk says nothing but parts of what the root says, and weighs no more. -/
structure PieceOf (root chunk : MessageChunk) : Prop where
  formed : chunk.Formed
  weight_le : chunk.weight ≤ root.weight
  own : ∀ i, chunk.ownContent i <:+: root.ownContent i

section

variable {T : Tokenizer} {root chunk first second half : MessageChunk}

theorem Halves.each (halves : Halves chunk first second) (hhalf : half ∈ [first, second]) :
    half.Formed ∧ half.weight < chunk.weight ∧ ∀ i, half.ownContent i <:+: chunk.ownContent i := by
  rcases List.mem_pair.mp hhalf with rfl | rfl
  · exact ⟨halves.formed_first, halves.weight_first, fun i => halves.own i ▸ (List.prefix_append _ _).isInfix⟩
  · exact ⟨halves.formed_second, halves.weight_second, fun i => halves.own i ▸ (List.suffix_append _ _).isInfix⟩

/-- A half of a formed chunk. -/
theorem split_each (hformed : chunk.Formed) {key : String} (hsplit : splitMessageChunk T chunk key = .ok [first, second])
    (hhalf : half ∈ [first, second]) :
    half.Formed ∧ half.weight < chunk.weight ∧ ∀ i, half.ownContent i <:+: chunk.ownContent i := by
  obtain ⟨a, b, hab, halves⟩ := splitMessageChunk_halves hformed hsplit (List.cons_ne_nil _ _)
  cases hab
  exact halves.each hhalf

theorem HalvedFrom.pieceOf (h : HalvedFrom T root chunk) (hroot : root.Formed) : PieceOf root chunk := by
  induction h with
  | root => exact ⟨hroot, le_rfl, fun i => List.infix_rfl⟩
  | half _ hsplit hhalf ih =>
    obtain ⟨hformed, hweight, hown⟩ := split_each ih.formed hsplit hhalf
    exact ⟨hformed, hweight.le.trans ih.weight_le, fun i => (hown i).trans (ih.own i)⟩

end

/-! ## What is asked -/

/-- The chunk that a request is about. -/
def ImportRequest.chunk? : ImportRequest → Option MessageChunk
  | .claimChunk execution _ | .updateChunk execution _ | .store _ execution => some execution.chunk
  | _ => none

/-- The request does not give up for want of fuel, and is about no chunk but what the root was halved into. -/
def Descending (T : Tokenizer) (root : MessageChunk) (request : ImportRequest) : Prop :=
  request ≠ .raise .outOfFuel ∧ ∀ chunk ∈ request.chunk?, HalvedFrom T root chunk ∧ PieceOf root chunk

section

variable {I : Importer} {options : RunOptions} {hooks : GivenHooks} {existingKeys supersededKeys : List String}
  {conversation : Conversation} {root chunk : MessageChunk} {payload : ImportPayload}

theorem OwnRequest.descending {own : ChunkExecution} {request : ImportRequest} (h : OwnRequest own payload request)
    (hown : HalvedFrom I.toTokenizer root own.chunk ∧ PieceOf root own.chunk) : Descending I.toTokenizer root request := by
  cases request with
  | raise error => exact ⟨fun heq => h (ImportRequest.raise.inj heq), by simp [ImportRequest.chunk?]⟩
  | claimChunk execution payload => exact ⟨nofun, by simpa [ImportRequest.chunk?, ← h.1] using hown⟩
  | store payload execution => exact ⟨nofun, by simpa [ImportRequest.chunk?, ← h.1] using hown⟩
  | updateChunk execution state =>
    have hexecution : execution.toChunkExecution = own := by
      cases state with
      | split children error => exact h.elim
      | _ => exact h
    exact ⟨nofun, by simpa [ImportRequest.chunk?, ← hexecution] using hown⟩
  | _ => exact ⟨nofun, by simp [ImportRequest.chunk?]⟩

theorem eachChild_descending {process : MessageChunk → Nat → ImportProgram Bool} {children : List MessageChunk}
    (h : ∀ child ∈ children, ∀ i, (process child i).Asks (Descending I.toTokenizer root)) (childIndex : Nat)
    (succeeded : Bool) : (eachChild process children childIndex succeeded).Asks (Descending I.toTokenizer root) := by
  induction children generalizing childIndex succeeded with
  | nil => trivial
  | cons child rest ih =>
    obtain ⟨hchild, hrest⟩ := List.forall_mem_cons.mp h
    rw [eachChild]
    refine Program.Asks.bind (Program.asks_request ⟨nofun, by simp [ImportRequest.chunk?]⟩) fun answer => ?_
    split
    · trivial
    · exact (hchild childIndex).bind fun _ => ih hrest _ _

theorem processChunk_descending {fuel : Nat} (hchunk : HalvedFrom I.toTokenizer root chunk) (hroot : root.Formed)
    (hfuel : chunk.weight < fuel) (chunkIndex chunkCount : Nat) (initialPayload : Option ImportPayload) :
    (processChunk I options hooks existingKeys supersededKeys conversation fuel chunk chunkIndex chunkCount
      initialPayload).Asks (Descending I.toTokenizer root) := by
  induction fuel generalizing chunk chunkIndex chunkCount initialPayload with
  | zero => exact absurd hfuel (Nat.not_lt_zero _)
  | succ fuel ih =>
    refine Program.Asks.bind_run ((treatChunk_own rfl).mono fun request h =>
      h.descending ⟨hchunk, hchunk.pieceOf hroot⟩) fun trace outcome hrun => ?_
    have hsplits := treatChunk_splits trace outcome hrun fun _ _ => trivial
    cases outcome with
    | ended succeeded => trivial
    | split execution children error =>
      obtain ⟨hexecution, first, second, rfl, hsplit⟩ := hsplits
      have hupdate : (updateHook hooks execution (.split [first, second].length error)).Asks
          (Descending I.toTokenizer root) := by
        rw [updateHook]
        split
        · refine Program.asks_request ⟨by simp, ?_⟩
          simpa [ImportRequest.chunk?, hexecution, baseExecution] using And.intro hchunk (hchunk.pieceOf hroot)
        · trivial
      refine hupdate.bind fun _ => ?_
      refine Program.Asks.bind (Program.asks_request ⟨by simp, by simp [ImportRequest.chunk?]⟩) fun _ => ?_
      refine eachChild_descending (fun child hchild i => ?_) 0 true
      have hweight := (split_each (hchunk.pieceOf hroot).formed hsplit hchild).2.1
      exact ih (.half hchunk hsplit hchild) (hweight.trans_le (Nat.lt_succ_iff.mp hfuel)) i _ none

/-- Whatever is answered, `process_chunk` comes to its end, and asks only for parts of the chunk. -/
theorem process_chunk_descends (I : Importer) (options : RunOptions) (hooks : GivenHooks)
    (existingKeys supersededKeys : List String) (conversation : Conversation) (chunk : MessageChunk) (hformed : chunk.Formed)
    (chunkIndex chunkCount : Nat) (initialPayload : Option ImportPayload) :
    (processChunk I options hooks existingKeys supersededKeys conversation (chunk.weight + 1) chunk chunkIndex chunkCount
      initialPayload).Asks (Descending I.toTokenizer chunk) :=
  processChunk_descending .root hformed (Nat.lt_succ_self _) chunkIndex chunkCount initialPayload

end

def oneWorker : RunOptions := { plainOptions with workers := 1, maxAttempts := 1, workers_pos := Nat.one_pos, maxAttempts_pos := Nat.one_pos }


theorem process_chunk_descends_talk :
    (processChunk namedImporter oneWorker serverHooks [] [] (talk "Talk") (talkChunk.weight + 1) talkChunk 0 1 none).Asks
      (Descending namedImporter.toTokenizer talkChunk) :=
  process_chunk_descends namedImporter oneWorker serverHooks [] [] (talk "Talk") talkChunk
    ⟨by simp [Unrepeated, talkChunk, ensureSourceIndices, talk], by simp [talkChunk, ensureSourceIndices, talk]⟩ 0 1 none

end YiQiao
