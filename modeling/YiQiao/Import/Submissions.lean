import YiQiao.Import.Traces
import YiQiao.Import.Contents

/-!
# What a run hands over

The payload of a prepared chunk is looked up by source path, conversation id and index, and the payload of a half is
built for it. A run that nothing disturbs hands every chunk over with its own payload, or skips it because its key is
recorded as stored; so every message is handed over or was stored before, piece by piece.
-/

namespace YiQiao

open Lib Lib.Fallible

/-! ## Payloads -/

section

variable (I : Importer) (options : ImportOptions)

/-- Two conversations of one source path and id have no different payloads for chunks of one index. -/
def PayloadsAgree (prepared : List (Conversation × List MessageChunk)) : Prop :=
  ∀ a ∈ prepared, ∀ b ∈ prepared, a.1.source = b.1.source → ∀ k c d, a.2[k]? = some c → b.2[k]? = some d →
    buildPayload I options a.1 c k a.2.length = buildPayload I options b.1 d k b.2.length

variable {I options} {prepared : List (Conversation × List MessageChunk)}

variable (I options) in
/-- The payload of a prepared chunk is the one of some chunk of its source path, id and index. -/
theorem initialPayload_some {item : Conversation × List MessageChunk} (hitem : item ∈ prepared) {k : Nat}
    {chunk : MessageChunk} (hchunk : item.2[k]? = some chunk) :
    ∃ other ∈ prepared, other.1.source = item.1.source ∧ ∃ c, other.2[k]? = some c ∧
      initialPayload I options prepared item.1 k = some (buildPayload I options other.1 c k other.2.length) := by
  have hkey : (⟨item.1.sourcePath, item.1.id, k⟩ : PayloadKey) ∈ (preparedEntries I options prepared).map Prod.fst := by
    refine List.mem_map.mpr ⟨_, List.mem_flatMap.mpr ⟨item, hitem, List.mem_map.mpr ⟨(chunk, k), ?_, rfl⟩⟩, rfl⟩
    exact List.mem_zipIdx_iff_getElem?.mpr hchunk
  obtain ⟨payload, hpayload, hlookup⟩ := Dict.lookup_update_mem [] hkey
  obtain ⟨other, hother, hentry⟩ := List.mem_flatMap.mp hpayload
  obtain ⟨⟨c, k'⟩, hc, heq⟩ := List.mem_map.mp hentry
  simp only [Prod.mk.injEq, PayloadKey.mk.injEq] at heq
  obtain ⟨⟨hpath, hid, rfl⟩, rfl⟩ := heq
  refine ⟨other, hother, Prod.ext hpath hid, c, List.mem_zipIdx_iff_getElem?.mp hc, ?_⟩
  rw [initialPayload, preparedPayloads_eq, hlookup]

theorem PayloadsAgree.own (h : PayloadsAgree I options prepared) {item : Conversation × List MessageChunk}
    (hitem : item ∈ prepared) {k : Nat} {chunk : MessageChunk} (hchunk : item.2[k]? = some chunk) :
    initialPayload I options prepared item.1 k = some (buildPayload I options item.1 chunk k item.2.length) := by
  obtain ⟨other, hother, hsource, c, hc, hpayload⟩ := initialPayload_some I options hitem hchunk
  rw [hpayload, h other hother item hitem hsource k c chunk hc hchunk]

end

/-! ## A chunk that is settled -/

/-- The event counts no chunk as failed. -/
def ImportEvent.FailsNone : ImportEvent → Prop
  | ⟨.increment deltas, _⟩ => deltas.failedChunks = 0
  | _ => True

/-- Nothing stops the run, and no chunk fails. -/
def ImportEvent.Smooth (e : ImportEvent) : Prop := ImportEvent.Quiet e ∧ ImportEvent.FailsNone e

/-- The claim found that the key is stored. -/
def ClaimResult.isStored : ClaimResult → Bool
  | .succeeded | .duplicate | .resumeSucceeded => true
  | .claimed _ | .split | .busy | .other _ => false

/-- The payload was stored, or its key was found to be stored. -/
def SettledIn (existingKeys : List String) (payload : ImportPayload) (trace : List ImportEvent) : Prop :=
  payload.metadata.importKey ∈ existingKeys ∨
  (∃ execution response, (⟨.store payload execution, .stored response⟩ : ImportEvent) ∈ trace) ∨
  (∃ execution answer, answer.isStored = true ∧ (⟨.claimChunk execution payload, answer⟩ : ImportEvent) ∈ trace) ∨
  (⟨.isDuplicate payload.metadata.importKey, .ok true⟩ : ImportEvent) ∈ trace

theorem SettledIn.mono {existingKeys : List String} {payload : ImportPayload} {xs ys : List ImportEvent}
    (h : SettledIn existingKeys payload xs) (hsub : xs ⊆ ys) : SettledIn existingKeys payload ys := by
  rcases h with h | ⟨execution, response, h⟩ | ⟨execution, answer, hstored, h⟩ | h
  · exact .inl h
  · exact .inr (.inl ⟨execution, response, hsub h⟩)
  · exact .inr (.inr (.inl ⟨execution, answer, hstored, hsub h⟩))
  · exact .inr (.inr (.inr (hsub h)))

section

variable {I : Importer} {options : RunOptions} {hooks : GivenHooks} {existingKeys supersededKeys : List String}
  {conversation : Conversation} {payload : ImportPayload} {execution : ChunkAttempt}

/-- Where the chunk is not split, it is settled. -/
def ChunkOutcome.SettledOr (existingKeys : List String) (payload : ImportPayload) (trace : List ImportEvent) :
    ChunkOutcome → Prop
  | .ended _ => SettledIn existingKeys payload trace
  | .split .. => True

def ClaimOutcome.SettledOr (existingKeys : List String) (payload : ImportPayload) (trace : List ImportEvent) :
    ClaimOutcome → Prop
  | .settled outcome => outcome.SettledOr existingKeys payload trace
  | .proceed .. => True

theorem ChunkOutcome.SettledOr.mono {xs ys : List ImportEvent} {outcome : ChunkOutcome}
    (h : outcome.SettledOr existingKeys payload xs) (hsub : xs ⊆ ys) : outcome.SettledOr existingKeys payload ys := by
  cases outcome with
  | ended _ => exact SettledIn.mono h hsub
  | split _ _ _ => trivial

theorem ClaimOutcome.SettledOr.mono {xs ys : List ImportEvent} {outcome : ClaimOutcome}
    (h : outcome.SettledOr existingKeys payload xs) (hsub : xs ⊆ ys) : outcome.SettledOr existingKeys payload ys := by
  cases outcome with
  | settled outcome => exact ChunkOutcome.SettledOr.mono h hsub
  | proceed _ _ => trivial

/-- A request before a program changes nothing about what settles the chunk. -/
theorem settledOr_ask {request : ImportRequest} {f : request.Answer → ImportProgram ChunkOutcome}
    (hf : ∀ answer, ImportEvent.Smooth ⟨request, answer⟩ →
      (f answer).Ensures ImportEvent.Smooth fun trace outcome => outcome.SettledOr existingKeys payload trace) :
    (ask request >>= f).Ensures ImportEvent.Smooth fun trace outcome => outcome.SettledOr existingKeys payload trace :=
  ensures_ask_bind fun answer hanswer => (hf answer hanswer).mono fun _ _ h => h.mono (List.subset_cons_self _ _)

theorem settledOr_bind {α : Type} {p : ImportProgram α} {f : α → ImportProgram ChunkOutcome}
    (hf : ∀ a, (f a).Ensures ImportEvent.Smooth fun trace outcome => outcome.SettledOr existingKeys payload trace) :
    (p >>= f).Ensures ImportEvent.Smooth fun trace outcome => outcome.SettledOr existingKeys payload trace :=
  Program.ensures_bind (P := fun _ _ => True) (fun _ _ _ _ => trivial) fun _ a _ =>
    (hf a).mono fun _ _ h => h.mono (List.subset_append_right _ _)

/-- A chunk that is given up has failed. -/
theorem giveUp_settled {base : ChunkAttempt} {claimed : Bool} {last : Option (StorageFailure × ChunkAttempt)} :
    (giveUp hooks base claimed last).Ensures ImportEvent.Smooth
      fun trace outcome => outcome.SettledOr existingKeys payload trace := by
  refine ensures_ask_bind fun answer hanswer => ?_
  cases (hanswer.1 : answer = false)
  refine ensures_ask_bind fun _ hanswer => ?_
  have hfails : failedOne.failedChunks = 0 := hanswer.2
  cases hfails

theorem claimLoop_settled {left : Nat} :
    (claimLoop I options hooks execution payload left).Ensures ImportEvent.Smooth
      fun trace outcome => outcome.SettledOr existingKeys payload trace := by
  induction left with
  | zero => exact Program.ensures_pure trivial
  | succ left ih =>
    rw [claimLoop]
    refine ensures_ask_bind fun answer hanswer => ?_
    cases (hanswer.1 : answer = false)
    refine ensures_ask_bind fun answer _ => ?_
    have hstored : ∀ {execution' : ChunkAttempt} {answer : ClaimResult} {rest : List ImportEvent},
        answer.isStored = true → SettledIn existingKeys payload
          (⟨.cancelled, false⟩ :: ⟨.claimChunk execution' payload, answer⟩ :: rest) := by
      intro execution' answer rest hanswer
      exact .inr (.inr (.inl ⟨execution', answer, hanswer, by simp⟩))
    have hskip : ∀ {answer : ClaimResult} {execution' : ChunkAttempt}, answer.isStored = true →
        (ClaimOutcome.settled <$> skipChunk hooks execution' .duplicate).Ensures ImportEvent.Smooth
          fun rest outcome => outcome.SettledOr existingKeys payload
            (⟨.cancelled, false⟩ :: ⟨.claimChunk execution' payload, answer⟩ :: rest) := by
      intro answer execution' hanswer
      refine ensures_map (skipChunk_ended.mono ?_)
      rintro rest _ rfl
      exact hstored hanswer
    cases answer with
    | succeeded => exact hskip rfl
    | duplicate => exact hskip rfl
    | resumeSucceeded => exact Program.ensures_pure (hstored rfl)
    | claimed reconcileExisting => exact Program.ensures_pure trivial
    | other text => exact ensures_raise
    | split =>
      dsimp only
      rw [splitAgain]
      split
      · exact ensures_raise
      · exact Program.ensures_pure trivial
      · exact ensures_raise
    | busy =>
      dsimp only
      split
      · refine ensures_ask_bind fun _ hanswer => ?_
        have hfails : failedOne.failedChunks = 0 := hanswer.2
        cases hfails
      · refine ensures_ask_bind fun _ _ => Program.ensures_bind (P := fun _ _ => True) (fun _ _ _ _ => trivial) ?_
        intro before _ _
        refine ensures_ask_bind fun answer hanswer => ?_
        cases (hanswer.1 : answer = true)
        refine ih.mono fun rest _ h => h.mono fun e he => ?_
        simp [he]

theorem claimOrCheck_settled (hkey : execution.importKey = payload.metadata.importKey) :
    (claimOrCheck I options hooks execution payload).Ensures ImportEvent.Smooth
      fun trace outcome => outcome.SettledOr existingKeys payload trace := by
  rw [claimOrCheck]
  split
  · exact claimLoop_settled
  · split
    · refine ensures_ask_bind fun answer _ => ?_
      cases answer with
      | error message => exact ensures_ask_bind fun _ _ => Program.ensures_pure trivial
      | ok duplicate =>
        cases duplicate with
        | false => exact Program.ensures_pure trivial
        | true =>
          refine ensures_ask_bind fun _ _ => Program.ensures_pure (.inr (.inr (.inr ?_)))
          rw [hkey]
          exact List.mem_cons_self
    · exact Program.ensures_pure trivial

theorem attemptLoop_settled {claimed : Bool} {left : Nat} {last : Option (StorageFailure × ChunkAttempt)} :
    (attemptLoop I options hooks execution payload claimed left last).Ensures ImportEvent.Smooth
      fun trace outcome => outcome.SettledOr existingKeys payload trace := by
  induction left generalizing last with
  | zero => exact giveUp_settled
  | succ left ih =>
    rw [attemptLoop]
    refine settledOr_ask fun answer hanswer => ?_
    cases (hanswer.1 : answer = false)
    refine settledOr_bind fun _ => ?_
    refine ensures_ask_bind fun answer hanswer => ?_
    cases answer with
    | leaseLost => exact ensures_raise
    | cancelled => exact ((hanswer.1 : StorageResult.cancelled ≠ .cancelled) rfl).elim
    | stored response =>
      intro rest outcome _ _
      cases outcome with
      | ended _ => exact .inr (.inl ⟨_, response, List.mem_cons_self⟩)
      | split _ _ _ => trivial
    | failed failure =>
      have hagain : (tryAgain options hooks execution { execution with attempt := options.maxAttempts - left } claimed
          failure (attemptLoop I options hooks execution payload claimed left
            (some (failure, { execution with attempt := options.maxAttempts - left })))).Ensures ImportEvent.Smooth
          fun trace outcome => outcome.SettledOr existingKeys payload trace := by
        rw [tryAgain]
        split
        · split
          · refine settledOr_bind fun _ => settledOr_ask fun _ _ => settledOr_ask fun answer hanswer => ?_
            cases (hanswer.1 : answer = true)
            exact ih
          · exact ih
        · exact giveUp_settled
      refine Program.Ensures.mono (P := fun trace outcome => outcome.SettledOr existingKeys payload trace) ?_
        fun _ _ h => h.mono (List.subset_cons_self _ _)
      refine settledOr_ask fun answer hanswer => ?_
      cases (hanswer.1 : answer = false)
      rw [if_neg (by simp), splitOr]
      split
      · split
        · exact ensures_raise
        · exact Program.ensures_pure trivial
        · exact hagain
      · exact hagain

/-- A chunk that is not split is settled: its payload is stored, or its key was recorded as stored. -/
theorem treatChunk_settled {chunk : MessageChunk} {chunkIndex chunkCount : Nat} {initialPayload : Option ImportPayload}
    (hpayload : payload = initialPayload.getD
      (buildPayload I options.toImportOptions conversation chunk chunkIndex chunkCount)) :
    (treatChunk I options hooks existingKeys supersededKeys conversation chunk chunkIndex chunkCount
      initialPayload).Ensures ImportEvent.Smooth fun trace outcome => outcome.SettledOr existingKeys payload trace := by
  subst hpayload
  refine settledOr_ask fun answer hanswer => ?_
  cases (hanswer.1 : answer = false)
  dsimp only
  rw [if_neg (by simp)]
  split
  · rename_i hexisting
    refine skipChunk_ended.mono ?_
    rintro rest _ rfl
    exact .inl hexisting
  · refine Program.ensures_bind (P := fun trace (outcome : ClaimOutcome) => outcome.SettledOr existingKeys _ trace)
      (claimOrCheck_settled rfl) fun before outcome houtcome => ?_
    cases outcome with
    | settled outcome =>
      refine Program.ensures_pure ?_
      rw [List.append_nil]
      exact houtcome
    | proceed reconcileExisting claimed =>
      exact attemptLoop_settled.mono fun rest _ h => h.mono (List.subset_append_right _ _)

/-! ## The tree of a chunk -/

variable {tree : SplitTree} {chunkIndex chunkCount : Nat} {given : Option ImportPayload} {trace : List ImportEvent}

/-- The leaves say together what the chunk says of its own. -/
theorem Treated.own
    (h : Treated I options hooks existingKeys supersededKeys conversation tree chunkIndex chunkCount given trace)
    (hformed : tree.chunk.Formed) : (∀ leaf ∈ tree.leaves, leaf.Formed) ∧
      ∀ i, tree.chunk.ownContent i = tree.leaves.flatMap fun leaf => leaf.ownContent i := by
  induction h with
  | leaf hown => simpa [SplitTree.leaves, SplitTree.chunk] using hformed
  | node hown _ _ _ ihfirst ihsecond =>
    obtain ⟨-, first, second, hchildren, hsplit⟩ := treatChunk_splits _ _ hown fun _ _ => trivial
    obtain ⟨a, b, hab, halves⟩ := splitMessageChunk_halves hformed hsplit (List.cons_ne_nil _ _)
    cases hab
    cases hchildren
    obtain ⟨hformed₁, hown₁⟩ := ihfirst halves.formed_first
    obtain ⟨hformed₂, hown₂⟩ := ihsecond halves.formed_second
    refine ⟨List.forall_mem_append.mpr ⟨hformed₁, hformed₂⟩, fun i => ?_⟩
    rw [SplitTree.leaves, List.flatMap_append, ← hown₁, ← hown₂]
    exact halves.own i

/-- Every leaf is settled with its own payload. -/
theorem Treated.settled
    (h : Treated I options hooks existingKeys supersededKeys conversation tree chunkIndex chunkCount given trace)
    (hgiven : given.getD (buildPayload I options.toImportOptions conversation tree.chunk chunkIndex chunkCount) =
      buildPayload I options.toImportOptions conversation tree.chunk chunkIndex chunkCount)
    (hsmooth : ∀ e ∈ trace, ImportEvent.Smooth e) : ∀ leaf ∈ tree.leaves, ∃ k n,
      SettledIn existingKeys (buildPayload I options.toImportOptions conversation leaf k n) trace := by
  induction h with
  | leaf hown =>
    intro leaf hleaf
    cases List.mem_singleton.mp hleaf
    have hsettled : SettledIn existingKeys _ _ := treatChunk_settled rfl _ _ hown hsmooth
    simp only [SplitTree.chunk] at hgiven
    rw [hgiven] at hsettled
    exact ⟨_, _, hsettled⟩
  | node hown _ hleft hright ihfirst ihsecond =>
    intro leaf hleaf
    rcases List.mem_append.mp hleaf with hleaf | hleaf
    · obtain ⟨k, n, hsettled⟩ := ihfirst rfl (fun e he => hsmooth e (by simp [he])) leaf hleaf
      exact ⟨k, n, hsettled.mono fun e he => by simp [he]⟩
    · obtain ⟨k, n, hsettled⟩ := ihsecond rfl (fun e he => hsmooth e (by simp [he])) leaf hleaf
      exact ⟨k, n, hsettled.mono fun e he => by simp [he]⟩

/-- A request that hands a payload over hands over the one that is built of the chunk. -/
def HandsOwn (I : Importer) (options : ImportOptions) : ImportRequest → Prop
  | .store payload execution => payload =
      buildPayload I options execution.conversation execution.chunk execution.chunkIndex execution.chunkCount
  | _ => True

theorem OwnRequest.handsOwn {own : ChunkExecution} {request : ImportRequest} (h : OwnRequest own payload request)
    (hpayload : payload = buildPayload I options.toImportOptions own.conversation own.chunk own.chunkIndex own.chunkCount) :
    HandsOwn I options.toImportOptions request := by
  cases request with
  | store p execution =>
    obtain ⟨hexecution, rfl⟩ := h
    rw [HandsOwn, hpayload, hexecution]
  | _ => trivial

theorem Treated.handsOwn
    (h : Treated I options hooks existingKeys supersededKeys conversation tree chunkIndex chunkCount given trace)
    (hgiven : given.getD (buildPayload I options.toImportOptions conversation tree.chunk chunkIndex chunkCount) =
      buildPayload I options.toImportOptions conversation tree.chunk chunkIndex chunkCount) :
    ∀ e ∈ trace, HandsOwn I options.toImportOptions e.request := by
  have htold : ∀ {execution : ChunkAttempt} {error : String} {told : List ImportEvent},
      (updateHook hooks execution (.split 2 error)).Run told () → ∀ e ∈ told, HandsOwn I options.toImportOptions e.request := by
    intro execution error told hrun e he
    rw [updateHook] at hrun
    split at hrun
    · rw [Program.run_request.mp hrun, List.mem_singleton] at he
      rw [he]
      trivial
    · rw [(Program.run_pure.mp hrun).1] at he
      cases he
  induction h with
  | leaf hown => exact fun e he => ((treatChunk_own rfl).run hown e he).handsOwn hgiven
  | node hown hupdate _ _ ihleft ihright =>
    intro e he
    simp only [List.mem_append, List.mem_cons] at he
    rcases he with he | he | rfl | rfl | he | rfl | he
    · exact ((treatChunk_own rfl).run hown e he).handsOwn hgiven
    · exact htold hupdate e he
    · trivial
    · trivial
    · exact ihleft rfl e he
    · trivial
    · exact ihright rfl e he

/-! ## The trace of a worker -/

variable {payloads : List (PayloadKey × ImportPayload)} {forest : List (Place × SplitTree)}

/-- A tree of a worker's trace has its part of the trace. -/
theorem Woven.part (h : Woven I options hooks existingKeys supersededKeys payloads forest trace) {item : Place × SplitTree}
    (hitem : item ∈ forest) : ∃ piece, piece ⊆ trace ∧ item.2.chunk = item.1.chunk ∧
      Treated I options hooks existingKeys supersededKeys item.1.conversation item.2 item.1.chunkIndex item.1.chunkCount
        (payloads.lookup ⟨item.1.conversation.sourcePath, item.1.conversation.id, item.1.chunkIndex⟩) piece := by
  induction h with
  | nil => cases hitem
  | checked _ ih | took _ _ ih =>
    obtain ⟨piece, hsub, hpiece⟩ := ih hitem
    exact ⟨piece, List.Subset.trans hsub (List.subset_cons_self _ _), hpiece⟩
  | chunk hchunk htreated _ ih =>
    rcases List.mem_cons.mp hitem with rfl | hitem
    · exact ⟨_, List.subset_append_left _ _, hchunk, htreated⟩
    · obtain ⟨piece, hsub, hpiece⟩ := ih hitem
      exact ⟨piece, List.Subset.trans hsub (List.subset_append_right _ _), hpiece⟩

/-- What a worker hands over it hands over for one of its trees. -/
theorem Woven.handsOwn (h : Woven I options hooks existingKeys supersededKeys payloads forest trace)
    (hown : ∀ item ∈ forest, (payloads.lookup ⟨item.1.conversation.sourcePath, item.1.conversation.id,
      item.1.chunkIndex⟩).getD (buildPayload I options.toImportOptions item.1.conversation item.1.chunk item.1.chunkIndex
        item.1.chunkCount) = buildPayload I options.toImportOptions item.1.conversation item.1.chunk item.1.chunkIndex
        item.1.chunkCount) : ∀ e ∈ trace, HandsOwn I options.toImportOptions e.request := by
  induction h with
  | nil => simp
  | checked _ ih | took _ _ ih => exact List.forall_mem_cons.mpr ⟨trivial, ih hown⟩
  | chunk hchunk htreated _ ih =>
    refine List.forall_mem_append.mpr ⟨htreated.handsOwn ?_, ih fun item hitem => hown item (List.mem_cons_of_mem _ hitem)⟩
    rw [hchunk]
    exact hown _ List.mem_cons_self

end

/-! ## Runs -/

/-- A worker asks the queue for a group; nothing else changes the queue. -/
def fromQueue : (request : ImportRequest) → List ConversationGroup → request.Answer → List ConversationGroup → Prop
  | .nextGroup, queue, answer, queue' => answer = queue.head? ∧ queue' = queue.tail
  | _, queue, _, queue' => queue' = queue

/-- A run of `run_import_job` whose workers have all returned: what it works on, and the traces of its workers, who take
turns in any order. -/
structure ImportRun (I : Importer) (options : RunOptions) (hooks : GivenHooks) (conversations : List Conversation) extends
    ImportSetup I options hooks conversations where
  traces : List (List ImportEvent)
  workers : traces.length = options.workers
  returned : ∀ trace ∈ traces, toImportSetup.worker.Run trace ()
  left : List ConversationGroup
  turns : Interleaved fromQueue traces (conversationGroups prepared) left

section

variable {I : Importer} {options : RunOptions} {hooks : GivenHooks} {conversations : List Conversation}

/-- Nothing stopped the run, and it counted no chunk as failed. -/
def ImportRun.Smooth (run : ImportRun I options hooks conversations) : Prop :=
  ∀ trace ∈ run.traces, ∀ e ∈ trace, ImportEvent.Smooth e

/-- The payload was handed to the storage callback, which stored it. -/
def ImportRun.Stored (run : ImportRun I options hooks conversations) (payload : ImportPayload) : Prop :=
  ∃ trace ∈ run.traces, ∃ execution response, (⟨.store payload execution, .stored response⟩ : ImportEvent) ∈ trace

/-- The run went by a record that the key is stored: the keys that it loaded, the statuses of split chunks, or what a
claim or the check for duplicates answered. -/
def ImportRun.Recorded (run : ImportRun I options hooks conversations) (key : String) : Prop :=
  key ∈ run.loaded ∨ SupersededKey I options.toImportOptions run.statuses key ∨ ∃ trace ∈ run.traces,
    (∃ execution payload answer, payload.metadata.importKey = key ∧ answer.isStored = true ∧
      (⟨.claimChunk execution payload, answer⟩ : ImportEvent) ∈ trace) ∨
    (⟨.isDuplicate key, .ok true⟩ : ImportEvent) ∈ trace

/-- The chunk was stored with its own payload, or its key is recorded as stored. -/
def ImportRun.Kept (run : ImportRun I options hooks conversations) (conversation : Conversation) (chunk : MessageChunk) :
    Prop :=
  (∃ k n, run.Stored (buildPayload I options.toImportOptions conversation chunk k n)) ∨
    run.Recorded (messageChunkImportKey I options.toImportOptions conversation chunk)

/-- The message is made of pieces that stand in its messages of chunks of its conversation that were kept. -/
def ImportRun.Keeps (run : ImportRun I options hooks conversations) (conversation : Conversation) (m : ChatMessage) : Prop :=
  PiecedFrom (fun text => text = [] ∨ ∃ chunk i, m.sourceIndex = some i ∧ i ∈ chunk.coreSourceIndices ∧
    (∃ m' ∈ chunk.messages, m'.sourceIndex = some i ∧ m'.content = text) ∧ run.Kept conversation chunk) m.content

variable {run : ImportRun I options hooks conversations}

theorem fromQueue_takes : Takes fromQueue id takenGroup := by
  intro e queue queue' h
  obtain ⟨request, answer⟩ := e
  cases request with
  | nextGroup => exact h
  | _ => exact h

/-- The workers of a run that nothing stops take every group, and each once. -/
theorem ImportRun.groups_taken (hquiet : ∀ trace ∈ run.traces, Quiet trace) :
    (conversationGroups run.prepared).Perm (run.traces.flatMap (Lib.taken takenGroup)) := by
  have hne : run.traces ≠ [] := by
    intro hnil
    have hworkers := run.workers
    rw [hnil] at hworkers
    exact absurd hworkers.symm (Nat.ne_of_gt options.workers_pos)
  have hleft : run.left = [] := run.turns.taken_all fromQueue_takes
    (fun trace htrace => (worker_woven _ trace () (run.returned trace htrace) (hquiet trace htrace)).2) hne
  have htaken := run.turns.taken_perm fromQueue_takes
  simpa only [id, hleft, List.append_nil] using htaken

/-- In a run that nothing stops, every prepared chunk has its tree in the trace of a worker. -/
theorem ImportRun.treated (hquiet : ∀ trace ∈ run.traces, Quiet trace) {item : Conversation × List MessageChunk}
    (hitem : item ∈ run.prepared) {k : Nat} {chunk : MessageChunk} (hchunk : item.2[k]? = some chunk) :
    ∃ trace ∈ run.traces, ∃ piece, piece ⊆ trace ∧ ∃ tree : SplitTree, tree.chunk = chunk ∧
      Treated I options hooks run.existingKeys run.superseded
        item.1 tree k item.2.length (initialPayload I options.toImportOptions run.prepared item.1 k) piece := by
  obtain ⟨group, hgroup, hin⟩ := List.mem_flatten.mp ((conversationGroups_perm run.prepared).mem_iff.mpr hitem)
  obtain ⟨trace, htrace, hgroup⟩ := List.mem_flatMap.mp ((run.groups_taken hquiet).mem_iff.mp hgroup)
  obtain ⟨⟨forest, hforest, hplaces⟩, -⟩ := worker_woven _ trace () (run.returned trace htrace) (hquiet trace htrace)
  have hplace : (⟨item.1, chunk, k, item.2.length⟩ : Place) ∈ forest.map Prod.fst := by
    rw [hplaces]
    refine List.mem_flatMap.mpr ⟨group, hgroup, List.mem_flatMap.mpr ⟨item, hin, List.mem_map.mpr ⟨(chunk, k), ?_, rfl⟩⟩⟩
    exact List.mem_zipIdx_iff_getElem?.mpr hchunk
  obtain ⟨⟨place, tree⟩, hmem, rfl⟩ := List.mem_map.mp hplace
  obtain ⟨piece, hsub, htree, htreated⟩ := hforest.part hmem
  exact ⟨trace, htrace, piece, hsub, tree, htree, htreated⟩

theorem ImportRun.kept_of_settled {conversation : Conversation} {leaf : MessageChunk} {k n : Nat}
    {trace piece : List ImportEvent} (htrace : trace ∈ run.traces) (hsub : piece ⊆ trace)
    (h : SettledIn run.existingKeys
      (buildPayload I options.toImportOptions conversation leaf k n) piece) : run.Kept conversation leaf := by
  rcases h with h | ⟨execution, response, h⟩ | ⟨execution, answer, hstored, h⟩ | h
  · rcases List.mem_append.mp h with h | h
    · exact .inr (.inl h)
    · exact .inr (.inr (.inl (prepareChunks_superseded (initialChunks_formed run.initial_ok) run.prepared_ok _
        (List.mem_filter.mp h).1)))
  · exact .inl ⟨k, n, trace, htrace, execution, response, hsub h⟩
  · exact .inr (.inr (.inr ⟨trace, htrace, .inl ⟨execution, _, answer, rfl, hstored, hsub h⟩⟩))
  · exact .inr (.inr (.inr ⟨trace, htrace, .inr (hsub h)⟩))

/-- A run that nothing disturbs keeps every message. -/
theorem ImportRun.keeps (hsmooth : run.Smooth) (hagree : PayloadsAgree I options.toImportOptions run.prepared)
    {conversation : Conversation} (hconversation : conversation ∈ conversations) {m : ChatMessage}
    (hm : m ∈ ensureSourceIndices conversation.messages) : run.Keeps conversation m := by
  obtain ⟨i, hi⟩ : ∃ i, m.sourceIndex = some i := by
    obtain ⟨x, -, rfl⟩ := List.mem_map.mp hm
    exact ⟨_, rfl⟩
  refine (prepared_pieced run.initial_ok run.prepared_ok hconversation hm hi).bind ?_
  rintro _ ⟨item, hitem, rfl, chunk, hchunk, rfl⟩
  obtain ⟨k, hk, hget⟩ := List.getElem_of_mem hchunk
  have hchunk : item.2[k]? = some chunk := by rw [List.getElem?_eq_getElem hk, hget]
  obtain ⟨trace, htrace, piece, hsub, tree, rfl, htreated⟩ :=
    run.treated (fun trace htrace e he => (hsmooth trace htrace e he).1) hitem hchunk
  have hformed : tree.chunk.Formed := by
    obtain ⟨item', hitem', -, root, hroot, leaves, hexpand, hleaf⟩ :=
      prepareChunks_mem run.prepared_ok hitem (List.mem_of_getElem? hchunk)
    exact (expand_own (initialChunks_formed run.initial_ok item' hitem' root hroot) hexpand).1 _ hleaf
  have hgiven : (initialPayload I options.toImportOptions run.prepared item.1 k).getD
      (buildPayload I options.toImportOptions item.1 tree.chunk k item.2.length) =
      buildPayload I options.toImportOptions item.1 tree.chunk k item.2.length := by
    rw [hagree.own hitem hchunk, Option.getD_some]
  obtain ⟨hleaves, hown⟩ := htreated.own hformed
  rw [hown i, List.flatMap_def]
  refine PiecedFrom.flatten fun text htext => ?_
  obtain ⟨leaf, hleaf, rfl⟩ := List.mem_map.mp htext
  refine PiecedFrom.of_part ?_ List.infix_rfl
  by_cases hempty : leaf.ownContent i = []
  · exact .inl hempty
  · obtain ⟨hcore, m', hm', hindex, hcontent⟩ := ownContent_mem (hleaves leaf hleaf) hempty
    obtain ⟨k', n', hsettled⟩ := htreated.settled hgiven (fun e he => hsmooth trace htrace e (hsub he)) leaf hleaf
    exact .inr ⟨leaf, i, hi, hcore, ⟨m', hm', hindex, hcontent⟩, run.kept_of_settled htrace hsub hsettled⟩

/-- A run that nothing stops hands over no payload but that of the chunk. -/
theorem ImportRun.handsOwn (hquiet : ∀ trace ∈ run.traces, Quiet trace)
    (hagree : PayloadsAgree I options.toImportOptions run.prepared) :
    ∀ trace ∈ run.traces, ∀ e ∈ trace, HandsOwn I options.toImportOptions e.request := by
  intro trace htrace
  obtain ⟨⟨forest, hforest, hplaces⟩, -⟩ := worker_woven _ trace () (run.returned trace htrace) (hquiet trace htrace)
  refine hforest.handsOwn fun item hitem => ?_
  have hplace := List.mem_map_of_mem (f := Prod.fst) hitem
  rw [hplaces] at hplace
  obtain ⟨group, hgroup, hplace⟩ := List.mem_flatMap.mp hplace
  obtain ⟨prepared, hin, hplace⟩ := List.mem_flatMap.mp hplace
  obtain ⟨⟨chunk, k⟩, hchunk, hplace⟩ := List.mem_map.mp hplace
  have hgroups := (run.groups_taken hquiet).mem_iff.mpr (List.mem_flatMap.mpr ⟨trace, htrace, hgroup⟩)
  have hprepared := (conversationGroups_perm run.prepared).mem_iff.mp (List.mem_flatten.mpr ⟨group, hgroups, hin⟩)
  have hown := hagree.own hprepared (List.mem_zipIdx_iff_getElem?.mp hchunk)
  rw [initialPayload] at hown
  rw [← hplace]
  simp only [ImportSetup.payloads, hown, Option.getD_some]

end

end YiQiao
