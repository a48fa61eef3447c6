import YiQiao.Import.Progress
import YiQiao.Import.Traces

/-!
# How chunks end

With the hooks of the server, a chunk that nothing stops ends in one of two ways: it is counted, and its row is marked in
the end; or its claim finds that it has succeeded before. Until then, and where it is split, nothing is counted for it.
-/

namespace YiQiao

open Lib

/-- The increment changes none of the counters that the rows decide, but for the splits. -/
def JobCounters.Neutral (deltas : JobCounters) : Prop :=
  deltas.processedChunks = 0 ∧ deltas.importedChunks = 0 ∧ deltas.skippedChunks = 0 ∧ deltas.failedChunks = 0 ∧
    deltas.memoriesCreated = 0

/-- The event neither counts the chunk nor marks it in the end. -/
def ImportEvent.Unfinished : ImportEvent → Prop
  | ⟨.claimChunk _ _, answer⟩ => answer ≠ .resumeSucceeded
  | ⟨.updateChunk _ state, _⟩ => state.recomputes = false
  | ⟨.increment deltas, _⟩ => deltas.Neutral
  | _ => True

def Unfinished (trace : List ImportEvent) : Prop := ∀ e ∈ trace, ImportEvent.Unfinished e

/-- The error of a chunk is recorded. -/
def ImportEvent.Tells : ImportEvent → Prop
  | ⟨.addError .., _⟩ => True
  | _ => False

/-- The end of a chunk that is not split. -/
inductive Finishes : List ImportEvent → Prop where
  | resumed (execution : ChunkAttempt) (payload : ImportPayload) :
      Finishes [⟨.claimChunk execution payload, .resumeSucceeded⟩]
  | counted (deltas : JobCounters) (told : List ImportEvent) (htold : ∀ e ∈ told, ImportEvent.Tells e)
      (execution : ChunkAttempt) {state : ChunkUpdate} (hstate : state.recomputes = true) :
      Finishes (⟨.increment deltas, ()⟩ :: (told ++ [⟨.updateChunk execution state, ()⟩]))

/-- What a trace says by what became of the chunk. -/
def ChunkOutcome.Ends (trace : List ImportEvent) : ChunkOutcome → Prop
  | .ended _ => ∃ before final, trace = before ++ final ∧ Unfinished before ∧ Finishes final
  | .split .. => Unfinished trace

def ClaimOutcome.Ends (trace : List ImportEvent) : ClaimOutcome → Prop
  | .settled outcome => outcome.Ends trace
  | .proceed .. => Unfinished trace

theorem Unfinished.append {xs ys : List ImportEvent} (hxs : Unfinished xs) (hys : Unfinished ys) : Unfinished (xs ++ ys) :=
  List.forall_mem_append.mpr ⟨hxs, hys⟩

theorem unfinished_one {e : ImportEvent} (h : ImportEvent.Unfinished e) : Unfinished [e] := by
  simpa [Unfinished] using h

theorem ChunkOutcome.Ends.after {outcome : ChunkOutcome} {before trace : List ImportEvent} (hbefore : Unfinished before)
    (h : outcome.Ends trace) : outcome.Ends (before ++ trace) := by
  cases outcome with
  | split execution children error => exact hbefore.append h
  | ended succeeded =>
    obtain ⟨first, final, rfl, hfirst, hfinal⟩ := h
    exact ⟨before ++ first, final, (List.append_assoc _ _ _).symm, hbefore.append hfirst, hfinal⟩

theorem ClaimOutcome.Ends.after {outcome : ClaimOutcome} {before trace : List ImportEvent} (hbefore : Unfinished before)
    (h : outcome.Ends trace) : outcome.Ends (before ++ trace) := by
  cases outcome with
  | settled outcome => exact ChunkOutcome.Ends.after hbefore h
  | proceed reconcileExisting claimed => exact hbefore.append h

theorem ends_of_finishes {trace : List ImportEvent} (h : Finishes trace) (succeeded : Bool) :
    (ChunkOutcome.ended succeeded).Ends trace := ⟨[], trace, rfl, by simp [Unfinished], h⟩

theorem updateHook_server (execution : ChunkAttempt) (state : ChunkUpdate) :
    updateHook serverHooks execution state = ask (.updateChunk execution state) := if_pos rfl

section

variable {I : Importer} {options : RunOptions} {execution base : ChunkAttempt} {payload : ImportPayload}

/-- An event that counts nothing stands before what follows. -/
theorem ends_ask_bind {request : ImportRequest} {f : request.Answer → ImportProgram ChunkOutcome}
    (hf : ∀ answer, ImportEvent.Quiet ⟨request, answer⟩ → ImportEvent.Unfinished ⟨request, answer⟩ ∧
      (f answer).Ensures ImportEvent.Quiet fun trace outcome => outcome.Ends trace) :
    (ask request >>= f).Ensures ImportEvent.Quiet fun trace outcome => outcome.Ends trace :=
  ensures_ask_bind fun answer hanswer => (hf answer hanswer).2.mono fun _ _ h =>
    ChunkOutcome.Ends.after (unfinished_one (hf answer hanswer).1) h

theorem claimEnds_ask_bind {request : ImportRequest} {f : request.Answer → ImportProgram ClaimOutcome}
    (hf : ∀ answer, ImportEvent.Quiet ⟨request, answer⟩ → ImportEvent.Unfinished ⟨request, answer⟩ ∧
      (f answer).Ensures ImportEvent.Quiet fun trace outcome => outcome.Ends trace) :
    (ask request >>= f).Ensures ImportEvent.Quiet fun trace outcome => outcome.Ends trace :=
  ensures_ask_bind fun answer hanswer => (hf answer hanswer).2.mono fun _ _ h =>
    ClaimOutcome.Ends.after (unfinished_one (hf answer hanswer).1) h

theorem skipChunk_ends {reason : SkipReason} : (skipChunk serverHooks execution reason).Ensures ImportEvent.Quiet
    fun trace outcome => outcome.Ends trace := by
  rw [skipChunk]
  refine ensures_ask_bind fun _ _ => ?_
  rw [updateHook_server]
  exact ensures_ask_bind fun _ _ => Program.ensures_pure
    (ends_of_finishes (.counted skippedOne [] (by simp) execution rfl) true)

theorem splitAgain_ends : (splitAgain I execution).Ensures ImportEvent.Quiet fun trace outcome => outcome.Ends trace := by
  rw [splitAgain]
  split
  · exact ensures_raise
  · exact Program.ensures_pure (by simp [ClaimOutcome.Ends, ChunkOutcome.Ends, Unfinished])
  · exact ensures_raise

theorem stayBusy_ends : (stayBusy serverHooks execution).Ensures ImportEvent.Quiet fun trace outcome => outcome.Ends trace := by
  rw [stayBusy]
  refine ensures_ask_bind fun _ _ => ensures_ask_bind fun _ _ => ?_
  rw [updateHook_server]
  refine ensures_ask_bind fun _ _ => Program.ensures_pure (ends_of_finishes (.counted failedOne [_] ?_ execution rfl) false)
  simp [ImportEvent.Tells]

theorem claimLoop_ends (left : Nat) : (claimLoop I options serverHooks base payload left).Ensures ImportEvent.Quiet
    fun trace outcome => outcome.Ends trace := by
  induction left with
  | zero => exact Program.ensures_pure (by simp [ClaimOutcome.Ends, Unfinished])
  | succ left ih =>
    have hskip : ∀ execution, (ClaimOutcome.settled <$> skipChunk serverHooks execution .duplicate).Ensures ImportEvent.Quiet
        fun trace outcome => outcome.Ends trace := fun execution => ensures_map skipChunk_ends
    rw [claimLoop]
    refine claimEnds_ask_bind fun answer hanswer => ⟨trivial, ?_⟩
    cases (hanswer : answer = false)
    rw [if_neg (by simp)]
    refine ensures_ask_bind fun answer _ => ?_
    have hafter : answer ≠ .resumeSucceeded → ∀ (trace : List ImportEvent) (outcome : ClaimOutcome), outcome.Ends trace →
        outcome.Ends (⟨.claimChunk { base with attempt := options.maxAttempts - left } payload, answer⟩ :: trace) :=
      fun hne trace outcome h => ClaimOutcome.Ends.after (unfinished_one (show ImportEvent.Unfinished
        ⟨.claimChunk { base with attempt := options.maxAttempts - left } payload, answer⟩ from hne)) h
    cases answer with
    | succeeded => exact (hskip _).mono (hafter (by simp))
    | duplicate => exact (hskip _).mono (hafter (by simp))
    | resumeSucceeded => exact Program.ensures_pure (ends_of_finishes (.resumed _ payload) true)
    | claimed reconcileExisting => exact Program.ensures_pure (hafter (by simp) [] _ (by simp [ClaimOutcome.Ends, Unfinished]))
    | other text => exact ensures_raise
    | split => exact splitAgain_ends.mono (hafter (by simp))
    | busy =>
      dsimp only
      split
      · exact stayBusy_ends.mono (hafter (by simp))
      · refine Program.Ensures.mono ?_ (hafter (by simp))
        rw [updateHook_server]
        refine claimEnds_ask_bind fun _ _ => ⟨⟨rfl, rfl, rfl, rfl, rfl⟩, ?_⟩
        refine claimEnds_ask_bind fun _ _ => ⟨rfl, ?_⟩
        refine claimEnds_ask_bind fun answer hanswer => ⟨trivial, ?_⟩
        cases (hanswer : answer = true)
        exact ih

theorem claimOrCheck_ends : (claimOrCheck I options serverHooks base payload).Ensures ImportEvent.Quiet
    fun trace outcome => outcome.Ends trace := by
  rw [claimOrCheck]
  split
  · exact claimLoop_ends _
  · rw [if_neg (by simp [serverHooks])]
    exact Program.ensures_pure (by simp [ClaimOutcome.Ends, Unfinished])

theorem giveUp_ends {claimed : Bool} {failure : StorageFailure} :
    (giveUp serverHooks base claimed (some (failure, execution))).Ensures ImportEvent.Quiet
      fun trace outcome => outcome.Ends trace := by
  rw [giveUp]
  refine ends_ask_bind fun answer hanswer => ⟨trivial, ?_⟩
  cases (hanswer : answer = false)
  rw [if_neg (by simp)]
  refine ensures_ask_bind fun _ _ => ?_
  rw [updateHook_server]
  refine ensures_ask_bind fun _ _ => ensures_ask_bind fun _ _ => Program.ensures_pure
    (ends_of_finishes (.counted failedOne [_] ?_ execution rfl) false)
  simp [ImportEvent.Tells]

theorem tryAgain_ends {claimed : Bool} {failure : StorageFailure} {next : ImportProgram ChunkOutcome}
    (hnext : next.Ensures ImportEvent.Quiet fun trace outcome => outcome.Ends trace) :
    (tryAgain options serverHooks base execution claimed failure next).Ensures ImportEvent.Quiet
      fun trace outcome => outcome.Ends trace := by
  rw [tryAgain]
  split
  · split
    · rw [updateHook_server]
      refine ends_ask_bind fun _ _ => ⟨rfl, ?_⟩
      refine ends_ask_bind fun _ _ => ⟨⟨rfl, rfl, rfl, rfl, rfl⟩, ?_⟩
      refine ends_ask_bind fun answer hanswer => ⟨trivial, ?_⟩
      cases (hanswer : answer = true)
      exact hnext
    · exact hnext
  · exact giveUp_ends

theorem splitOr_ends {failure : StorageFailure} {next : ImportProgram ChunkOutcome}
    (hnext : next.Ensures ImportEvent.Quiet fun trace outcome => outcome.Ends trace) :
    (splitOr I options execution failure next).Ensures ImportEvent.Quiet fun trace outcome => outcome.Ends trace := by
  rw [splitOr]
  split
  · split
    · exact ensures_raise
    · exact Program.ensures_pure (by simp [ChunkOutcome.Ends, Unfinished])
    · exact hnext
  · exact hnext

theorem attemptLoop_ends {claimed : Bool} (left : Nat) {last : Option (StorageFailure × ChunkAttempt)}
    (hlast : left = 0 → last.isSome) :
    (attemptLoop I options serverHooks base payload claimed left last).Ensures ImportEvent.Quiet
      fun trace outcome => outcome.Ends trace := by
  induction left generalizing last with
  | zero =>
    obtain ⟨⟨failure, execution⟩, rfl⟩ := Option.isSome_iff_exists.mp (hlast rfl)
    exact giveUp_ends
  | succ left ih =>
    rw [attemptLoop]
    refine ends_ask_bind fun answer hanswer => ⟨trivial, ?_⟩
    cases (hanswer : answer = false)
    rw [if_neg (by simp), updateHook_server]
    refine ends_ask_bind fun _ _ => ⟨rfl, ?_⟩
    refine ends_ask_bind fun answer hquiet => ⟨trivial, ?_⟩
    cases answer with
    | leaseLost => exact ensures_raise
    | cancelled => exact absurd rfl hquiet
    | stored response =>
      refine ends_ask_bind fun answer hanswer => ⟨trivial, ?_⟩
      cases (hanswer : answer = false)
      rw [if_neg (by simp), updateHook_server]
      exact ensures_ask_bind fun _ _ => ensures_ask_bind fun _ _ => Program.ensures_pure
        (ends_of_finishes (.counted (importedOne response.memoryCount) [] (by simp) _ rfl) true)
    | failed failure =>
      refine ends_ask_bind fun answer hanswer => ⟨trivial, ?_⟩
      cases (hanswer : answer = false)
      rw [if_neg (by simp)]
      exact splitOr_ends (tryAgain_ends (ih fun _ => rfl))

variable {existingKeys supersededKeys : List String} {conversation : Conversation}

/-- A chunk that nothing stops is counted and marked, or resumed, in the end; or it is split without being counted. -/
theorem treatChunk_ends {chunk : MessageChunk} {chunkIndex chunkCount : Nat} {initialPayload : Option ImportPayload} :
    (treatChunk I options serverHooks existingKeys supersededKeys conversation chunk chunkIndex chunkCount
      initialPayload).Ensures ImportEvent.Quiet fun trace outcome => outcome.Ends trace := by
  rw [treatChunk]
  refine ends_ask_bind fun answer hanswer => ⟨trivial, ?_⟩
  cases (hanswer : answer = false)
  rw [if_neg (by simp)]
  dsimp only
  split
  · exact skipChunk_ends
  · refine Program.ensures_bind claimOrCheck_ends fun before outcome hbefore => ?_
    cases outcome with
    | settled outcome =>
      refine Program.ensures_pure ?_
      rwa [List.append_nil]
    | proceed reconcileExisting claimed =>
      exact (attemptLoop_ends _ fun h => absurd h (Nat.ne_of_gt options.maxAttempts_pos)).mono
        fun after outcome hafter => ChunkOutcome.Ends.after hbefore hafter

end

end YiQiao
