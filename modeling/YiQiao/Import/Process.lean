import YiQiao.Lib.Requests
import YiQiao.Import.Provenance

/-!
# Processing chunks

The workers of `run_import_job`. A worker takes groups of conversations from the queue and processes their chunks; what
it asks of the queue, the hooks, the storage callback, the job and the clock are its requests.
-/

namespace YiQiao

open Lib

/-- The options that a run reads besides those of its chunks, with what `__post_init__` makes of them. -/
structure RunOptions extends ImportOptions where
  workers : Nat
  maxAttempts : Nat
  workers_pos : 0 < workers
  maxAttempts_pos : 0 < maxAttempts

/-- The hooks and callbacks that are given. -/
structure GivenHooks where
  loadExistingKeys : Bool
  claimChunk : Bool
  updateChunk : Bool
  isDuplicate : Bool

/-- An attempt of a chunk, as a `ChunkExecution`. -/
structure ChunkAttempt extends ChunkExecution where
  attempt : Nat
  reconcileExisting : Bool

/-! ## Requests -/

inductive ClaimResult where
  | claimed (reconcileExisting : Bool)
  | succeeded
  | duplicate
  | resumeSucceeded
  | split
  | busy
  | other (text : String)
  deriving DecidableEq, Repr

/-- What `process_chunk` makes out in an exception of the storage callback. -/
structure StorageFailure where
  /-- `_safe_import_error_message`. -/
  message : String
  pressure : Bool
  structural : Bool
  capacity : Bool
  permanent : Bool
  timeout : Bool
  /-- The text names a truncated output or the output limit. -/
  truncated : Bool

structure StorageResponse where
  memoryIds : List String
  claimedMemoryHashes : List String
  /-- `_response_memory_count`. -/
  memoryCount : Nat

inductive StorageResult where
  | stored (response : StorageResponse)
  /-- `ImportLeaseLost`. -/
  | leaseLost
  /-- `ImportCancelled`, also out of `controller.acquire`. -/
  | cancelled
  | failed (failure : StorageFailure)

/-- An error as it is recorded. -/
structure ChunkFailure where
  message : String
  errorType : String
  retryable : Bool
  deriving DecidableEq, Repr

inductive SkipReason where
  | duplicate
  | supersededSplit
  deriving DecidableEq, Repr

/-- The states that `hooks.update_chunk` is called with, and their details. -/
inductive ChunkUpdate where
  | processing
  | retrying (failure : ChunkFailure)
  | succeeded (response : StorageResponse)
  | skipped (reason : SkipReason)
  | split (children : Nat) (error : String)
  | cancelled
  | busy (failure : ChunkFailure)
  | failed (failure : ChunkFailure)

/-- What ends a run: `ImportLeaseLost`, a `RuntimeError` or the `ValueError` of a chunk. -/
inductive RunError where
  | leaseLost
  | runtime (text : String)
  | chunk (error : ChunkError)
  | outOfFuel

/-- Conversations of one id. -/
abbrev ConversationGroup := List (Conversation × List MessageChunk)

inductive ImportRequest where
  /-- `work_queue.get_nowait`. -/
  | nextGroup
  | cancelled
  | externallyCancelled
  /-- `_interruptible_sleep`. -/
  | sleep
  | increment (deltas : JobCounters)
  | addError (source : String) (failure : ChunkFailure) (attempt : Option Nat) (importKey : String)
  | claimChunk (execution : ChunkAttempt) (payload : ImportPayload)
  | updateChunk (execution : ChunkAttempt) (update : ChunkUpdate)
  | isDuplicate (importKey : String)
  | store (payload : ImportPayload) (execution : ChunkAttempt)
  | raise (error : RunError)

abbrev ImportRequest.Answer : ImportRequest → Type
  | .nextGroup => Option ConversationGroup
  | .cancelled | .externallyCancelled | .sleep => Bool
  | .increment _ | .addError .. | .updateChunk .. => Unit
  | .claimChunk .. => ClaimResult
  | .isDuplicate _ => Except String Bool
  | .store .. => StorageResult
  | .raise _ => Empty

abbrev importInterface : Interface := ⟨ImportRequest, ImportRequest.Answer⟩

abbrev ImportProgram := Program importInterface

abbrev ImportEvent := importInterface.Event

def ask (request : ImportRequest) : ImportProgram request.Answer := Program.request (E := importInterface) request

def raise {α : Type} (error : RunError) : ImportProgram α :=
  Program.raise (E := importInterface) (.raise error) Empty.elim

def noCounters : JobCounters := ⟨0, 0, 0, 0, 0, 0, 0, 0, 0, 0⟩

def skippedOne : JobCounters := { noCounters with processedChunks := 1, skippedChunks := 1 }

def failedOne : JobCounters := { noCounters with processedChunks := 1, failedChunks := 1 }

def importedOne (memories : Nat) : JobCounters :=
  { noCounters with processedChunks := 1, importedChunks := 1, memoriesCreated := memories }

def retriedOne : JobCounters := { noCounters with retriedChunks := 1, retryCount := 1 }

def splitOne : JobCounters := { noCounters with totalChunks := 1, splitChunks := 1 }

/-! ## A chunk -/

/-- What becomes of a chunk before its children are processed. -/
inductive ChunkOutcome where
  /-- `process_chunk` returns. -/
  | ended (succeeded : Bool)
  | split (execution : ChunkAttempt) (children : List MessageChunk) (error : String)

inductive ClaimOutcome where
  | settled (outcome : ChunkOutcome)
  | proceed (reconcileExisting : Bool) (claimed : Bool)

section

variable (I : Importer) (options : RunOptions) (hooks : GivenHooks)

def updateHook (execution : ChunkAttempt) (state : ChunkUpdate) : ImportProgram Unit :=
  if hooks.updateChunk then ask (.updateChunk execution state) else pure ()

/-- A claim that was taken is given back, unless the run was stopped from outside. -/
def giveBack (execution : ChunkAttempt) (claimed : Bool) : ImportProgram Unit :=
  if claimed && hooks.updateChunk then do
    if ← ask .externallyCancelled then pure () else ask (.updateChunk execution .cancelled)
  else pure ()

def busyFailure : ChunkFailure :=
  ⟨"Chunk is currently claimed by another import worker.", "import_claim_busy", true⟩

def skipChunk (execution : ChunkAttempt) (reason : SkipReason) : ImportProgram ChunkOutcome := do
  ask (.increment skippedOne)
  updateHook hooks execution (.skipped reason)
  pure (.ended true)

/-- A chunk whose manifest says that it was split. -/
def splitAgain (execution : ChunkAttempt) : ImportProgram ClaimOutcome :=
  match splitMessageChunk I.toTokenizer execution.chunk execution.importKey with
  | .error e => raise (.chunk e)
  | .ok [first, second] =>
      pure (.settled (.split execution [first, second] "Persisted split manifest required child expansion."))
  | .ok _ => raise (.runtime "Persisted import split parent can no longer be expanded deterministically.")

/-- The last claim of a chunk found another worker at it. -/
def stayBusy (execution : ChunkAttempt) : ImportProgram ClaimOutcome := do
  ask (.increment failedOne)
  ask (.addError execution.conversation.sourcePath busyFailure (some execution.attempt) execution.importKey)
  updateHook hooks execution (.busy busyFailure)
  pure (.settled (.ended false))

/-- The loop over the claims of a chunk, with the number of claims that are left. -/
def claimLoop (base : ChunkAttempt) (payload : ImportPayload) : Nat → ImportProgram ClaimOutcome
  | 0 => pure (.proceed base.reconcileExisting false)
  | left + 1 => do
      let execution := { base with attempt := options.maxAttempts - left }
      if ← ask .cancelled then pure (.settled (.ended false))
      else match ← ask (.claimChunk execution payload) with
        | .succeeded | .duplicate => ClaimOutcome.settled <$> skipChunk hooks execution .duplicate
        | .resumeSucceeded => pure (.settled (.ended true))
        | .split => splitAgain I execution
        | .claimed reconcileExisting => pure (.proceed reconcileExisting true)
        | .other text => raise (.runtime ("Unsupported import manifest claim result: " ++ text))
        | .busy =>
            if left = 0 then stayBusy hooks execution
            else do
              ask (.increment retriedOne)
              updateHook hooks execution (.retrying busyFailure)
              if ← ask .sleep then claimLoop base payload left else pure (.settled (.ended false))

/-- What precedes the attempts: a claim, or the check for a duplicate where claims are not made. -/
def claimOrCheck (base : ChunkAttempt) (payload : ImportPayload) : ImportProgram ClaimOutcome :=
  if options.skipDuplicates && hooks.claimChunk then claimLoop I options hooks base payload options.maxAttempts
  else if options.skipDuplicates && hooks.isDuplicate && !hooks.loadExistingKeys then do
    match ← ask (.isDuplicate base.importKey) with
    | .ok true => do
        ask (.increment skippedOne)
        pure (.settled (.ended true))
    | .ok false => pure (.proceed base.reconcileExisting false)
    | .error message => do
        ask (.addError base.conversation.sourcePath ⟨message, "deduplication_error", true⟩ none base.importKey)
        pure (.proceed base.reconcileExisting false)
  else pure (.proceed base.reconcileExisting false)

def StorageFailure.permanentError (failure : StorageFailure) : Bool :=
  failure.permanent && !(failure.pressure || failure.structural)

def StorageFailure.retryable (failure : StorageFailure) : Bool := failure.capacity || !failure.permanentError

def StorageFailure.retryImmediately (failure : StorageFailure) : Bool := failure.retryable && !failure.capacity

/-- The chunk is split rather than tried again. -/
def StorageFailure.shouldSplit (failure : StorageFailure) (tokenCount attempt maxAttempts : Nat) : Bool :=
  failure.structural && (failure.truncated || maxAttempts ≤ attempt) ||
    failure.timeout && 2000 ≤ tokenCount && min 2 maxAttempts ≤ attempt

/-- The failure as it is recorded when the chunk is given up. -/
def StorageFailure.recorded (failure : StorageFailure) : ChunkFailure where
  message := failure.message
  errorType :=
    if failure.capacity then "storage_quota_exceeded"
    else if failure.pressure then "provider_pressure"
    else if !failure.retryable then "permanent_import_error"
    else "extraction_error"
  retryable := failure.retryable

/-- The failure as it is recorded when the chunk is tried again. -/
def StorageFailure.retried (failure : StorageFailure) : ChunkFailure where
  message := failure.message
  errorType := if failure.pressure then "provider_pressure" else "extraction_error"
  retryable := failure.retryable

/-- The chunk is given up. -/
def giveUp (base : ChunkAttempt) (claimed : Bool) (last : Option (StorageFailure × ChunkAttempt)) :
    ImportProgram ChunkOutcome := do
  if ← ask .cancelled then do
    giveBack hooks base claimed
    pure (.ended false)
  else do
    ask (.increment failedOne)
    match last with
    | none => pure (.ended false)
    | some (failure, execution) => do
        ask (.addError base.conversation.sourcePath failure.recorded (some execution.attempt) base.importKey)
        updateHook hooks execution (.failed failure.recorded)
        pure (.ended false)

/-- What follows a failure where the chunk is not split: the next attempt, or the end. -/
def tryAgain (base execution : ChunkAttempt) (claimed : Bool) (failure : StorageFailure)
    (next : ImportProgram ChunkOutcome) : ImportProgram ChunkOutcome :=
  if failure.retryImmediately then
    if execution.attempt < options.maxAttempts then do
      updateHook hooks execution (.retrying failure.retried)
      ask (.increment retriedOne)
      if ← ask .sleep then next
      else do
        giveBack hooks execution claimed
        pure (.ended false)
    else next
  else giveUp hooks base claimed (some (failure, execution))

/-- A chunk is split where that helps and its depth allows it. -/
def splitOr (execution : ChunkAttempt) (failure : StorageFailure) (next : ImportProgram ChunkOutcome) :
    ImportProgram ChunkOutcome :=
  if failure.shouldSplit execution.chunk.tokenCount execution.attempt options.maxAttempts ∧
      execution.chunk.splitDepth < options.maxSplitDepth then
    match splitMessageChunk I.toTokenizer execution.chunk execution.importKey with
    | .error e => raise (.chunk e)
    | .ok [first, second] => pure (.split execution [first, second] failure.message)
    | .ok _ => next
  else next

/-- The loop over the attempts to store a chunk, with the number of attempts that are left. -/
def attemptLoop (base : ChunkAttempt) (payload : ImportPayload) (claimed : Bool) :
    Nat → Option (StorageFailure × ChunkAttempt) → ImportProgram ChunkOutcome
  | 0, last => giveUp hooks base claimed last
  | left + 1, _ => do
      let execution := { base with attempt := options.maxAttempts - left }
      if ← ask .cancelled then do
        giveBack hooks base claimed
        pure (.ended false)
      else do
        updateHook hooks execution .processing
        match ← ask (.store payload execution) with
        | .leaseLost => raise .leaseLost
        | .cancelled => do
            giveBack hooks execution claimed
            pure (.ended false)
        | .stored response => do
            if ← ask .externallyCancelled then pure (.ended false)
            else do
              ask (.increment (importedOne response.memoryCount))
              updateHook hooks execution (.succeeded response)
              pure (.ended true)
        | .failed failure => do
            if ← ask .externallyCancelled then pure (.ended false)
            else splitOr I options execution failure (tryAgain options hooks base execution claimed failure
              (attemptLoop base payload claimed left (some (failure, execution))))

variable (existingKeys supersededKeys : List String)

/-- The first attempt of a chunk with a payload. -/
def baseExecution (conversation : Conversation) (chunk : MessageChunk) (chunkIndex chunkCount : Nat)
    (payload : ImportPayload) : ChunkAttempt :=
  ⟨⟨conversation, chunk, chunkIndex, chunkCount, payload.metadata.importKey⟩, 1, false⟩

/-- `process_chunk`, up to the processing of the children. -/
def treatChunk (conversation : Conversation) (chunk : MessageChunk) (chunkIndex chunkCount : Nat)
    (initialPayload : Option ImportPayload) : ImportProgram ChunkOutcome := do
  if ← ask .cancelled then pure (.ended false)
  else
    let payload := initialPayload.getD
      (buildPayload I options.toImportOptions conversation chunk chunkIndex chunkCount)
    let importKey := payload.metadata.importKey
    let base := baseExecution conversation chunk chunkIndex chunkCount payload
    if importKey ∈ existingKeys then
      skipChunk hooks base (if importKey ∈ supersededKeys then .supersededSplit else .duplicate)
    else match ← claimOrCheck I options hooks base payload with
      | .settled outcome => pure outcome
      | .proceed reconcileExisting claimed =>
          attemptLoop I options hooks { base with reconcileExisting } payload claimed options.maxAttempts none

/-- The loop of `process_split_children`. -/
def eachChild (process : MessageChunk → Nat → ImportProgram Bool) :
    List MessageChunk → Nat → Bool → ImportProgram Bool
  | [], _, succeeded => pure succeeded
  | child :: rest, childIndex, succeeded => do
      if ← ask .cancelled then pure false
      else do
        let childSucceeded ← process child childIndex
        eachChild process rest (childIndex + 1) (childSucceeded && succeeded)

/-- `process_chunk`. The fuel is what the chunk weighs. -/
def processChunk (conversation : Conversation) : Nat → MessageChunk → Nat → Nat → Option ImportPayload → ImportProgram Bool
  | 0, _, _, _, _ => raise .outOfFuel
  | fuel + 1, chunk, chunkIndex, chunkCount, initialPayload => do
      match ← treatChunk I options hooks existingKeys supersededKeys conversation chunk chunkIndex chunkCount
          initialPayload with
      | .ended succeeded => pure succeeded
      | .split execution children error => do
          updateHook hooks execution (.split children.length error)
          ask (.increment splitOne)
          eachChild (fun child childIndex => processChunk conversation fuel child childIndex children.length none)
            children 0 true

/-! ## Workers -/

variable (payloads : List (PayloadKey × ImportPayload))

/-- The loop over the chunks of a conversation, from one on; whether the worker goes on. -/
def processChunks (conversation : Conversation) (chunkCount : Nat) : List MessageChunk → Nat → ImportProgram Bool
  | [], _ => pure true
  | chunk :: rest, chunkIndex => do
      if ← ask .cancelled then pure false
      else do
        let _ ← processChunk I options hooks existingKeys supersededKeys conversation (chunk.weight + 1) chunk chunkIndex
          chunkCount (payloads.lookup ⟨conversation.sourcePath, conversation.id, chunkIndex⟩)
        processChunks conversation chunkCount rest (chunkIndex + 1)

def processGroup : ConversationGroup → ImportProgram Bool
  | [] => pure true
  | item :: rest => do
      if ← processChunks I options hooks existingKeys supersededKeys payloads item.1 item.2.length item.2 0 then
        processGroup rest
      else pure false

/-- `worker`, which takes at most so many groups. -/
def worker : Nat → ImportProgram Unit
  | 0 => raise .outOfFuel
  | fuel + 1 => do
      if ← ask .cancelled then pure ()
      else match ← ask .nextGroup with
        | none => pure ()
        | some group => do
            if ← processGroup I options hooks existingKeys supersededKeys payloads group then worker fuel
            else pure ()

end

/-- `conversation_groups`: the conversations by their ids, in the order in which the ids come. -/
def conversationGroups (prepared : List (Conversation × List MessageChunk)) : List ConversationGroup :=
  (prepared.foldl (fun (groups : List (String × ConversationGroup)) item =>
    Dict.set item.1.id (((groups.lookup item.1.id).getD []) ++ [item]) groups) []).map Prod.snd

theorem addToGroup_perm {κ α : Type} [DecidableEq κ] (k : κ) (x : α) (groups : List (κ × List α)) :
    ((Dict.set k (((groups.lookup k).getD []) ++ [x]) groups).flatMap Prod.snd).Perm (groups.flatMap Prod.snd ++ [x]) := by
  induction groups with
  | nil => simp [Dict.set]
  | cons e groups ih =>
    obtain ⟨k', xs⟩ := e
    by_cases h : k = k'
    · subst h
      simp only [Dict.set, List.lookup_cons, beq_self_eq_true, if_true, Option.getD_some, List.flatMap_cons]
      rw [List.append_assoc, List.append_assoc]
      exact (List.perm_append_comm).append_left _
    · have hother : (k == k') = false := by simpa using h
      have hlookup : ((k', xs) :: groups).lookup k = groups.lookup k := by
        rw [List.lookup_cons, hother]
      rw [hlookup, Dict.set, if_neg fun heq => h heq.symm, List.flatMap_cons, List.flatMap_cons, List.append_assoc]
      exact ih.append_left _

/-- Every prepared conversation is in one group. -/
theorem conversationGroups_perm (prepared : List (Conversation × List MessageChunk)) :
    (conversationGroups prepared).flatten.Perm prepared := by
  rw [conversationGroups, ← List.flatMap_def]
  induction prepared using List.reverseRecOn with
  | nil => rfl
  | append_singleton prepared item ih =>
    rw [List.foldl_append, List.foldl_cons, List.foldl_nil]
    exact (addToGroup_perm _ _ _).trans (ih.append_right _)

/-! ## Runs -/

/-- What `run_import_job` makes of the conversations before its workers start. -/
structure ImportSetup (I : Importer) (options : RunOptions) (hooks : GivenHooks) (conversations : List Conversation) where
  statuses : String → Option ChunkStatus
  initial : List (Conversation × List MessageChunk)
  initial_ok : initialChunks I options.toImportOptions conversations = .ok initial
  prepared : List (Conversation × List MessageChunk)
  superseded : List String
  prepared_ok : prepareChunks I options.toImportOptions statuses initial = .ok (prepared, superseded)
  /-- What `load_existing_keys` returns. -/
  loaded : List String
  loaded_none : (options.skipDuplicates && hooks.loadExistingKeys) = false → loaded = []

section

variable {I : Importer} {options : RunOptions} {hooks : GivenHooks} {conversations : List Conversation}
  (setup : ImportSetup I options hooks conversations)

def ImportSetup.payloads : List (PayloadKey × ImportPayload) :=
  preparedPayloads I options.toImportOptions setup.prepared

def ImportSetup.existingKeys : List String :=
  setup.loaded ++ setup.superseded.filter ((setup.payloads.map fun e => e.2.metadata.importKey).contains ·)

/-- Every worker takes groups until the queue is empty. -/
def ImportSetup.worker : ImportProgram Unit :=
  YiQiao.worker I options hooks setup.existingKeys setup.superseded setup.payloads
    ((conversationGroups setup.prepared).length + 1)

end

end YiQiao
