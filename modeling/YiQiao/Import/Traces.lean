import YiQiao.Import.Process

/-!
# Traces of chunks

A chunk that no cancellation stops is settled, or it is split and its halves are processed after it. So the trace of
`process_chunk` is made of the traces of a tree.
-/

namespace YiQiao

open Lib

/-! ## Quiet traces -/

/-- The event stops nothing: no cancellation is seen. -/
def ImportEvent.Quiet : ImportEvent → Prop
  | ⟨.cancelled, answer⟩ => answer = false
  | ⟨.externallyCancelled, answer⟩ => answer = false
  | ⟨.sleep, answer⟩ => answer = true
  | ⟨.store _ _, answer⟩ => answer ≠ .cancelled
  | _ => True

def Quiet (trace : List ImportEvent) : Prop := ∀ e ∈ trace, ImportEvent.Quiet e

theorem Quiet.append {xs ys : List ImportEvent} : Quiet (xs ++ ys) ↔ Quiet xs ∧ Quiet ys := by
  simp [Quiet, or_imp, forall_and]

theorem Quiet.cons {e : ImportEvent} {rest : List ImportEvent} : Quiet (e :: rest) ↔ ImportEvent.Quiet e ∧ Quiet rest := by
  simp [Quiet]

section

variable {α β : Type} {ok : ImportEvent → Prop} {P : List ImportEvent → α → Prop} {request : ImportRequest}

theorem ensures_ask_bind {f : request.Answer → ImportProgram α}
    (hf : ∀ answer, ok ⟨request, answer⟩ → (f answer).Ensures ok fun rest a => P (⟨request, answer⟩ :: rest) a) :
    (ask request >>= f).Ensures ok P := Program.ensures_request_bind hf

theorem ensures_raise {error : RunError} : (raise error : ImportProgram α).Ensures ok P := Program.ensures_raise

theorem ensures_map {p : ImportProgram β} {f : β → α} (h : p.Ensures ok fun trace b => P trace (f b)) :
    (f <$> p).Ensures ok P := by
  refine Program.ensures_bind (p := p) (f := fun b => pure (f b)) h fun before b hb => Program.ensures_pure ?_
  rwa [List.append_nil]

/-- A check for a cancellation, where none is seen. -/
theorem ensures_unless {p q : ImportProgram α} (h : q.Ensures ImportEvent.Quiet fun rest a => P (⟨.cancelled, false⟩ :: rest) a) :
    (do if ← ask .cancelled then p else q).Ensures ImportEvent.Quiet P := by
  refine ensures_ask_bind fun answer hanswer => ?_
  cases (hanswer : answer = false)
  exact h

end

section

variable {I : Importer} {options : RunOptions} {hooks : GivenHooks} {existingKeys supersededKeys : List String}
  {conversation : Conversation}

/-! ## The tree of a chunk -/

variable (I options hooks existingKeys supersededKeys conversation)

/-- The trace of a chunk that is settled, or of one that is split and of its halves after it. -/
inductive Treated : SplitTree → Nat → Nat → Option ImportPayload → List ImportEvent → Prop where
  | leaf {chunk : MessageChunk} {chunkIndex chunkCount : Nat} {payload : Option ImportPayload} {own : List ImportEvent}
      {succeeded : Bool} (hown : (treatChunk I options hooks existingKeys supersededKeys conversation chunk chunkIndex
        chunkCount payload).Run own (.ended succeeded)) : Treated (.leaf chunk) chunkIndex chunkCount payload own
  | node {chunk : MessageChunk} {first second : SplitTree} {chunkIndex chunkCount : Nat}
      {payload : Option ImportPayload} {own told left right : List ImportEvent} {execution : ChunkAttempt} {error : String}
      (hown : (treatChunk I options hooks existingKeys supersededKeys conversation chunk chunkIndex chunkCount
        payload).Run own (.split execution [first.chunk, second.chunk] error))
      (htold : (updateHook hooks execution (.split 2 error)).Run told ())
      (hleft : Treated first 0 2 none left) (hright : Treated second 1 2 none right) :
      Treated (.node chunk first second) chunkIndex chunkCount payload
        (own ++ (told ++ ⟨.increment splitOne, ()⟩ :: ⟨.cancelled, false⟩ :: (left ++ ⟨.cancelled, false⟩ :: right)))

variable {I options hooks existingKeys supersededKeys conversation}

/-- What a split outcome of a chunk says. -/
def ChunkOutcome.Splits (I : Importer) (base : ChunkExecution) : ChunkOutcome → Prop
  | .ended _ => True
  | .split execution children _ => execution.toChunkExecution = base ∧ ∃ first second, children = [first, second] ∧
      splitMessageChunk I.toTokenizer base.chunk base.importKey = .ok [first, second]

def ClaimOutcome.Splits (I : Importer) (base : ChunkExecution) : ClaimOutcome → Prop
  | .settled outcome => outcome.Splits I base
  | .proceed .. => True

theorem skipChunk_ended {execution : ChunkAttempt} {reason : SkipReason} {ok : ImportEvent → Prop} :
    (skipChunk hooks execution reason).Ensures ok fun _ outcome => outcome = .ended true :=
  ensures_ask_bind fun _ _ => Program.ensures_bind (P := fun _ _ => True) (fun _ _ _ _ => trivial)
    fun _ _ _ => Program.ensures_pure rfl

theorem splitAgain_splits {execution : ChunkAttempt} {ok : ImportEvent → Prop} : (splitAgain I execution).Ensures ok
    fun _ outcome => outcome.Splits I execution.toChunkExecution := by
  rw [splitAgain]
  split
  · exact ensures_raise
  · rename_i first second hsplit
    exact Program.ensures_pure ⟨rfl, first, second, rfl, hsplit⟩
  · exact ensures_raise

theorem stayBusy_ended {execution : ChunkAttempt} {ok : ImportEvent → Prop} : (stayBusy hooks execution).Ensures ok
    fun _ outcome => outcome = .settled (.ended false) :=
  ensures_ask_bind fun _ _ => ensures_ask_bind fun _ _ =>
    Program.ensures_bind (P := fun _ _ => True) (fun _ _ _ _ => trivial) fun _ _ _ => Program.ensures_pure rfl

theorem claimLoop_splits {base : ChunkAttempt} {payload : ImportPayload} (left : Nat) :
    (claimLoop I options hooks base payload left).Ensures (fun _ => True)
      fun _ outcome => outcome.Splits I base.toChunkExecution := by
  induction left with
  | zero => exact Program.ensures_pure trivial
  | succ left ih =>
    have hskip : ∀ execution, (ClaimOutcome.settled <$> skipChunk hooks execution .duplicate).Ensures (fun _ => True)
        fun _ outcome => outcome.Splits I base.toChunkExecution := by
      intro execution
      refine ensures_map (skipChunk_ended.mono ?_)
      rintro _ _ rfl
      trivial
    rw [claimLoop]
    refine ensures_ask_bind fun answer _ => ?_
    split
    · exact Program.ensures_pure trivial
    · refine ensures_ask_bind fun answer _ => ?_
      cases answer with
      | succeeded => exact hskip _
      | duplicate => exact hskip _
      | resumeSucceeded => exact Program.ensures_pure trivial
      | claimed reconcileExisting => exact Program.ensures_pure trivial
      | other text => exact ensures_raise
      | split => exact splitAgain_splits
      | busy =>
        dsimp only
        split
        · refine stayBusy_ended.mono ?_
          rintro _ _ rfl
          trivial
        · refine ensures_ask_bind fun _ _ => Program.ensures_bind (P := fun _ _ => True) (fun _ _ _ _ => trivial) ?_
          intro _ _ _
          refine ensures_ask_bind fun _ _ => ?_
          split
          · exact ih
          · exact Program.ensures_pure trivial

theorem claimOrCheck_splits {base : ChunkAttempt} {payload : ImportPayload} :
    (claimOrCheck I options hooks base payload).Ensures (fun _ => True)
      fun _ outcome => outcome.Splits I base.toChunkExecution := by
  rw [claimOrCheck]
  split
  · exact claimLoop_splits _
  · split
    · refine ensures_ask_bind fun answer _ => ?_
      cases answer with
      | error message => exact ensures_ask_bind fun _ _ => Program.ensures_pure trivial
      | ok duplicate =>
        cases duplicate with
        | false => exact Program.ensures_pure trivial
        | true => exact ensures_ask_bind fun _ _ => Program.ensures_pure trivial
    · exact Program.ensures_pure trivial

theorem giveUp_ended {base : ChunkAttempt} {claimed : Bool} {last : Option (StorageFailure × ChunkAttempt)}
    {ok : ImportEvent → Prop} : (giveUp hooks base claimed last).Ensures ok fun _ outcome => outcome = .ended false := by
  refine ensures_ask_bind fun answer _ => ?_
  split
  · exact Program.ensures_bind (P := fun _ _ => True) (fun _ _ _ _ => trivial) fun _ _ _ => Program.ensures_pure rfl
  · refine ensures_ask_bind fun _ _ => ?_
    cases last with
    | none => exact Program.ensures_pure rfl
    | some last =>
      refine ensures_ask_bind fun _ _ => ?_
      exact Program.ensures_bind (P := fun _ _ => True) (fun _ _ _ _ => trivial) fun _ _ _ => Program.ensures_pure rfl

theorem attemptLoop_splits {base : ChunkAttempt} {payload : ImportPayload} {claimed : Bool} (left : Nat)
    (last : Option (StorageFailure × ChunkAttempt)) :
    (attemptLoop I options hooks base payload claimed left last).Ensures (fun _ => True)
      fun _ outcome => outcome.Splits I base.toChunkExecution := by
  have hgiveUp : ∀ last, (giveUp hooks base claimed last).Ensures (fun _ => True)
      fun _ outcome => outcome.Splits I base.toChunkExecution := by
    intro last
    refine giveUp_ended.mono ?_
    rintro _ _ rfl
    trivial
  have hend : ∀ (p : ImportProgram Unit) b, (do p; pure (.ended b) : ImportProgram ChunkOutcome).Ensures (fun _ => True)
      fun _ outcome => outcome.Splits I base.toChunkExecution := fun p b =>
    Program.ensures_bind (P := fun _ _ => True) (fun _ _ _ _ => trivial) fun _ _ _ => Program.ensures_pure trivial
  induction left generalizing last with
  | zero => exact hgiveUp last
  | succ left ih =>
    rw [attemptLoop]
    refine ensures_ask_bind fun answer _ => ?_
    split
    · exact hend _ _
    · refine Program.ensures_bind (P := fun _ _ => True) (fun _ _ _ _ => trivial) fun _ _ _ => ?_
      refine ensures_ask_bind fun answer _ => ?_
      cases answer with
      | leaseLost => exact ensures_raise
      | cancelled => exact hend _ _
      | stored response =>
        refine ensures_ask_bind fun answer _ => ?_
        split
        · exact Program.ensures_pure trivial
        · exact ensures_ask_bind fun _ _ => hend _ _
      | failed failure =>
        refine ensures_ask_bind fun answer _ => ?_
        split
        · exact Program.ensures_pure trivial
        · have hagain : (tryAgain options hooks base { base with attempt := options.maxAttempts - left } claimed failure
              (attemptLoop I options hooks base payload claimed left
                (some (failure, { base with attempt := options.maxAttempts - left })))).Ensures (fun _ => True)
              fun _ outcome => outcome.Splits I base.toChunkExecution := by
            rw [tryAgain]
            split
            · split
              · refine Program.ensures_bind (P := fun _ _ => True) (fun _ _ _ _ => trivial) fun _ _ _ => ?_
                refine ensures_ask_bind fun _ _ => ensures_ask_bind fun _ _ => ?_
                split
                · exact ih _
                · exact hend _ _
              · exact ih _
            · exact hgiveUp _
          rw [splitOr]
          split
          · split
            · exact ensures_raise
            · rename_i first second hsplit
              exact Program.ensures_pure ⟨rfl, first, second, rfl, hsplit⟩
            · exact hagain
          · exact hagain

theorem treatChunk_splits {chunk : MessageChunk} {chunkIndex chunkCount : Nat} {payload : Option ImportPayload} :
    (treatChunk I options hooks existingKeys supersededKeys conversation chunk chunkIndex chunkCount payload).Ensures
      (fun _ => True) fun _ outcome => outcome.Splits I
        (baseExecution conversation chunk chunkIndex chunkCount (payload.getD
          (buildPayload I options.toImportOptions conversation chunk chunkIndex chunkCount))).toChunkExecution := by
  refine ensures_ask_bind fun answer _ => ?_
  split
  · exact Program.ensures_pure trivial
  · dsimp only
    split
    · refine skipChunk_ended.mono ?_
      rintro _ _ rfl
      trivial
    · refine Program.ensures_bind claimOrCheck_splits fun before outcome houtcome => ?_
      cases outcome with
      | settled outcome => exact Program.ensures_pure houtcome
      | proceed reconcileExisting claimed => exact attemptLoop_splits _ _

/-! ## The requests of a chunk -/

/-- A request that a chunk makes for itself, before its children are processed. -/
def OwnRequest (own : ChunkExecution) (payload : ImportPayload) : ImportRequest → Prop
  | .nextGroup | .updateChunk _ (.split ..) => False
  | .claimChunk execution p | .store p execution => execution.toChunkExecution = own ∧ p = payload
  | .updateChunk execution _ => execution.toChunkExecution = own
  | .increment deltas => deltas.totalChunks = 0
  | .raise error => error ≠ .outOfFuel
  | _ => True

section

variable {own : ChunkExecution} {payload : ImportPayload} {execution : ChunkAttempt}

theorem ask_own {request : ImportRequest} (h : OwnRequest own payload request) :
    (ask request).Asks (OwnRequest own payload) := Program.asks_request h

theorem own_bind {α : Type} {request : ImportRequest} {f : request.Answer → ImportProgram α}
    (h : OwnRequest own payload request) (hf : ∀ answer, (f answer).Asks (OwnRequest own payload)) :
    (ask request >>= f).Asks (OwnRequest own payload) := (ask_own h).bind hf

theorem raise_own {α : Type} {error : RunError} (h : error ≠ .outOfFuel) :
    (raise error : ImportProgram α).Asks (OwnRequest own payload) := Program.asks_raise h

theorem updateHook_own {state : ChunkUpdate} (h : OwnRequest own payload (.updateChunk execution state)) :
    (updateHook hooks execution state).Asks (OwnRequest own payload) := by
  rw [updateHook]
  split
  · exact ask_own h
  · trivial

theorem own_update_bind {α : Type} {state : ChunkUpdate} {f : Unit → ImportProgram α}
    (h : OwnRequest own payload (.updateChunk execution state)) (hf : ∀ u, (f u).Asks (OwnRequest own payload)) :
    (updateHook hooks execution state >>= f).Asks (OwnRequest own payload) := (updateHook_own h).bind hf

theorem giveBack_own {claimed : Bool} (h : execution.toChunkExecution = own) :
    (giveBack hooks execution claimed).Asks (OwnRequest own payload) := by
  rw [giveBack]
  split
  · refine own_bind trivial fun _ => ?_
    split
    · trivial
    · exact ask_own h
  · trivial

theorem skipChunk_own {reason : SkipReason} (h : execution.toChunkExecution = own) :
    (skipChunk hooks execution reason).Asks (OwnRequest own payload) :=
  own_bind rfl fun _ => own_update_bind h fun _ => trivial

theorem splitAgain_own : (splitAgain I execution).Asks (OwnRequest own payload) := by
  rw [splitAgain]
  split
  · exact raise_own nofun
  · trivial
  · exact raise_own nofun

theorem stayBusy_own (h : execution.toChunkExecution = own) : (stayBusy hooks execution).Asks (OwnRequest own payload) :=
  own_bind rfl fun _ => own_bind trivial fun _ => own_update_bind h fun _ => trivial

theorem claimLoop_own (left : Nat) (h : execution.toChunkExecution = own) :
    (claimLoop I options hooks execution payload left).Asks (OwnRequest own payload) := by
  induction left with
  | zero => trivial
  | succ left ih =>
    rw [claimLoop]
    refine own_bind trivial fun _ => ?_
    split
    · trivial
    · refine own_bind ⟨h, rfl⟩ fun answer => ?_
      cases answer with
      | succeeded => exact Program.Asks.bind (skipChunk_own h) fun _ => Program.asks_pure _
      | duplicate => exact Program.Asks.bind (skipChunk_own h) fun _ => Program.asks_pure _
      | resumeSucceeded => trivial
      | claimed reconcileExisting => trivial
      | other text => exact raise_own nofun
      | split => exact splitAgain_own
      | busy =>
        dsimp only
        split
        · exact stayBusy_own h
        · refine own_bind rfl fun _ => own_update_bind h fun _ => own_bind trivial fun _ => ?_
          split
          · exact ih
          · trivial

theorem claimOrCheck_own (h : execution.toChunkExecution = own) :
    (claimOrCheck I options hooks execution payload).Asks (OwnRequest own payload) := by
  rw [claimOrCheck]
  split
  · exact claimLoop_own _ h
  · split
    · refine own_bind trivial fun answer => ?_
      cases answer with
      | error message => exact own_bind trivial fun _ => trivial
      | ok duplicate =>
        cases duplicate with
        | false => trivial
        | true => exact own_bind rfl fun _ => trivial
    · trivial

theorem giveUp_own {claimed : Bool} {last : Option (StorageFailure × ChunkAttempt)}
    (h : execution.toChunkExecution = own) (hlast : ∀ e ∈ last, e.2.toChunkExecution = own) :
    (giveUp hooks execution claimed last).Asks (OwnRequest own payload) := by
  refine own_bind trivial fun _ => ?_
  split
  · exact (giveBack_own h).bind fun _ => trivial
  · refine own_bind rfl fun _ => ?_
    cases last with
    | none => trivial
    | some last => exact own_bind trivial fun _ => own_update_bind (hlast last rfl) fun _ => trivial

theorem tryAgain_own {base : ChunkAttempt} {claimed : Bool} {failure : StorageFailure} {next : ImportProgram ChunkOutcome}
    (hbase : base.toChunkExecution = own) (h : execution.toChunkExecution = own)
    (hnext : next.Asks (OwnRequest own payload)) :
    (tryAgain options hooks base execution claimed failure next).Asks (OwnRequest own payload) := by
  rw [tryAgain]
  split
  · split
    · refine own_update_bind h fun _ => own_bind rfl fun _ => own_bind trivial fun _ => ?_
      split
      · exact hnext
      · exact (giveBack_own h).bind fun _ => trivial
    · exact hnext
  · refine giveUp_own hbase ?_
    rintro _ ⟨⟩
    exact h

theorem splitOr_own {failure : StorageFailure} {next : ImportProgram ChunkOutcome}
    (hnext : next.Asks (OwnRequest own payload)) :
    (splitOr I options execution failure next).Asks (OwnRequest own payload) := by
  rw [splitOr]
  split
  · split
    · exact raise_own nofun
    · trivial
    · exact hnext
  · exact hnext

theorem attemptLoop_own {claimed : Bool} (left : Nat) {last : Option (StorageFailure × ChunkAttempt)}
    (h : execution.toChunkExecution = own) (hlast : ∀ e ∈ last, e.2.toChunkExecution = own) :
    (attemptLoop I options hooks execution payload claimed left last).Asks (OwnRequest own payload) := by
  induction left generalizing last with
  | zero => exact giveUp_own h hlast
  | succ left ih =>
    rw [attemptLoop]
    refine own_bind trivial fun _ => ?_
    split
    · exact (giveBack_own h).bind fun _ => trivial
    · refine own_update_bind h fun _ => own_bind ⟨h, rfl⟩ fun answer => ?_
      cases answer with
      | leaseLost => exact raise_own nofun
      | cancelled => exact Program.Asks.bind (giveBack_own h) fun _ => Program.asks_pure _
      | stored response =>
        refine own_bind trivial fun _ => ?_
        split
        · trivial
        · exact own_bind rfl fun _ => own_update_bind h fun _ => trivial
      | failed failure =>
        refine own_bind trivial fun _ => ?_
        split
        · trivial
        · refine splitOr_own (tryAgain_own h h (ih ?_))
          rintro _ ⟨⟩
          exact h

/-- What is asked for a chunk before its children are processed is asked for the chunk and with its payload. -/
theorem treatChunk_own {chunk : MessageChunk} {chunkIndex chunkCount : Nat} {initialPayload : Option ImportPayload}
    (hpayload : payload = initialPayload.getD
      (buildPayload I options.toImportOptions conversation chunk chunkIndex chunkCount)) :
    (treatChunk I options hooks existingKeys supersededKeys conversation chunk chunkIndex chunkCount
      initialPayload).Asks (OwnRequest ⟨conversation, chunk, chunkIndex, chunkCount, payload.metadata.importKey⟩ payload) := by
  subst hpayload
  refine own_bind trivial fun _ => ?_
  split
  · trivial
  · dsimp only
    split
    · exact skipChunk_own rfl
    · refine Program.Asks.bind (claimOrCheck_own rfl) fun outcome => ?_
      cases outcome with
      | settled outcome => trivial
      | proceed reconcileExisting claimed => exact attemptLoop_own _ rfl (by simp)

end

/-- A chunk that nothing stops is settled or split, and so are its halves. -/
theorem processChunk_treated (fuel : Nat) (chunk : MessageChunk) (chunkIndex chunkCount : Nat)
    (payload : Option ImportPayload) :
    (processChunk I options hooks existingKeys supersededKeys conversation fuel chunk chunkIndex chunkCount
      payload).Ensures ImportEvent.Quiet fun trace _ => ∃ tree : SplitTree, tree.chunk = chunk ∧
        Treated I options hooks existingKeys supersededKeys conversation tree chunkIndex chunkCount payload trace := by
  induction fuel generalizing chunk chunkIndex chunkCount payload with
  | zero => exact ensures_raise
  | succ fuel ih =>
    intro trace succeeded hrun hquiet
    obtain ⟨own, after, outcome, rfl, hown, hrun⟩ := Program.run_bind.mp hrun
    have hsplits := treatChunk_splits own outcome hown fun _ _ => trivial
    cases outcome with
    | ended _ =>
      obtain ⟨rfl, -⟩ := Program.run_pure.mp hrun
      exact ⟨.leaf chunk, rfl, by simpa using .leaf hown⟩
    | split execution children error =>
      obtain ⟨-, first, second, rfl, -⟩ := hsplits
      obtain ⟨told, after, _, rfl, htold, hrun⟩ := Program.run_bind.mp hrun
      have hchildren : (do
          ask (.increment splitOne)
          eachChild (fun child childIndex => processChunk I options hooks existingKeys supersededKeys conversation fuel
            child childIndex 2 none) [first, second] 0 true : ImportProgram Bool).Ensures ImportEvent.Quiet
          fun after _ => ∃ (one two : SplitTree) (left right : List ImportEvent), one.chunk = first ∧ two.chunk = second ∧
            Treated I options hooks existingKeys supersededKeys conversation one 0 2 none left ∧
            Treated I options hooks existingKeys supersededKeys conversation two 1 2 none right ∧
            after = ⟨.increment splitOne, ()⟩ :: ⟨.cancelled, false⟩ :: (left ++ ⟨.cancelled, false⟩ :: right) := by
        refine ensures_ask_bind fun _ _ => ensures_unless ?_
        refine Program.ensures_bind (ih first 0 2 none) fun left _ hleft => ensures_unless ?_
        refine Program.ensures_bind (ih second 1 2 none) fun right _ hright => Program.ensures_pure ?_
        obtain ⟨one, hone, hleft⟩ := hleft
        obtain ⟨two, htwo, hright⟩ := hright
        exact ⟨one, two, left, right, hone, htwo, hleft, hright, by simp⟩
      have hafter : Quiet after := (Quiet.append.mp (Quiet.append.mp hquiet).2).2
      obtain ⟨one, two, left, right, rfl, rfl, hleft, hright, rfl⟩ := hchildren after succeeded hrun hafter
      exact ⟨.node chunk one two, rfl, .node hown htold hleft hright⟩

/-! ## The trace of a worker -/

/-- A chunk at its place. -/
structure Place where
  conversation : Conversation
  chunk : MessageChunk
  chunkIndex : Nat
  chunkCount : Nat

/-- The places of chunks from an index on. -/
def placesFrom (conversation : Conversation) (chunkCount chunkIndex : Nat) (chunks : List MessageChunk) : List Place :=
  (chunks.zipIdx chunkIndex).map fun c => ⟨conversation, c.1, c.2, chunkCount⟩

def groupPlaces (group : ConversationGroup) : List Place :=
  group.flatMap fun item => placesFrom item.1 item.2.length 0 item.2

/-- The event asks the queue for a group. -/
def takenGroup : ImportEvent → Option (Option ConversationGroup)
  | ⟨.nextGroup, answer⟩ => some answer
  | _ => none

theorem Treated.takes_none {tree : SplitTree} {chunkIndex chunkCount : Nat} {payload : Option ImportPayload}
    {trace : List ImportEvent}
    (h : Treated I options hooks existingKeys supersededKeys conversation tree chunkIndex chunkCount payload trace) :
    ∀ e ∈ trace, takenGroup e = none := by
  have hown : ∀ {own : ChunkExecution} {payload : ImportPayload} {e : ImportEvent}, OwnRequest own payload e.request →
      takenGroup e = none := by
    intro own payload e he
    obtain ⟨request, answer⟩ := e
    cases request with
    | nextGroup => cases he
    | _ => rfl
  have htold : ∀ {execution : ChunkAttempt} {error : String} {told : List ImportEvent},
      (updateHook hooks execution (.split 2 error)).Run told () → ∀ e ∈ told, takenGroup e = none := by
    intro execution error told hrun e he
    rw [updateHook] at hrun
    split at hrun
    · rw [Program.run_request.mp hrun, List.mem_singleton] at he
      rw [he]
      rfl
    · rw [(Program.run_pure.mp hrun).1] at he
      cases he
  induction h with
  | leaf hrun => exact fun e he => hown ((treatChunk_own rfl).run hrun e he)
  | node hrun hupdate _ _ ihleft ihright =>
    intro e he
    simp only [List.mem_append, List.mem_cons] at he
    rcases he with he | he | rfl | rfl | he | rfl | he
    · exact hown ((treatChunk_own rfl).run hrun e he)
    · exact htold hupdate e he
    · rfl
    · rfl
    · exact ihleft e he
    · rfl
    · exact ihright e he

variable {payloads : List (PayloadKey × ImportPayload)}

variable (I options hooks existingKeys supersededKeys payloads)

/-- The trace of a worker: checks for a cancellation, groups that are taken, and the traces of chunks. -/
inductive Woven : List (Place × SplitTree) → List ImportEvent → Prop where
  | nil : Woven [] []
  | checked {forest : List (Place × SplitTree)} {rest : List ImportEvent} (h : Woven forest rest) :
      Woven forest (⟨.cancelled, false⟩ :: rest)
  | took (answer : Option ConversationGroup) {forest : List (Place × SplitTree)} {rest : List ImportEvent}
      (h : Woven forest rest) : Woven forest (⟨.nextGroup, answer⟩ :: rest)
  | chunk {place : Place} {tree : SplitTree} {piece rest : List ImportEvent} {forest : List (Place × SplitTree)}
      (hchunk : tree.chunk = place.chunk)
      (htreated : Treated I options hooks existingKeys supersededKeys place.conversation tree place.chunkIndex
        place.chunkCount
        (payloads.lookup ⟨place.conversation.sourcePath, place.conversation.id, place.chunkIndex⟩) piece)
      (h : Woven forest rest) : Woven ((place, tree) :: forest) (piece ++ rest)

variable {I options hooks existingKeys supersededKeys payloads}

theorem Woven.append {forest forest' : List (Place × SplitTree)} {xs ys : List ImportEvent}
    (h : Woven I options hooks existingKeys supersededKeys payloads forest xs)
    (h' : Woven I options hooks existingKeys supersededKeys payloads forest' ys) :
    Woven I options hooks existingKeys supersededKeys payloads (forest ++ forest') (xs ++ ys) := by
  induction h with
  | nil => exact h'
  | checked _ ih => exact .checked ih
  | took answer _ ih => exact .took answer ih
  | chunk hchunk htreated _ ih =>
    rw [List.append_assoc]
    exact .chunk hchunk htreated ih

/-- A part of a worker's trace that takes no group, and the places that were treated in it. -/
def WovenAt (I : Importer) (options : RunOptions) (hooks : GivenHooks) (existingKeys supersededKeys : List String)
    (payloads : List (PayloadKey × ImportPayload)) (places : List Place) (trace : List ImportEvent) : Prop :=
  (∃ forest, Woven I options hooks existingKeys supersededKeys payloads forest trace ∧ forest.map Prod.fst = places) ∧
    ∀ e ∈ trace, takenGroup e = none

theorem WovenAt.append {places places' : List Place} {xs ys : List ImportEvent}
    (h : WovenAt I options hooks existingKeys supersededKeys payloads places xs)
    (h' : WovenAt I options hooks existingKeys supersededKeys payloads places' ys) :
    WovenAt I options hooks existingKeys supersededKeys payloads (places ++ places') (xs ++ ys) := by
  obtain ⟨⟨forest, hforest, rfl⟩, hnone⟩ := h
  obtain ⟨⟨forest', hforest', rfl⟩, hnone'⟩ := h'
  refine ⟨⟨forest ++ forest', hforest.append hforest', List.map_append⟩, fun e he => ?_⟩
  rcases List.mem_append.mp he with he | he
  · exact hnone e he
  · exact hnone' e he

theorem processChunks_woven (chunkCount : Nat) (chunks : List MessageChunk) (chunkIndex : Nat) :
    (processChunks I options hooks existingKeys supersededKeys payloads conversation chunkCount chunks
      chunkIndex).Ensures ImportEvent.Quiet fun trace goesOn => goesOn = true ∧
        WovenAt I options hooks existingKeys supersededKeys payloads
          (placesFrom conversation chunkCount chunkIndex chunks) trace := by
  induction chunks generalizing chunkIndex with
  | nil => exact Program.ensures_pure ⟨rfl, ⟨[], .nil, rfl⟩, by simp⟩
  | cons chunk rest ih =>
    refine ensures_unless ?_
    refine Program.ensures_bind (processChunk_treated _ chunk chunkIndex chunkCount _) fun piece _ hpiece => ?_
    obtain ⟨tree, htree, htreated⟩ := hpiece
    refine (ih (chunkIndex + 1)).mono fun after goesOn hafter => ⟨hafter.1, ?_⟩
    have hone : WovenAt I options hooks existingKeys supersededKeys payloads
        [⟨conversation, chunk, chunkIndex, chunkCount⟩] (⟨.cancelled, false⟩ :: piece) := by
      refine ⟨⟨[(⟨conversation, chunk, chunkIndex, chunkCount⟩, tree)], ?_, rfl⟩, ?_⟩
      · rw [← List.append_nil piece]
        exact .checked (.chunk htree htreated .nil)
      · exact List.forall_mem_cons.mpr ⟨rfl, htreated.takes_none⟩
    exact hone.append hafter.2

theorem processGroup_woven (group : ConversationGroup) :
    (processGroup I options hooks existingKeys supersededKeys payloads group).Ensures ImportEvent.Quiet
      fun trace goesOn => goesOn = true ∧
        WovenAt I options hooks existingKeys supersededKeys payloads (groupPlaces group) trace := by
  induction group with
  | nil => exact Program.ensures_pure ⟨rfl, ⟨[], .nil, rfl⟩, by simp⟩
  | cons item rest ih =>
    refine Program.ensures_bind (processChunks_woven item.2.length item.2 0) fun before goesOn hbefore => ?_
    obtain ⟨rfl, hbefore⟩ := hbefore
    exact ih.mono fun after _ hafter => ⟨hafter.1, hbefore.append hafter.2⟩

/-- What a worker does until the queue is empty. -/
theorem worker_woven (fuel : Nat) :
    (worker I options hooks existingKeys supersededKeys payloads fuel).Ensures ImportEvent.Quiet fun trace _ =>
      (∃ forest, Woven I options hooks existingKeys supersededKeys payloads forest trace ∧
        forest.map Prod.fst = (Lib.taken takenGroup trace).flatMap groupPlaces) ∧
      ∃ e ∈ trace, takenGroup e = some none := by
  induction fuel with
  | zero => exact ensures_raise
  | succ fuel ih =>
    refine ensures_unless (ensures_ask_bind fun answer _ => ?_)
    cases answer with
    | none =>
      refine Program.ensures_pure ⟨⟨[], .checked (.took none .nil), rfl⟩, ⟨.nextGroup, none⟩, by simp, rfl⟩
    | some group =>
      refine Program.ensures_bind (processGroup_woven group) fun before goesOn hbefore => ?_
      obtain ⟨rfl, ⟨forest, hforest, hplaces⟩, hnone⟩ := hbefore
      refine ih.mono fun after _ hafter => ?_
      obtain ⟨⟨forest', hforest', hplaces'⟩, e, he, hlast⟩ := hafter
      refine ⟨⟨forest ++ forest', .checked (.took _ (hforest.append hforest')), ?_⟩, e, by simp [he], hlast⟩
      rw [List.map_append, hplaces, hplaces', taken_cons, taken_cons, taken_append, taken_nil_of hnone]
      exact List.flatMap_cons.symm

end

end YiQiao
