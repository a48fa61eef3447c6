import YiQiao.Import.Submissions

/-!
# Payloads that collide

Where two conversations of one source path and id have different payloads for one index, some run hands a chunk over
with the payload of another conversation: nothing was stored before, and every chunk is stored at once.
-/

namespace YiQiao

open Lib Lib.Fallible

/-! ## Statuses without superseded chunks -/

def ChunkStatus.demoted : ChunkStatus → ChunkStatus
  | .supersededSplit => .row .split
  | status => status

theorem ChunkStatus.demoted_isSplit (status : ChunkStatus) : status.demoted.isSplit = status.isSplit := by
  cases status <;> rfl

section

variable {I : Importer} {options : ImportOptions} {conversation : Conversation} {statuses : String → Option ChunkStatus}

theorem expand_demoted {fuel : Nat} {ancestors : List String} {superseded : Bool} {chunk : MessageChunk}
    {leaves : List MessageChunk × List String}
    (h : expand I options conversation statuses fuel ancestors superseded chunk = .ok leaves) :
    expand I options conversation (fun key => (statuses key).map ChunkStatus.demoted) fuel ancestors false chunk =
      .ok (leaves.1, []) := by
  induction fuel generalizing ancestors superseded chunk leaves with
  | zero => cases h
  | succ fuel ih =>
    have hsplit : ∀ status : Option ChunkStatus, (status.map ChunkStatus.demoted).any ChunkStatus.isSplit =
        status.any ChunkStatus.isSplit := by
      intro status
      cases status with
      | none => rfl
      | some status => exact status.demoted_isSplit
    have hnot : ∀ status : Option ChunkStatus, status.map ChunkStatus.demoted ≠ some .supersededSplit := by
      intro status
      cases status with
      | none => simp
      | some status => cases status <;> simp [ChunkStatus.demoted]
    rw [expand] at h ⊢
    simp only [hsplit, hnot, decide_false, Bool.or_false]
    split at h
    · rename_i hstatus
      rw [if_pos hstatus]
      split at h
      · cases h
      · rename_i hfresh
        rw [if_neg hfresh]
        split at h
        · cases h
        · rename_i first second hchildren
          simp only [bind_ok, pure_ok] at h
          obtain ⟨left, hleft, right, hright, rfl⟩ := h
          simp only [ih hleft, ih hright, bind, Except.bind, pure, Except.pure, List.append_nil]
        · cases h
    · rename_i hstatus
      rw [if_neg hstatus]
      cases h
      rfl

theorem expandPersistedSplitChunks_demoted {chunks : List MessageChunk} {leaves : List MessageChunk × List String}
    (h : expandPersistedSplitChunks I options conversation statuses chunks = .ok leaves) :
    expandPersistedSplitChunks I options conversation (fun key => (statuses key).map ChunkStatus.demoted) chunks =
      .ok (leaves.1, []) := by
  simp only [expandPersistedSplitChunks, bind_ok, pure_ok] at h ⊢
  obtain ⟨parts, hparts, rfl⟩ := h
  refine ⟨parts.map fun part => (part.1, []), mapM_ok.mpr ?_, ?_⟩
  · rw [List.forall₂_map_right_iff]
    exact (mapM_ok.mp hparts).imp fun _ _ h => expand_demoted h
  · simp [List.flatMap_map]

theorem prepareChunks_demoted {initial prepared : List (Conversation × List MessageChunk)} {superseded : List String}
    (h : prepareChunks I options statuses initial = .ok (prepared, superseded)) :
    prepareChunks I options (fun key => (statuses key).map ChunkStatus.demoted) initial = .ok (prepared, []) := by
  simp only [prepareChunks, bind_ok, pure_ok] at h ⊢
  obtain ⟨expanded, hexpanded, heq⟩ := h
  cases heq
  refine ⟨expanded.map fun e => (e.1, []), mapM_ok.mpr ?_, ?_⟩
  · rw [List.forall₂_map_right_iff]
    refine (mapM_ok.mp hexpanded).imp fun item e he => ?_
    simp only [bind_ok, pure_ok] at he ⊢
    obtain ⟨leaves, hleaves, rfl⟩ := he
    exact ⟨_, expandPersistedSplitChunks_demoted hleaves, rfl⟩
  · simp [List.flatMap_map, Function.comp_def]

end

/-! ## A run that stores everything -/

/-- Claims succeed, nothing is found to be stored, nothing is cancelled, and what is handed over is stored: only payloads
of the dictionary are handed over, each under its own place. -/
def ImportEvent.Accepts (payloads : List (PayloadKey × ImportPayload)) : ImportEvent → Prop
  | ⟨.store payload execution, answer⟩ => (∃ response, answer = .stored response) ∧ payloads.lookup
      ⟨execution.conversation.sourcePath, execution.conversation.id, execution.chunkIndex⟩ = some payload
  | ⟨.claimChunk _ _, answer⟩ => answer = .claimed false
  | ⟨.isDuplicate _, answer⟩ => answer = .ok false
  | ⟨.cancelled, answer⟩ => answer = false
  | ⟨.externallyCancelled, answer⟩ => answer = false
  | ⟨.increment deltas, _⟩ => deltas.failedChunks = 0
  | ⟨.nextGroup, _⟩ | ⟨.sleep, _⟩ => False
  | _ => True

section

variable {I : Importer} {options : RunOptions} {hooks : GivenHooks} {supersededKeys : List String}
  {conversation : Conversation} {payloads : List (PayloadKey × ImportPayload)} {payload : ImportPayload}

theorem may_ask_bind {α : Type} {ok : ImportEvent → Prop} {P : List ImportEvent → α → Prop} {request : ImportRequest}
    {f : request.Answer → ImportProgram α} (answer : request.Answer) (hok : ok ⟨request, answer⟩)
    (hf : (f answer).May ok fun rest a => P (⟨request, answer⟩ :: rest) a) : (ask request >>= f).May ok P :=
  Program.may_request_bind answer hok hf

theorem may_update_bind {α : Type} {P : List ImportEvent → α → Prop} {execution : ChunkAttempt} {state : ChunkUpdate}
    {f : Unit → ImportProgram α}
    (hf : ∀ before : List ImportEvent, (f ()).May (ImportEvent.Accepts payloads) fun rest a => P (before ++ rest) a) :
    (updateHook hooks execution state >>= f).May (ImportEvent.Accepts payloads) P := by
  rw [updateHook]
  split
  · exact may_ask_bind () trivial (hf [_])
  · exact hf []

theorem claimOrCheck_may {base : ChunkAttempt} : (claimOrCheck I options hooks base payload).May
    (ImportEvent.Accepts payloads) fun _ outcome => ∃ reconcileExisting claimed, outcome = .proceed reconcileExisting claimed := by
  rw [claimOrCheck]
  split
  · obtain ⟨left, hleft⟩ := Nat.exists_eq_succ_of_ne_zero (Nat.ne_of_gt options.maxAttempts_pos)
    rw [hleft, claimLoop]
    refine may_ask_bind false rfl ?_
    rw [if_neg (by simp)]
    exact may_ask_bind (.claimed false) rfl (Program.may_pure ⟨_, _, rfl⟩)
  · split
    · exact may_ask_bind (.ok false) rfl (Program.may_pure ⟨_, _, rfl⟩)
    · exact Program.may_pure ⟨_, _, rfl⟩

/-- The chunk is handed over with the payload. -/
def HandedOver (own : ChunkExecution) (payload : ImportPayload) (trace : List ImportEvent) : Prop :=
  ∃ execution response, execution.toChunkExecution = own ∧
    (⟨.store payload execution, .stored response⟩ : ImportEvent) ∈ trace

theorem attemptLoop_may {base : ChunkAttempt} {claimed : Bool} {left : Nat}
    (hpayload : payloads.lookup ⟨base.conversation.sourcePath, base.conversation.id, base.chunkIndex⟩ = some payload) :
    (attemptLoop I options hooks base payload claimed (left + 1) none).May (ImportEvent.Accepts payloads)
      fun trace outcome => outcome = .ended true ∧ HandedOver base.toChunkExecution payload trace := by
  rw [attemptLoop]
  refine may_ask_bind false rfl ?_
  rw [if_neg (by simp)]
  refine may_update_bind fun before => ?_
  refine may_ask_bind (.stored ⟨[], [], 0⟩) ⟨⟨_, rfl⟩, hpayload⟩ ?_
  refine may_ask_bind false rfl ?_
  rw [if_neg (by simp)]
  refine may_ask_bind () rfl (may_update_bind fun before' => Program.may_pure ⟨rfl, ?_⟩)
  exact ⟨{ base with attempt := options.maxAttempts - left }, _, rfl,
    List.mem_cons_of_mem _ (List.mem_append_right _ List.mem_cons_self)⟩

theorem processChunk_may {fuel : Nat} {chunk : MessageChunk} {chunkIndex chunkCount : Nat}
    (hpayload : payloads.lookup ⟨conversation.sourcePath, conversation.id, chunkIndex⟩ = some payload) :
    (processChunk I options hooks [] supersededKeys conversation (fuel + 1) chunk chunkIndex chunkCount
      (some payload)).May (ImportEvent.Accepts payloads) fun trace _ =>
        HandedOver ⟨conversation, chunk, chunkIndex, chunkCount, payload.metadata.importKey⟩ payload trace := by
  have htreat : (treatChunk I options hooks [] supersededKeys conversation chunk chunkIndex chunkCount
      (some payload)).May (ImportEvent.Accepts payloads) fun trace outcome => outcome = .ended true ∧
        HandedOver ⟨conversation, chunk, chunkIndex, chunkCount, payload.metadata.importKey⟩ payload trace := by
    refine may_ask_bind false rfl ?_
    dsimp only
    rw [if_neg (by simp), if_neg List.not_mem_nil]
    refine Program.may_bind claimOrCheck_may ?_
    rintro before _ ⟨reconcileExisting, claimed, rfl⟩
    obtain ⟨left, hleft⟩ := Nat.exists_eq_succ_of_ne_zero (Nat.ne_of_gt options.maxAttempts_pos)
    rw [hleft]
    refine (attemptLoop_may hpayload).mono ?_
    rintro trace outcome ⟨rfl, execution, response, hown, hmem⟩
    exact ⟨rfl, execution, response, hown, List.mem_cons_of_mem _ (List.mem_append_right _ hmem)⟩
  refine Program.may_bind htreat ?_
  rintro before _ ⟨rfl, hbefore⟩
  refine Program.may_pure ?_
  rwa [List.append_nil]

/-- The chunk at a place is handed over with the payload that the dictionary has for the place. -/
def HandsOver (payloads : List (PayloadKey × ImportPayload)) (place : Place) (trace : List ImportEvent) : Prop :=
  ∃ payload, payloads.lookup ⟨place.conversation.sourcePath, place.conversation.id, place.chunkIndex⟩ = some payload ∧
    HandedOver ⟨place.conversation, place.chunk, place.chunkIndex, place.chunkCount, payload.metadata.importKey⟩ payload
      trace

theorem HandsOver.mono {place : Place} {xs ys : List ImportEvent} (h : HandsOver payloads place xs) (hsub : xs ⊆ ys) :
    HandsOver payloads place ys := by
  obtain ⟨payload, hpayload, execution, response, hown, hmem⟩ := h
  exact ⟨payload, hpayload, execution, response, hown, hsub hmem⟩

/-- The dictionary has a payload for the place. -/
def HasPayload (payloads : List (PayloadKey × ImportPayload)) (place : Place) : Prop :=
  ∃ payload, payloads.lookup ⟨place.conversation.sourcePath, place.conversation.id, place.chunkIndex⟩ = some payload

theorem processChunks_may {chunkCount : Nat} {chunks : List MessageChunk} {chunkIndex : Nat}
    (hpayloads : ∀ place ∈ placesFrom conversation chunkCount chunkIndex chunks, HasPayload payloads place) :
    (processChunks I options hooks [] supersededKeys payloads conversation chunkCount chunks chunkIndex).May
      (ImportEvent.Accepts payloads) fun trace goesOn => goesOn = true ∧
        ∀ place ∈ placesFrom conversation chunkCount chunkIndex chunks, HandsOver payloads place trace := by
  induction chunks generalizing chunkIndex with
  | nil => exact Program.may_pure ⟨rfl, by simp [placesFrom]⟩
  | cons chunk rest ih =>
    obtain ⟨payload, hpayload⟩ := hpayloads ⟨conversation, chunk, chunkIndex, chunkCount⟩ List.mem_cons_self
    refine may_ask_bind false rfl ?_
    rw [if_neg (by simp), hpayload]
    refine Program.may_bind (processChunk_may hpayload) fun before _ hbefore => ?_
    refine (ih fun place hplace => hpayloads place (List.mem_cons_of_mem _ hplace)).mono fun after goesOn hafter => ?_
    refine ⟨hafter.1, fun place hplace => ?_⟩
    rcases List.mem_cons.mp hplace with rfl | hplace
    · obtain ⟨execution, response, hown, hmem⟩ := hbefore
      exact ⟨payload, hpayload, execution, response, hown, List.mem_cons_of_mem _ (List.mem_append_left _ hmem)⟩
    · exact (hafter.2 place hplace).mono fun e he => List.mem_cons_of_mem _ (List.mem_append_right _ he)

variable (I options hooks supersededKeys) in
theorem processGroup_may {group : ConversationGroup} (hpayloads : ∀ place ∈ groupPlaces group, HasPayload payloads place) :
    (processGroup I options hooks [] supersededKeys payloads group).May (ImportEvent.Accepts payloads)
      fun trace goesOn => goesOn = true ∧ ∀ place ∈ groupPlaces group, HandsOver payloads place trace := by
  induction group with
  | nil => exact Program.may_pure ⟨rfl, by simp [groupPlaces]⟩
  | cons item rest ih =>
    refine Program.may_bind (processChunks_may fun place hplace => hpayloads place (List.mem_append_left _ hplace)) ?_
    rintro before _ ⟨rfl, hbefore⟩
    refine (ih fun place hplace => hpayloads place (List.mem_append_right _ hplace)).mono fun after goesOn hafter => ?_
    refine ⟨hafter.1, fun place hplace => ?_⟩
    rcases List.mem_append.mp hplace with hplace | hplace
    · exact (hbefore place hplace).mono (List.subset_append_left _ _)
    · exact (hafter.2 place hplace).mono (List.subset_append_right _ _)

theorem follows_of_accepts {trace : List ImportEvent} (h : ∀ e ∈ trace, ImportEvent.Accepts payloads e)
    (queue : List ConversationGroup) : Lib.Follows fromQueue trace queue queue := by
  induction trace with
  | nil => exact .nil queue
  | cons e rest ih =>
    obtain ⟨haccepts, hrest⟩ := List.forall_mem_cons.mp h
    refine .cons ?_ (ih hrest)
    obtain ⟨request, answer⟩ := e
    cases request with
    | nextGroup => exact haccepts.elim
    | _ => rfl

/-- A worker that finds the queue empty. -/
def idleTrace : List ImportEvent := [⟨.cancelled, false⟩, ⟨.nextGroup, none⟩]

theorem idleTrace_run {existingKeys : List String} {fuel : Nat} : (worker I options hooks existingKeys supersededKeys payloads
    (fuel + 1)).Run idleTrace () := by
  rw [worker]
  exact Program.run_request_bind.mpr ⟨false, _, rfl, Program.run_request_bind.mpr ⟨none, _, rfl, .done ()⟩⟩

variable (I options hooks supersededKeys) in
/-- One worker takes all groups and stores every chunk. -/
theorem worker_may {groups : List ConversationGroup}
    (hpayloads : ∀ group ∈ groups, ∀ place ∈ groupPlaces group, HasPayload payloads place) :
    ∃ trace, (worker I options hooks [] supersededKeys payloads (groups.length + 1)).Run trace () ∧
      Lib.Follows fromQueue trace groups [] ∧
      (∀ e ∈ trace, takenGroup e ≠ none ∨ ImportEvent.Accepts payloads e) ∧
      ∀ group ∈ groups, ∀ place ∈ groupPlaces group, HandsOver payloads place trace := by
  induction groups with
  | nil =>
    refine ⟨idleTrace, idleTrace_run, ?_, ?_, by simp⟩
    · exact .cons rfl (.cons ⟨rfl, rfl⟩ (.nil []))
    · intro e he
      rcases List.mem_cons.mp he with rfl | he
      · exact .inr rfl
      · rw [List.mem_singleton.mp he]
        exact .inl (by simp [takenGroup])
  | cons group rest ih =>
    obtain ⟨before, _, hbefore, haccepts, rfl, hover⟩ :=
      processGroup_may I options hooks supersededKeys (hpayloads group List.mem_cons_self)
    obtain ⟨after, hafter, hfollows, hevents, hover'⟩ := ih fun g hg => hpayloads g (List.mem_cons_of_mem _ hg)
    refine ⟨⟨.cancelled, false⟩ :: ⟨.nextGroup, some group⟩ :: (before ++ after), ?_, ?_, ?_, ?_⟩
    · rw [worker]
      refine Program.run_request_bind.mpr ⟨false, _, rfl, Program.run_request_bind.mpr ⟨some group, _, rfl, ?_⟩⟩
      exact Program.run_bind.mpr ⟨before, after, true, rfl, hbefore, hafter⟩
    · exact .cons rfl (.cons ⟨rfl, rfl⟩ ((follows_of_accepts haccepts rest).append hfollows))
    · refine List.forall_mem_cons.mpr ⟨.inr rfl, List.forall_mem_cons.mpr ⟨.inl (by simp [takenGroup]), ?_⟩⟩
      exact List.forall_mem_append.mpr ⟨fun e he => .inr (haccepts e he), hevents⟩
    · refine List.forall_mem_cons.mpr ⟨fun place hplace => ?_, fun g hg place hplace => ?_⟩
      · exact (hover place hplace).mono fun e he => by simp [he]
      · exact (hover' g hg place hplace).mono fun e he => by simp [he]

theorem ImportEvent.Accepts.smooth {e : ImportEvent} (h : ImportEvent.Accepts payloads e) : ImportEvent.Smooth e := by
  obtain ⟨request, answer⟩ := e
  cases request with
  | store payload execution =>
    obtain ⟨⟨response, rfl⟩, -⟩ := h
    exact ⟨nofun, trivial⟩
  | claimChunk execution payload =>
    cases (h : answer = .claimed false)
    exact ⟨trivial, trivial⟩
  | cancelled => exact ⟨h, trivial⟩
  | externallyCancelled => exact ⟨h, trivial⟩
  | increment deltas => exact ⟨trivial, h⟩
  | nextGroup => exact h.elim
  | sleep => exact h.elim
  | _ => exact ⟨trivial, trivial⟩

theorem smooth_of_taken {e : ImportEvent} (h : takenGroup e ≠ none) : ImportEvent.Smooth e := by
  obtain ⟨request, answer⟩ := e
  cases request with
  | nextGroup => exact ⟨trivial, trivial⟩
  | _ => exact absurd rfl h

end

/-! ## When every run hands over its own payloads -/

section

variable {I : Importer} {options : RunOptions} {hooks : GivenHooks} {conversations : List Conversation}

theorem idleTraces_interleaved (n : Nat) : Interleaved fromQueue (List.replicate n idleTrace) [] [] := by
  induction n with
  | zero => exact .refl (by simp) []
  | succ n ih => exact ih.first (.cons rfl (.cons ⟨rfl, rfl⟩ (.nil [])))

variable (hooks) in
/-- Where nothing is stored yet, one worker may store every prepared chunk with the payload that is looked up for it. -/
theorem exists_storing_run {statuses : String → Option ChunkStatus} {initial prepared : List (Conversation × List MessageChunk)}
    {superseded : List String} (hinitial : initialChunks I options.toImportOptions conversations = .ok initial)
    (hprepared : prepareChunks I options.toImportOptions statuses initial = .ok (prepared, superseded)) :
    ∃ run : ImportRun I options hooks conversations, run.Smooth ∧ ∃ trace ∈ run.traces,
      ∀ item ∈ prepared, ∀ place ∈ placesFrom item.1 item.2.length 0 item.2,
        HandsOver (preparedPayloads I options.toImportOptions prepared) place trace := by
  have hgroups : ∀ group ∈ conversationGroups prepared, ∀ place ∈ groupPlaces group,
      HasPayload (preparedPayloads I options.toImportOptions prepared) place := by
    intro group hgroup place hplace
    obtain ⟨item, hitem, hplace⟩ := List.mem_flatMap.mp hplace
    obtain ⟨⟨chunk, k⟩, hchunk, rfl⟩ := List.mem_map.mp hplace
    have hin := (conversationGroups_perm prepared).mem_iff.mp (List.mem_flatten.mpr ⟨group, hgroup, hitem⟩)
    obtain ⟨_, _, _, _, _, hpayload⟩ := initialPayload_some I options.toImportOptions hin
      (List.mem_zipIdx_iff_getElem?.mp hchunk)
    exact ⟨_, hpayload⟩
  obtain ⟨trace, htrace, hfollows, hevents, hover⟩ := worker_may I options hooks [] hgroups
  refine ⟨{ statuses := fun key => (statuses key).map ChunkStatus.demoted, initial, initial_ok := hinitial, prepared,
            superseded := [], prepared_ok := prepareChunks_demoted hprepared, loaded := [], loaded_none := fun _ => rfl
            traces := trace :: List.replicate (options.workers - 1) idleTrace, workers := ?_, returned := ?_, left := [],
            turns := Interleaved.first hfollows (idleTraces_interleaved _) }, ?_, trace, List.mem_cons_self, ?_⟩
  · have hpos := options.workers_pos
    simp only [List.length_cons, List.length_replicate]
    omega
  · refine List.forall_mem_cons.mpr ⟨htrace, fun idle hidle => ?_⟩
    rw [List.eq_of_mem_replicate hidle]
    exact idleTrace_run
  · refine List.forall_mem_cons.mpr ⟨fun e he => ?_, fun idle hidle e he => ?_⟩
    · rcases hevents e he with h | h
      · exact smooth_of_taken h
      · exact h.smooth
    · rw [List.eq_of_mem_replicate hidle] at he
      simp only [idleTrace, List.mem_cons, List.not_mem_nil, or_false] at he
      rcases he with rfl | rfl
      · exact ⟨rfl, trivial⟩
      · exact ⟨trivial, trivial⟩
  · intro item hitem place hplace
    obtain ⟨group, hgroup, hin⟩ := List.mem_flatten.mp ((conversationGroups_perm prepared).mem_iff.mpr hitem)
    exact hover group hgroup place (List.mem_flatMap.mpr ⟨item, hin, hplace⟩)

/-- Every undisturbed run hands over the own payloads of its chunks, and keeps every message, if and only if no two
conversations of one source path and id have different payloads at one index. -/
theorem runs_keep_iff_payloads_agree (I : Importer) (options : RunOptions) (hooks : GivenHooks)
    (conversations : List Conversation) :
    (∀ run : ImportRun I options hooks conversations, run.Smooth →
      (∀ trace ∈ run.traces, ∀ e ∈ trace, HandsOwn I options.toImportOptions e.request) ∧
      ∀ conversation ∈ conversations, ∀ m ∈ ensureSourceIndices conversation.messages, run.Keeps conversation m) ↔
    ∀ statuses initial prepared superseded, initialChunks I options.toImportOptions conversations = .ok initial →
      prepareChunks I options.toImportOptions statuses initial = .ok (prepared, superseded) →
      PayloadsAgree I options.toImportOptions prepared := by
  constructor
  · intro h statuses initial prepared superseded hinitial hprepared
    obtain ⟨run, hsmooth, trace, htrace, hover⟩ := exists_storing_run hooks hinitial hprepared
    have hbuilt : ∀ item ∈ prepared, ∀ k chunk, item.2[k]? = some chunk →
        (preparedPayloads I options.toImportOptions prepared).lookup ⟨item.1.sourcePath, item.1.id, k⟩ =
          some (buildPayload I options.toImportOptions item.1 chunk k item.2.length) := by
      intro item hitem k chunk hchunk
      have hplace : (⟨item.1, chunk, k, item.2.length⟩ : Place) ∈ placesFrom item.1 item.2.length 0 item.2 :=
        List.mem_map.mpr ⟨(chunk, k), List.mem_zipIdx_iff_getElem?.mpr hchunk, rfl⟩
      obtain ⟨payload, hlookup, execution, response, hexecution, hmem⟩ := hover item hitem _ hplace
      have hown : payload = buildPayload I options.toImportOptions execution.conversation execution.chunk
        execution.chunkIndex execution.chunkCount := (h run hsmooth).1 trace htrace _ hmem
      rw [hexecution] at hown
      rw [hlookup, ← hown]
    intro a ha b hb hsource k c d hc hd
    have hpath : a.1.sourcePath = b.1.sourcePath := congrArg Prod.fst hsource
    have hid : a.1.id = b.1.id := congrArg Prod.snd hsource
    have hleft := hbuilt a ha k c hc
    rw [hpath, hid, hbuilt b hb k d hd] at hleft
    exact (Option.some.inj hleft).symm
  · intro h run hsmooth
    have hagree := h run.statuses run.initial run.prepared run.superseded run.initial_ok run.prepared_ok
    exact ⟨run.handsOwn (fun trace htrace e he => (hsmooth trace htrace e he).1) hagree,
      fun conversation hconversation m hm => run.keeps hsmooth hagree hconversation hm⟩

end

end YiQiao
