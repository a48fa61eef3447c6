import YiQiao.Import.Finishing

/-!
# What the hooks do to a row

The requests of the hooks for one chunk are about the row of its key. A chunk that ends leaves the row settled, and has
the counters computed again after it has touched them; a chunk that is split settles no row.
-/

namespace YiQiao

open Lib

/-! ## Events -/

/-- The key of the row that a request is about. -/
def ServerRequest.rowKey? : ServerRequest → Option String
  | .findRow key | .ensureRow key | .updateRow key _ _ => some key
  | _ => none

def RecordStatus.settles : RecordStatus → Bool
  | .succeeded | .skipped | .failed => true
  | _ => false

/-- The event neither counts a chunk nor settles a row. -/
def ServerEvent.Unmarked : ServerEvent → Prop
  | ⟨.other (.increment deltas), _⟩ => deltas.Neutral
  | ⟨.updateRow _ status _, _⟩ => status.settles = false
  | _ => True

/-- The event leaves what is counted of the rows with these keys. -/
def ServerEvent.Idle (leaf : String → Prop) : ServerEvent → Prop
  | ⟨.other (.increment deltas), _⟩ => deltas.Neutral
  | ⟨.updateRow key status _, _⟩ => ¬ leaf key ∧ status.settles = false
  | ⟨.ensureRow key, status⟩ => leaf key → terminalChunkStatuses.contains status = true
  | _ => True

/-- The event takes the lock or gives it back. -/
def ServerEvent.Recomputes : ServerEvent → Prop
  | ⟨.readRows, _⟩ | ⟨.writeCounters _, _⟩ => True
  | _ => False

/-- What is read of the rows is written at once. -/
inductive WritesBack : List ServerEvent → Prop where
  | nil : WritesBack []
  | plain {e : ServerEvent} {rest : List ServerEvent} (he : ¬ ServerEvent.Recomputes e) (h : WritesBack rest) :
      WritesBack (e :: rest)
  | recount (rows : List (String × ProgressRow)) {rest : List ServerEvent} (h : WritesBack rest) :
      WritesBack (⟨.readRows, rows⟩ :: ⟨.writeCounters rows, ()⟩ :: rest)

theorem WritesBack.append {xs ys : List ServerEvent} (hxs : WritesBack xs) (hys : WritesBack ys) : WritesBack (xs ++ ys) := by
  induction hxs with
  | nil => exact hys
  | plain he _ ih => exact .plain he ih
  | recount rows _ ih => exact .recount rows ih

theorem writesBack_plain {trace : List ServerEvent} (h : ∀ e ∈ trace, ¬ ServerEvent.Recomputes e) : WritesBack trace := by
  induction trace with
  | nil => exact .nil
  | cons e rest ih =>
    obtain ⟨he, hrest⟩ := List.forall_mem_cons.mp h
    exact .plain he (ih hrest)

/-- The counters are computed again from the rows. -/
def recounted (rows : List (String × ProgressRow)) : List ServerEvent := [⟨.readRows, rows⟩, ⟨.writeCounters rows, ()⟩]

theorem writesBack_recounted (rows : List (String × ProgressRow)) : WritesBack (recounted rows) := .recount rows .nil

def ServerEvent.Quiet : ServerEvent → Prop
  | ⟨.other request, answer⟩ => ImportEvent.Quiet ⟨request, answer⟩
  | _ => True

/-! ## The traces of the hooks -/

section

variable {key : String} {execution : ChunkAttempt} {payload : ImportPayload} {trace piece : List ServerEvent}

theorem run_recompute : recomputeProgress.Run trace () ↔ ∃ rows, trace = recounted rows := by
  rw [recomputeProgress]
  constructor
  · intro h
    obtain ⟨rows, rest, rfl, hrest⟩ := Program.run_request_bind.mp h
    rw [Program.run_request.mp hrest]
    exact ⟨rows, rfl⟩
  · rintro ⟨rows, rfl⟩
    exact Program.run_request_bind.mpr ⟨rows, _, rfl, Program.run_request.mpr rfl⟩

/-- The update of a row that is not followed by a recomputation, or is. -/
theorem run_updateImportChunk {state : ChunkUpdate} (h : (updateImportChunk execution state).Run trace ()) :
    ∃ rest, trace = ⟨.findRow execution.importKey, ()⟩ :: ⟨.tell execution state, ()⟩ ::
      ⟨.updateRow execution.importKey state.status state.memoryIds, ()⟩ :: rest ∧
      if state.recomputes then ∃ rows, rest = recounted rows else rest = [] := by
  rw [updateImportChunk] at h
  obtain ⟨_, _, rfl, htold⟩ := Program.run_request_bind.mp h
  obtain ⟨_, _, rfl, hupdated⟩ := Program.run_request_bind.mp htold
  obtain ⟨_, rest, rfl, hrest⟩ := Program.run_request_bind.mp hupdated
  refine ⟨rest, rfl, ?_⟩
  split at hrest
  · rename_i hstate
    rw [if_pos hstate]
    exact run_recompute.mp hrest
  · rename_i hstate
    rw [if_neg hstate]
    exact (Program.run_pure.mp hrest).1

/-- The requests of a claim that mark nothing. -/
def ServerRequest.Claiming (key : String) : ServerRequest → Prop
  | .ensureRow k => k = key
  | .claimManifest _ | .vectorRows _ | .releaseManifest _ => True
  | _ => False

/-- How the claim of a chunk goes: its row says that it has succeeded, or the manifest does, or the claim answers
something else and marks nothing. -/
inductive ClaimTrace (key : String) : List ServerEvent → ClaimResult → Prop where
  | resumed : ClaimTrace key [⟨.ensureRow key, .succeeded⟩] .resumeSucceeded
  | recorded (status : RecordStatus) (claim : ManifestClaim) (memoryIds : List String) (rows : List (String × ProgressRow)) :
      ClaimTrace key (⟨.ensureRow key, status⟩ :: ⟨.claimManifest key, claim⟩ ::
        ⟨.updateRow key .succeeded (some memoryIds), ()⟩ :: recounted rows) .resumeSucceeded
  | answered {trace : List ServerEvent} {answer : ClaimResult} (hanswer : answer ≠ .resumeSucceeded)
      (h : ∀ e ∈ trace, e.request.Claiming key) : ClaimTrace key trace answer

theorem run_claimRefused {status : RecordStatus} {ownJob ownChunk : Bool} {memoryIds : List String} {answer : ClaimResult}
    (h : (claimRefused key status ownJob ownChunk memoryIds).Run trace answer) :
    (answer = .resumeSucceeded ∧ ∃ rows, trace = ⟨.updateRow key .succeeded (some memoryIds), ()⟩ :: recounted rows) ∨
      answer ≠ .resumeSucceeded ∧ ∀ e ∈ trace, e.request.Claiming key := by
  have hpure : ∀ {result : ClaimResult}, result ≠ .resumeSucceeded → (pure result : ServerProgram _).Run trace answer →
      answer ≠ .resumeSucceeded ∧ ∀ e ∈ trace, e.request.Claiming key := by
    intro result hne hrun
    obtain ⟨rfl, rfl⟩ := Program.run_pure.mp hrun
    exact ⟨hne, by simp⟩
  rw [claimRefused] at h
  split at h
  · exact .inr (hpure (by simp) h)
  · split at h
    · split at h
      · obtain ⟨_, _, rfl, hrest⟩ := Program.run_request_bind.mp h
        obtain ⟨before, after, _, rfl, hbefore, hafter⟩ := Program.run_bind.mp hrest
        obtain ⟨rows, rfl⟩ := run_recompute.mp hbefore
        obtain ⟨rfl, rfl⟩ := Program.run_pure.mp hafter
        exact .inl ⟨rfl, rows, by rw [List.append_nil]⟩
      · exact .inr (hpure (by simp) h)
    · split at h
      · refine .inr ?_
        obtain ⟨found, _, rfl, hfound⟩ := Program.run_request_bind.mp h
        split at hfound
        · obtain ⟨rfl, rfl⟩ := Program.run_pure.mp hfound
          simp [ServerRequest.Claiming]
        · obtain ⟨_, _, rfl, hreleased⟩ := Program.run_request_bind.mp hfound
          obtain ⟨claim, _, rfl, hclaim⟩ := Program.run_request_bind.mp hreleased
          cases claim with
          | claimed attempts =>
            obtain ⟨rfl, rfl⟩ := Program.run_pure.mp hclaim
            simp [ServerRequest.Claiming]
          | refused status ownJob ownChunk memoryIds =>
            obtain ⟨rfl, rfl⟩ := Program.run_pure.mp hclaim
            simp [ServerRequest.Claiming]
      · exact .inr (hpure (by simp) h)

theorem run_claimImportChunk {answer : ClaimResult} (h : (claimImportChunk key).Run trace answer) :
    ClaimTrace key trace answer := by
  rw [claimImportChunk] at h
  obtain ⟨status, _, rfl, hrest⟩ := Program.run_request_bind.mp h
  split at hrest
  · rename_i hstatus
    obtain ⟨rfl, rfl⟩ := Program.run_pure.mp hrest
    cases hstatus
    exact .resumed
  · obtain ⟨claim, rest, rfl, hclaim⟩ := Program.run_request_bind.mp hrest
    cases claim with
    | claimed attempts =>
      obtain ⟨rfl, rfl⟩ := Program.run_pure.mp hclaim
      exact .answered (by simp) (by simp [ServerRequest.Claiming])
    | refused status' ownJob ownChunk memoryIds =>
      rcases run_claimRefused hclaim with ⟨rfl, rows, rfl⟩ | ⟨hne, hclaiming⟩
      · exact .recorded status _ memoryIds rows
      · exact .answered hne (by simpa [ServerRequest.Claiming] using hclaiming)

/-- What serves a request: a claim, an update, the storage callback with the look at the row before it, or the request
itself. -/
inductive ServedPiece : (request : ImportRequest) → request.Answer → List ServerEvent → Prop where
  | claim {execution : ChunkAttempt} (payload : ImportPayload) {answer : ClaimResult} {piece : List ServerEvent}
      (h : ClaimTrace execution.importKey piece answer) : ServedPiece (.claimChunk execution payload) answer piece
  | update {execution : ChunkAttempt} {state : ChunkUpdate} {rest : List ServerEvent}
      (h : if state.recomputes then ∃ rows, rest = recounted rows else rest = []) :
      ServedPiece (.updateChunk execution state) () (⟨.findRow execution.importKey, ()⟩ :: ⟨.tell execution state, ()⟩ ::
        ⟨.updateRow execution.importKey state.status state.memoryIds, ()⟩ :: rest)
  | store (payload : ImportPayload) (execution : ChunkAttempt) (answer : StorageResult) :
      ServedPiece (.store payload execution) answer
        [⟨.findRow execution.importKey, ()⟩, ⟨.other (.store payload execution), answer⟩]
  | other (request : ImportRequest) (answer : request.Answer) : ServedPiece request answer [⟨.other request, answer⟩]

theorem run_serve {request : ImportRequest} {answer : request.Answer} (h : (serve request).Run piece answer) :
    ServedPiece request answer piece := by
  cases request with
  | claimChunk execution payload => exact .claim payload (run_claimImportChunk h)
  | updateChunk execution state =>
    obtain ⟨rest, rfl, hrest⟩ := run_updateImportChunk h
    exact .update hrest
  | store payload execution =>
    obtain ⟨_, _, rfl, hrest⟩ := Program.run_request_bind.mp h
    rw [Program.run_request.mp hrest]
    exact .store payload execution answer
  | _ =>
    rw [Program.run_request.mp h]
    exact .other _ answer

theorem recomputes_status {state : ChunkUpdate} : state.recomputes = state.status.settles := by
  cases state <;> rfl

theorem ServerRequest.Claiming.unmarked {e : ServerEvent} (h : e.request.Claiming key) : ServerEvent.Unmarked e := by
  obtain ⟨request, answer⟩ := e
  cases request with
  | other request => exact h.elim
  | updateRow => exact h.elim
  | _ => trivial

theorem ServedPiece.unmarked {request : ImportRequest} {answer : request.Answer} (h : ServedPiece request answer piece)
    (hunfinished : ImportEvent.Unfinished ⟨request, answer⟩) : ∀ e ∈ piece, ServerEvent.Unmarked e := by
  cases h with
  | claim payload h =>
    cases h with
    | resumed => exact absurd rfl hunfinished
    | recorded => exact absurd rfl hunfinished
    | answered _ h => exact fun e he => (h e he).unmarked
  | update hrest =>
    have hstate : _ = false := hunfinished
    rw [hstate, if_neg (by simp)] at hrest
    rw [recomputes_status] at hstate
    simp [hrest, ServerEvent.Unmarked, hstate]
  | store payload execution answer => simp [ServerEvent.Unmarked]
  | other =>
    intro e he
    rw [List.mem_singleton.mp he]
    cases request with
    | increment deltas => exact hunfinished
    | _ => trivial

theorem recounted_rowKey {rows : List (String × ProgressRow)} : ∀ e ∈ recounted rows, e.request.rowKey? = none := by
  simp [recounted, ServerRequest.rowKey?]

/-- What serves the requests of a chunk is about the row of its key. -/
theorem ServedPiece.about {request : ImportRequest} {answer : request.Answer} (h : ServedPiece request answer piece)
    {own : ChunkExecution} (hown : OwnRequest own payload request) :
    ∀ e ∈ piece, ∀ k ∈ e.request.rowKey?, k = own.importKey := by
  have hrecounted : ∀ {rows} {e : ServerEvent}, e ∈ recounted rows → ∀ k ∈ e.request.rowKey?, k = own.importKey := by
    intro rows e he k hk
    rw [recounted_rowKey e he] at hk
    cases hk
  cases h with
  | claim payload h =>
    obtain ⟨rfl, -⟩ := hown
    cases h with
    | resumed => simp [ServerRequest.rowKey?]
    | recorded status claim memoryIds rows =>
      simp only [List.forall_mem_cons]
      refine ⟨by simp [ServerRequest.rowKey?], by simp [ServerRequest.rowKey?], by simp [ServerRequest.rowKey?], ?_⟩
      exact fun e he => hrecounted he
    | answered _ h =>
      intro e he k hk
      have hclaiming := h e he
      obtain ⟨request, answer⟩ := e
      cases request with
      | ensureRow key =>
        cases hk
        exact hclaiming
      | _ => cases hk <;> exact hclaiming.elim
  | @update execution state rest hrest =>
    have hkey : execution.importKey = own.importKey := by
      cases state with
      | split children error => exact hown.elim
      | _ => exact congrArg ChunkExecution.importKey hown
    simp only [List.forall_mem_cons]
    refine ⟨by simp [ServerRequest.rowKey?, hkey], by simp [ServerRequest.rowKey?], by simp [ServerRequest.rowKey?, hkey], ?_⟩
    split at hrest
    · obtain ⟨rows, rfl⟩ := hrest
      exact fun e he => hrecounted he
    · simp [hrest]
  | store payload execution answer =>
    obtain ⟨rfl, -⟩ := hown
    simp [ServerRequest.rowKey?]
  | other => simp [ServerRequest.rowKey?]

theorem ServedPiece.writesBack {request : ImportRequest} {answer : request.Answer} (h : ServedPiece request answer piece) :
    WritesBack piece := by
  cases h with
  | claim payload h =>
    cases h with
    | resumed => exact .plain id .nil
    | recorded status claim memoryIds rows => exact .plain id (.plain id (.plain id (writesBack_recounted rows)))
    | answered _ h =>
      refine writesBack_plain fun e he hrecomputes => ?_
      have hclaiming := h e he
      obtain ⟨request, answer⟩ := e
      cases request with
      | readRows => exact hclaiming
      | writeCounters => exact hclaiming
      | _ => exact hrecomputes
  | update hrest =>
    refine .plain id (.plain id (.plain id ?_))
    split at hrest
    · obtain ⟨rows, rfl⟩ := hrest
      exact writesBack_recounted rows
    · rw [hrest]
      exact .nil
  | store payload execution answer => exact .plain id (.plain id .nil)
  | other => exact .plain id .nil

theorem ServedPiece.quiet {request : ImportRequest} {answer : request.Answer} (h : ServedPiece request answer piece)
    (hquiet : ∀ e ∈ piece, ServerEvent.Quiet e) : ImportEvent.Quiet ⟨request, answer⟩ := by
  cases h with
  | claim payload h => trivial
  | update hrest => trivial
  | store payload execution answer => exact hquiet ⟨.other (.store payload execution), answer⟩ (by simp)
  | other => exact hquiet ⟨.other request, answer⟩ (by simp)

/-- By how much the event raises the total. -/
def ServerEvent.total : ServerEvent → Int
  | ⟨.other (.increment deltas), _⟩ => deltas.totalChunks
  | _ => 0

theorem ServedPiece.total {request : ImportRequest} {answer : request.Answer} (h : ServedPiece request answer piece)
    {own : ChunkExecution} (hown : OwnRequest own payload request) : ∀ e ∈ piece, ServerEvent.total e = 0 := by
  have hrecounted : ∀ {rows} {e : ServerEvent}, e ∈ recounted rows → ServerEvent.total e = 0 := by
    intro rows e he
    rcases List.mem_pair.mp he with rfl | rfl <;> rfl
  cases h with
  | claim payload h =>
    cases h with
    | resumed => simp [ServerEvent.total]
    | recorded status claim memoryIds rows =>
      simp only [List.forall_mem_cons]
      exact ⟨rfl, rfl, rfl, fun e he => hrecounted he⟩
    | answered _ h =>
      intro e he
      have hclaiming := h e he
      obtain ⟨request, answer⟩ := e
      cases request with
      | other => exact hclaiming.elim
      | _ => rfl
  | update hrest =>
    simp only [List.forall_mem_cons]
    refine ⟨rfl, rfl, rfl, ?_⟩
    split at hrest
    · obtain ⟨rows, rfl⟩ := hrest
      exact fun e he => hrecounted he
    · simp [hrest]
  | store payload execution answer => simp [ServerEvent.total]
  | other =>
    intro e he
    rw [List.mem_singleton.mp he]
    cases request with
    | increment deltas => exact hown
    | _ => rfl

end

end YiQiao
