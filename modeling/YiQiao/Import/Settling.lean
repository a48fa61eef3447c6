import YiQiao.Import.RowTraces

/-!
# The row of a chunk

What the requests of a run make of the row of one key. A chunk that ends closes its row: it marks it as settled and has
the counters computed again, or it finds that the row says so already.
-/

namespace YiQiao

open Lib

/-! ## One row -/

/-- The status of a row after `upsert_chunk`. -/
def ensuredStatus : Option RecordStatus → RecordStatus
  | none => .pending
  | some status => if terminalChunkStatuses.contains status then status else .pending

/-- What a request makes of the row of one key, and what it says of it. -/
def RowSeen (key : String) : (request : ServerRequest) → Option RecordStatus → request.Answer → Option RecordStatus → Prop
  | .findRow k, s, _, s' => s' = if k = key then some (s.getD .pending) else s
  | .ensureRow k, s, status, s' => if k = key then status = ensuredStatus s ∧ s' = some status else s' = s
  | .updateRow k status _, s, _, s' => s' = if k = key then s.map fun _ => status else s
  | _, s, _, s' => s' = s

def rowStatus (key : String) (rows : List (String × ProgressRow)) : Option RecordStatus :=
  (rows.lookup key).map ProgressRow.status

theorem ensuredRow_status (row : Option ProgressRow) : (ensuredRow row).status = ensuredStatus (row.map ProgressRow.status) := by
  cases row with
  | none => rfl
  | some row =>
    simp only [ensuredRow, ensuredStatus, Option.map_some]
    split <;> rfl

section

variable {key : String} {rows : List (String × ProgressRow)}

theorem rowStatus_set {k : String} {row : ProgressRow} :
    rowStatus key (Dict.set k row rows) = if key = k then some row.status else rowStatus key rows := by
  rw [rowStatus, Dict.lookup_set]
  split <;> rfl

theorem rowStatus_found {k : String} :
    rowStatus key (foundRows k rows) = if k = key then some ((rowStatus key rows).getD .pending) else rowStatus key rows := by
  rw [foundRows]
  split
  · rename_i hnone
    rw [rowStatus_set]
    by_cases h : key = k
    · subst h
      simp [rowStatus, hnone]
    · rw [if_neg h, if_neg (Ne.symm h)]
  · rename_i row hrow
    split
    · rename_i h
      subst h
      simp [rowStatus, hrow]
    · rfl

theorem rowStatus_updated {k : String} {status : RecordStatus} {memoryIds : Option (List String)} :
    rowStatus key (updatedRows k status memoryIds rows) =
      if k = key then (rowStatus key rows).map fun _ => status else rowStatus key rows := by
  rw [updatedRows]
  split
  · rename_i hnone
    split
    · rename_i h
      subst h
      simp [rowStatus, hnone]
    · rfl
  · rename_i row hrow
    rw [rowStatus_set]
    by_cases h : key = k
    · subst h
      simp [rowStatus, hrow]
    · rw [if_neg h, if_neg (Ne.symm h)]

variable (key) in
/-- A run does to one row what its requests say. -/
theorem rowSeen_of_answers {e : ServerEvent} {s s' : HookedState} (h : serverAnswers e.request s e.answer s') :
    RowSeen key e.request (rowStatus key s.progress.rows) e.answer (rowStatus key s'.progress.rows) := by
  obtain ⟨request, answer⟩ := e
  obtain ⟨-, hallows, hafter⟩ := h
  simp only at hafter
  rw [hafter]
  cases request with
  | other request => cases request <;> rfl
  | findRow k => exact rowStatus_found
  | updateRow k status memoryIds => exact rowStatus_updated
  | ensureRow k =>
    have hstatus : answer = ensuredStatus (rowStatus k s.progress.rows) := by
      rw [rowStatus, ← ensuredRow_status]
      exact hallows
    simp only [RowSeen, Progress.after, rowStatus_set, ensuredRow_status]
    split
    · rename_i h
      subst h
      exact ⟨hstatus, by simp [hstatus, rowStatus]⟩
    · rename_i h
      rw [if_neg (Ne.symm h)]
  | _ => rfl

theorem rowSeen_still {request : ServerRequest} {answer : request.Answer} {s s' : Option RecordStatus}
    (hkey : request.rowKey? ≠ some key) (h : RowSeen key request s answer s') : s' = s := by
  cases request with
  | findRow k => simpa [RowSeen, show k ≠ key from fun hk => hkey (by rw [hk]; rfl)] using h
  | ensureRow k => simpa [RowSeen, show k ≠ key from fun hk => hkey (by rw [hk]; rfl)] using h
  | updateRow k => simpa [RowSeen, show k ≠ key from fun hk => hkey (by rw [hk]; rfl)] using h
  | _ => exact h

end

/-! ## The end of a chunk -/

/-- The row is closed: the chunk was resumed and has marked nothing before, or its row was marked and counted. -/
inductive ClosesRow (key : String) : List ServerEvent → Prop where
  | resumed {before : List ServerEvent} (hunmarked : ∀ e ∈ before, ServerEvent.Unmarked e) :
      ClosesRow key (before ++ [⟨.ensureRow key, .succeeded⟩])
  | marked (before : List ServerEvent) {status : RecordStatus} (memoryIds : Option (List String))
      (rows : List (String × ProgressRow)) (hsettles : status.settles = true) :
      ClosesRow key (before ++ ⟨.updateRow key status memoryIds, ()⟩ :: recounted rows)

section

variable {key : String} {trace : List ServerEvent}

theorem ClosesRow.after {before : List ServerEvent} (h : ClosesRow key trace)
    (hbefore : ∀ e ∈ before, ServerEvent.Unmarked e) : ClosesRow key (before ++ trace) := by
  cases h with
  | resumed hunmarked =>
    rw [← List.append_assoc]
    exact .resumed (List.forall_mem_append.mpr ⟨hbefore, hunmarked⟩)
  | marked between memoryIds rows hsettles =>
    rw [← List.append_assoc]
    exact .marked _ memoryIds rows hsettles

variable {own : ChunkExecution} {payload : ImportPayload} {events : List ImportEvent}

theorem serves_about (h : Program.Serves serve events trace) (hown : ∀ e ∈ events, OwnRequest own payload e.request) :
    ∀ e ∈ trace, ∀ k ∈ e.request.rowKey?, k = own.importKey :=
  h.forall fun e he _ hpiece => (run_serve hpiece).about (hown e he)

theorem serves_unmarked (h : Program.Serves serve events trace) (hunfinished : Unfinished events) :
    ∀ e ∈ trace, ServerEvent.Unmarked e :=
  h.forall fun e he _ hpiece => (run_serve hpiece).unmarked (hunfinished e he)

theorem serves_quiet (h : Program.Serves serve events trace) (hquiet : ∀ e ∈ trace, ServerEvent.Quiet e) : Quiet events := by
  induction h with
  | nil => simp [YiQiao.Quiet]
  | cons hpiece _ ih =>
    obtain ⟨hfirst, hrest⟩ := List.forall_mem_append.mp hquiet
    exact Quiet.cons.mpr ⟨(run_serve hpiece).quiet hfirst, ih hrest⟩

theorem serves_total (h : Program.Serves serve events trace) (hown : ∀ e ∈ events, OwnRequest own payload e.request) :
    ∀ e ∈ trace, ServerEvent.total e = 0 :=
  h.forall fun e he _ hpiece => (run_serve hpiece).total (hown e he)

theorem serves_writesBack (h : Program.Serves serve events trace) : WritesBack trace :=
  h.all .nil (fun _ _ => WritesBack.append) fun _ _ _ hpiece => (run_serve hpiece).writesBack

theorem claimTrace_closes {answer : ClaimResult} (h : ClaimTrace key trace answer) (hanswer : answer = .resumeSucceeded) :
    ClosesRow key trace := by
  cases h with
  | answered hne => exact absurd hanswer hne
  | resumed =>
    rw [← List.nil_append [_]]
    exact .resumed (by simp)
  | recorded status claim memoryIds rows => exact .marked [_, _] _ rows rfl

/-- A chunk that nothing stops and that is not split closes its row. -/
theorem serves_closes (h : Program.Serves serve events trace) (hown : ∀ e ∈ events, OwnRequest own payload e.request)
    {succeeded : Bool} (hends : (ChunkOutcome.ended succeeded).Ends events) : ClosesRow own.importKey trace := by
  obtain ⟨before, final, rfl, hbefore, hfinal⟩ := hends
  obtain ⟨first, last, rfl, hfirst, hlast⟩ := Program.serves_append.mp h
  refine ClosesRow.after ?_ (serves_unmarked hfirst hbefore)
  have hown := (List.forall_mem_append.mp hown).2
  cases hfinal with
  | resumed execution payload' =>
    cases hlast with
    | cons hpiece hnil =>
      cases hnil
      have hkey := congrArg ChunkExecution.importKey (hown _ (List.mem_singleton_self _)).1
      rw [List.append_nil, ← hkey]
      exact claimTrace_closes (run_claimImportChunk hpiece) rfl
  | @counted deltas told htold execution state hstate =>
    have hkey : execution.importKey = own.importKey := by
      have hupdate := hown ⟨.updateChunk execution state, ()⟩ (by simp)
      cases state with
      | split children error => exact hupdate.elim
      | _ => exact congrArg ChunkExecution.importKey hupdate
    cases hlast with
    | @cons _ _ _ counted _ hpiece hrest =>
      obtain ⟨toldTrace, after, rfl, -, hupdate⟩ := Program.serves_append.mp hrest
      cases hupdate with
      | cons hpiece' hnil =>
        cases hnil
        obtain ⟨rest, rfl, hrecounted⟩ := run_updateImportChunk hpiece'
        rw [if_pos hstate] at hrecounted
        obtain ⟨rows, rfl⟩ := hrecounted
        rw [recomputes_status] at hstate
        have hmarked : ClosesRow execution.importKey (_ ++ _) := .marked (counted ++ (toldTrace ++
          [⟨.findRow execution.importKey, ()⟩, ⟨.tell execution state, ()⟩])) state.memoryIds rows hstate
        rw [← hkey]
        simpa using hmarked

end

end YiQiao
