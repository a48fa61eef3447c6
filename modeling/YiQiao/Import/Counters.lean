import YiQiao.Import.Accounts

/-!
# The counters of a run

In a run that nothing stops, the counters agree with the rows in the end, whoever wrote them last: until then some worker
has still to recount, or to find a row settled that another has still to settle.
-/

namespace YiQiao

open Lib

/-! ## What is counted -/

/-- The counters that the settled rows decide. -/
def JobCounters.counted (counters : JobCounters) : JobCounters :=
  { noCounters with
    processedChunks := counters.processedChunks
    importedChunks := counters.importedChunks
    skippedChunks := counters.skippedChunks
    failedChunks := counters.failedChunks
    memoriesCreated := counters.memoriesCreated }

/-- What the rows amount to. -/
def tally (rows : List (String × ProgressRow)) : JobCounters := (recount rows noCounters).counted

def SettledAt (key : String) (rows : List (String × ProgressRow)) : Prop :=
  (rowStatus key rows).any RecordStatus.settles = true

section

variable {rows : List (String × ProgressRow)} {counters deltas : JobCounters} {key : String} {row : ProgressRow}

theorem counted_recount : (recount rows counters).counted = tally rows := rfl

theorem counted_add (h : deltas.Neutral) : (counters.add deltas).counted = counters.counted := by
  obtain ⟨hprocessed, himported, hskipped, hfailed, hmemories⟩ := h
  simp [JobCounters.counted, JobCounters.add, hprocessed, himported, hskipped, hfailed, hmemories]

theorem rowsOf_set {status : RecordStatus} (hnew : row.status ≠ status)
    (hold : ∀ old, (key, old) ∈ rows → old.status ≠ status) : rowsOf status (Dict.set key row rows) = rowsOf status rows := by
  induction rows with
  | nil => simp [Dict.set, rowsOf, hnew]
  | cons e rows ih =>
    obtain ⟨k, old⟩ := e
    by_cases hk : k = key
    · subst hk
      have hfirst := hold old List.mem_cons_self
      simp [Dict.set, rowsOf, hnew, hfirst]
    · have hrest := ih fun old h => hold old (List.mem_cons_of_mem _ h)
      simp only [rowsOf] at hrest
      simp [Dict.set, rowsOf, hk, List.filter_cons, hrest]

/-- A row that is not settled can be replaced by another. -/
theorem tally_set (hunique : Dict.Unique rows) (hnew : row.status.settles = false) (hold : ¬ SettledAt key rows) :
    tally (Dict.set key row rows) = tally rows := by
  have hrows : ∀ status : RecordStatus, status.settles = true → rowsOf status (Dict.set key row rows) = rowsOf status rows := by
    intro status hstatus
    refine rowsOf_set (fun h => ?_) fun old hmem h => hold ?_
    · rw [h, hstatus] at hnew
      cases hnew
    · rw [SettledAt, rowStatus, (Dict.mem_iff_lookup hunique).mp hmem, Option.map_some, h, Option.any_some, hstatus]
  simp only [tally, recount, JobCounters.counted, hrows .succeeded rfl, hrows .skipped rfl, hrows .failed rfl]

end

/-! ## What one event does -/

section

variable {leaf : String → Prop} {key : String} {e : ServerEvent} {s s' : HookedState}

/-- No row is settled but by a mark. -/
theorem settled_before (h : serverAnswers e.request s e.answer s') (hsettled : SettledAt key s'.progress.rows)
    (hmarks : ¬ ServerEvent.MarksRow key e) : SettledAt key s.progress.rows := by
  have hseen := rowSeen_of_answers key h
  rw [SettledAt] at hsettled ⊢
  obtain ⟨request, answer⟩ := e
  cases request with
  | findRow k =>
    simp only [RowSeen] at hseen
    split at hseen
    · rw [hseen] at hsettled
      cases hstatus : rowStatus key s.progress.rows with
      | none =>
        rw [hstatus] at hsettled
        cases hsettled
      | some status => rwa [hstatus] at hsettled
    · rwa [hseen] at hsettled
  | ensureRow k =>
    simp only [RowSeen] at hseen
    split at hseen
    · obtain ⟨hanswer, hseen⟩ := hseen
      rw [hseen, hanswer] at hsettled
      cases hstatus : rowStatus key s.progress.rows with
      | none =>
        rw [hstatus] at hsettled
        cases hsettled
      | some status =>
        rw [hstatus, ensuredStatus] at hsettled
        split at hsettled
        · exact hsettled
        · cases hsettled
    · rwa [hseen] at hsettled
  | updateRow k status ids =>
    simp only [RowSeen] at hseen
    split at hseen
    · rename_i hk
      rw [hseen, Option.any_map] at hsettled
      cases hstatus : rowStatus key s.progress.rows with
      | none =>
        rw [hstatus] at hsettled
        cases hsettled
      | some old =>
        rw [hstatus] at hsettled
        exact absurd ⟨hk, hsettled⟩ hmarks
    · rwa [hseen] at hsettled
  | _ => rwa [show rowStatus key s'.progress.rows = _ from hseen] at hsettled

theorem settled_still (h : serverAnswers e.request s e.answer s') (hother : e.request.rowKey? ≠ some key) :
    SettledAt key s'.progress.rows ↔ SettledAt key s.progress.rows := by
  rw [SettledAt, SettledAt, rowSeen_still hother (rowSeen_of_answers key h)]

theorem rowStatus_isSome {rows : List (String × ProgressRow)} : (rowStatus key rows).isSome ↔ key ∈ rows.map Prod.fst := by
  rw [rowStatus, Option.isSome_map, ← not_iff_not, ← Dict.lookup_eq_none_iff_keys, Option.not_isSome_iff_eq_none]

/-- The row is settled after an event that closes it. -/
theorem settled_of_closes (h : serverAnswers e.request s e.answer s') (hcloses : ServerEvent.Closes key e)
    (hfounded : Founded (· ∈ s.progress.rows.map Prod.fst) [e]) : SettledAt key s'.progress.rows := by
  have hseen := rowSeen_of_answers key h
  rw [SettledAt]
  obtain ⟨request, answer⟩ := e
  cases request with
  | updateRow k status ids =>
    obtain ⟨rfl, hsettles⟩ := hcloses.resolve_right id
    simp only [RowSeen, if_true] at hseen
    obtain ⟨old, hold⟩ := Option.isSome_iff_exists.mp (rowStatus_isSome.mpr hfounded.1)
    rw [hseen, hold, Option.map_some, Option.any_some, hsettles]
  | ensureRow k =>
    obtain ⟨rfl, hstatus⟩ := hcloses.resolve_left id
    simp only [RowSeen, if_true] at hseen
    rw [hseen.2, hstatus]
    rfl
  | _ => exact (hcloses.elim id id).elim

theorem mem_keys_set {k : String} {row : ProgressRow} {rows : List (String × ProgressRow)} :
    key ∈ (Dict.set k row rows).map Prod.fst ↔ key = k ∨ key ∈ rows.map Prod.fst := by
  rw [Dict.keys_set]
  split
  · rename_i hk
    refine ⟨.inr, fun h => h.elim (fun h => ?_) id⟩
    rwa [h]
  · rw [List.mem_append, List.mem_singleton, or_comm]

theorem mem_keys_found {k : String} {rows : List (String × ProgressRow)} :
    key ∈ (foundRows k rows).map Prod.fst ↔ key = k ∨ key ∈ rows.map Prod.fst := by
  rw [foundRows]
  split
  · exact mem_keys_set
  · rename_i row hrow
    refine ⟨.inr, fun h => h.elim (fun h => ?_) id⟩
    rw [h]
    exact List.mem_map_of_mem (Dict.mem_of_lookup hrow)

theorem mem_keys_updated {k : String} {status : RecordStatus} {ids : Option (List String)}
    {rows : List (String × ProgressRow)} (h : key ∈ rows.map Prod.fst) : key ∈ (updatedRows k status ids rows).map Prod.fst := by
  rw [updatedRows]
  split
  · exact h
  · exact mem_keys_set.mpr (.inr h)

/-- No row goes. -/
theorem mem_keys_after {request : ServerRequest} {answer : request.Answer} (h : serverAnswers request s answer s')
    (hkey : key ∈ s.progress.rows.map Prod.fst) : key ∈ s'.progress.rows.map Prod.fst := by
  rw [h.2.2]
  cases request with
  | other request => cases request <;> exact hkey
  | findRow k => exact mem_keys_found.mpr (.inr hkey)
  | ensureRow k => exact mem_keys_set.mpr (.inr hkey)
  | updateRow k status ids => exact mem_keys_updated hkey
  | _ => exact hkey

/-- The rows that are marked are there. -/
theorem Founded.after {rest : List ServerEvent} (h : serverAnswers e.request s e.answer s')
    (hfounded : Founded (· ∈ s.progress.rows.map Prod.fst) (e :: rest)) :
    Founded (· ∈ s'.progress.rows.map Prod.fst) rest := by
  have hkeys : ∀ key, key ∈ s.progress.rows.map Prod.fst → key ∈ s'.progress.rows.map Prod.fst :=
    fun _ => mem_keys_after h
  have hafter := h.2.2
  obtain ⟨request, answer⟩ := e
  cases request with
  | findRow k =>
    have hrest : Founded (fun key => key = k ∨ key ∈ s.progress.rows.map Prod.fst) rest := hfounded
    refine hrest.mono fun key hkey => ?_
    rw [hafter]
    exact mem_keys_found.mpr hkey
  | ensureRow k =>
    have hrest : Founded (fun key => key = k ∨ key ∈ s.progress.rows.map Prod.fst) rest := hfounded
    refine hrest.mono fun key hkey => ?_
    rw [hafter]
    exact mem_keys_set.mpr hkey
  | updateRow k => exact hfounded.2.mono hkeys
  | _ =>
    have hrest : Founded (· ∈ s.progress.rows.map Prod.fst) rest := hfounded
    exact hrest.mono hkeys

theorem unique_after {request : ServerRequest} {answer : request.Answer} (h : serverAnswers request s answer s')
    (hunique : Dict.Unique s.progress.rows) : Dict.Unique s'.progress.rows := by
  rw [h.2.2]
  cases request with
  | other request => cases request <;> exact hunique
  | findRow k =>
    simp only [Progress.after, foundRows]
    split
    · exact hunique.set _ _
    · exact hunique
  | ensureRow k => exact hunique.set _ _
  | updateRow k status ids =>
    simp only [Progress.after, updatedRows]
    split
    · exact hunique
    · exact hunique.set _ _
  | _ => exact hunique

/-- An event that marks nothing and leaves its row settled is idle. -/
theorem ServerEvent.Unmarked.idle_of_settled (hunmarked : ServerEvent.Unmarked e)
    (h : serverAnswers e.request s e.answer s') (hkey : e.request.rowKey? = some key)
    (hsettled : SettledAt key s'.progress.rows) : ServerEvent.Idle leaf e := by
  have hseen := rowSeen_of_answers key h
  rw [SettledAt] at hsettled
  obtain ⟨request, answer⟩ := e
  cases request with
  | ensureRow k =>
    cases hkey
    simp only [RowSeen, if_true] at hseen
    obtain ⟨hstatus, hrow⟩ := hseen
    intro _
    rw [hrow, Option.any_some] at hsettled
    cases hold : rowStatus key s.progress.rows with
    | none =>
      rw [hstatus, hold] at hsettled
      cases hsettled
    | some old =>
      rw [hold, ensuredStatus] at hstatus
      split at hstatus
      · rename_i hterminal
        rwa [hstatus]
      · rw [hstatus] at hsettled
        cases hsettled
  | updateRow k status ids =>
    cases hkey
    simp only [RowSeen, if_true] at hseen
    cases hold : rowStatus key s.progress.rows with
    | none =>
      rw [hseen, hold] at hsettled
      cases hsettled
    | some old =>
      rw [hseen, hold, Option.map_some, Option.any_some, show status.settles = false from hunmarked] at hsettled
      cases hsettled
  | findRow k => trivial
  | _ => cases hkey

theorem recomputing_after (h : serverAnswers e.request s e.answer s') (hrecomputes : ¬ ServerEvent.Recomputes e) :
    s'.progress.recomputing = s.progress.recomputing := by
  rw [h.2.2]
  obtain ⟨request, answer⟩ := e
  cases request with
  | other request => cases request <;> rfl
  | readRows => exact absurd trivial hrecomputes
  | writeCounters rows => exact absurd trivial hrecomputes
  | _ => rfl

/-- An idle event changes nothing that is counted. -/
theorem idle_after (h : serverAnswers e.request s e.answer s') (hidle : ServerEvent.Idle leaf e)
    (hrecomputes : ¬ ServerEvent.Recomputes e) (hunique : Dict.Unique s.progress.rows)
    (houtside : ∀ k, SettledAt k s.progress.rows → leaf k) :
    tally s'.progress.rows = tally s.progress.rows ∧ s'.progress.counters.counted = s.progress.counters.counted := by
  obtain ⟨-, hallows, hafter⟩ := h
  rw [hafter]
  obtain ⟨request, answer⟩ := e
  cases request with
  | other request =>
    cases request with
    | increment deltas => exact ⟨rfl, counted_add hidle⟩
    | _ => exact ⟨rfl, rfl⟩
  | findRow k =>
    refine ⟨?_, rfl⟩
    simp only [Progress.after, foundRows]
    split
    · rename_i hnone
      refine tally_set hunique rfl ?_
      simp [SettledAt, rowStatus, hnone]
    · rfl
  | ensureRow k =>
    refine ⟨?_, rfl⟩
    have hstatus : answer = _ := hallows
    simp only [Progress.after]
    cases hrow : s.progress.rows.lookup k with
    | none => exact tally_set hunique rfl (by simp [SettledAt, rowStatus, hrow])
    | some row =>
      rw [hrow] at hstatus
      simp only [ensuredRow] at hstatus ⊢
      split
      · rw [Dict.set_of_lookup hrow]
      · rename_i hterminal
        rw [if_neg hterminal] at hstatus
        refine tally_set hunique rfl fun hsettled => ?_
        have hterminal' := hidle (houtside k hsettled)
        rw [hstatus] at hterminal'
        cases hterminal'
  | updateRow k status ids =>
    refine ⟨?_, rfl⟩
    simp only [Progress.after, updatedRows]
    split
    · rfl
    · exact tally_set hunique hidle.2 fun hsettled => hidle.1 (houtside k hsettled)
  | readRows => exact absurd trivial hrecomputes
  | writeCounters rows => exact absurd trivial hrecomputes
  | _ => exact ⟨rfl, rfl⟩

end

end YiQiao
