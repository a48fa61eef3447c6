import Mathlib.Algebra.BigOperators.Ring.Finset
import YiQiao.Import.Descent
import YiQiao.Import.Reckoning

/-!
# The totals of a run

The total of a job is the number of its leaves; what was processed are the leaves with different keys. They are the same
if and only if no key was processed twice.
-/

namespace YiQiao

open Lib

/-! ## The groups that are taken -/

/-- The event asks the queue for a group. -/
def servedGroup : ServerEvent → Option (Option ConversationGroup)
  | ⟨.other .nextGroup, answer⟩ => some answer
  | _ => none

theorem servedGroup_takes : Takes serverAnswers HookedState.queue servedGroup := by
  intro e s s' h
  obtain ⟨hqueue, -, -⟩ := h
  obtain ⟨request, answer⟩ := e
  cases request with
  | other request =>
    cases request with
    | nextGroup => exact hqueue
    | _ => exact hqueue
  | _ => exact hqueue

theorem ServedPiece.taken {request : ImportRequest} {answer : request.Answer} {piece : List ServerEvent}
    (h : ServedPiece request answer piece) : Lib.taken servedGroup piece = (takenGroup ⟨request, answer⟩).join.toList := by
  have hrecounted : ∀ rows, ∀ e ∈ recounted rows, servedGroup e = none := by
    intro rows e he
    rcases List.mem_pair.mp he with rfl | rfl <;> rfl
  cases h with
  | claim payload h =>
    refine taken_nil_of fun e he => ?_
    cases h with
    | resumed =>
      cases List.mem_singleton.mp he
      rfl
    | recorded status claim memoryIds rows =>
      simp only [List.mem_cons] at he
      rcases he with rfl | rfl | rfl | he
      · rfl
      · rfl
      · rfl
      · exact hrecounted rows e (by simpa [recounted] using he)
    | answered _ h =>
      have hclaiming := h e he
      obtain ⟨request, answer⟩ := e
      cases request with
      | other => exact hclaiming.elim
      | _ => rfl
  | update hrest =>
    refine taken_nil_of fun e he => ?_
    simp only [List.mem_cons] at he
    rcases he with rfl | rfl | rfl | he
    · rfl
    · rfl
    · rfl
    · split at hrest
      · obtain ⟨rows, rfl⟩ := hrest
        exact hrecounted rows e he
      · rw [hrest] at he
        cases he
  | store => rfl
  | other =>
    rw [taken_cons]
    cases request with
    | nextGroup => exact List.append_nil _
    | _ => rfl

theorem serves_taken {events : List ImportEvent} {trace : List ServerEvent} (h : Program.Serves serve events trace) :
    Lib.taken servedGroup trace = Lib.taken takenGroup events := by
  induction h with
  | nil => rfl
  | cons hpiece _ ih => rw [taken_append, taken_cons, ih, (run_serve hpiece).taken]

/-- The worker that finds the queue empty is served by it. -/
theorem serves_takes_none {events : List ImportEvent} {trace : List ServerEvent} (h : Program.Serves serve events trace)
    (hnone : ∃ e ∈ events, takenGroup e = some none) : ∃ e ∈ trace, servedGroup e = some none := by
  induction h with
  | nil => simp at hnone
  | @cons request answer _ piece rest hpiece _ ih =>
    obtain ⟨e, he, htook⟩ := hnone
    rcases List.mem_cons.mp he with rfl | he
    · cases request with
      | nextGroup =>
        rw [run_serve_other rfl hpiece]
        exact ⟨_, List.mem_append_left _ (List.mem_singleton_self _), htook⟩
      | _ => cases htook
    · obtain ⟨e', he', htook⟩ := ih ⟨e, he, htook⟩
      exact ⟨e', List.mem_append_right _ he', htook⟩

theorem groupPlaces_length (groups : List ConversationGroup) :
    (groups.flatMap groupPlaces).length = (groups.flatten.map fun item => item.2.length).sum := by
  induction groups with
  | nil => rfl
  | cons group groups ih =>
    rw [List.flatMap_cons, List.length_append, ih, List.flatten_cons, List.map_append, List.sum_append, groupPlaces,
      List.length_flatMap]
    simp [placesFrom]

/-! ## The total -/

/-- What the traces have still to add to the total. -/
def totalAhead (traces : List (List ServerEvent)) : Int := (traces.flatMap fun trace => trace.map ServerEvent.total).sum

theorem total_after {e : ServerEvent} {s s' : HookedState} (h : serverAnswers e.request s e.answer s') :
    s'.progress.counters.totalChunks = s.progress.counters.totalChunks + e.total := by
  rw [h.2.2]
  obtain ⟨request, answer⟩ := e
  cases request with
  | other request => cases request <;> simp [Progress.after, ServerEvent.total, JobCounters.add]
  | _ => simp [Progress.after, ServerEvent.total, recount]

theorem totalAhead_step {traces : List (List ServerEvent)} {i : Nat} {e : ServerEvent} {rest : List ServerEvent}
    (hi : traces[i]? = some (e :: rest)) : totalAhead traces = e.total + totalAhead (traces.set i rest) := by
  have hperm := flatMap_set (f := fun trace => trace.map ServerEvent.total) (b := [e.total]) hi rfl
  rw [totalAhead, hperm.sum_eq, List.singleton_append, List.sum_cons, totalAhead]

theorem totalAhead_ended {traces : List (List ServerEvent)} (h : ∀ trace ∈ traces, trace = []) : totalAhead traces = 0 := by
  have hnil : traces.flatMap (fun trace => trace.map ServerEvent.total) = [] := by
    rw [List.flatMap_eq_nil_iff]
    intro trace htrace
    rw [h trace htrace, List.map_nil]
  rw [totalAhead, hnil, List.sum_nil]

/-- No increment of the total is lost, however the workers take turns. -/
theorem total_of_turns {traces : List (List ServerEvent)} {s last : HookedState}
    (h : Interleaved serverAnswers traces s last) :
    last.progress.counters.totalChunks = s.progress.counters.totalChunks + totalAhead traces := by
  obtain ⟨ended, hended, -, hlast⟩ := h.invariant
    (I := fun ahead t => t.progress.counters.totalChunks + totalAhead ahead =
      s.progress.counters.totalChunks + totalAhead traces) rfl fun ahead t i e rest t' hinv hi hanswer => by
        rw [totalAhead_step hi] at hinv
        rw [total_after hanswer]
        omega
  rw [← hlast, totalAhead_ended hended, add_zero]

/-! ## The rows in the end -/

section

variable {rows : List (String × ProgressRow)}

theorem settledAt_iff (hunique : Dict.Unique rows) {key : String} :
    SettledAt key rows ↔ key ∈ (rows.filter fun row => row.2.status.settles).map Prod.fst := by
  rw [SettledAt, rowStatus, Option.any_map]
  constructor
  · intro h
    cases hrow : rows.lookup key with
    | none =>
      rw [hrow] at h
      cases h
    | some row =>
      rw [hrow] at h
      exact List.mem_map.mpr ⟨(key, row), List.mem_filter.mpr ⟨Dict.mem_of_lookup hrow, h⟩, rfl⟩
  · intro h
    obtain ⟨⟨k, row⟩, hmem, rfl⟩ := List.mem_map.mp h
    obtain ⟨hrow, hsettles⟩ := List.mem_filter.mp hmem
    rw [(Dict.mem_iff_lookup hunique).mp hrow]
    exact hsettles

theorem tally_processed : (tally rows).processedChunks = ((rows.filter fun row => row.2.status.settles).length : Int) := by
  show ((rowsOf .succeeded rows).length + (rowsOf .skipped rows).length + (rowsOf .failed rows).length : Int) = _
  induction rows with
  | nil => rfl
  | cons row rows ih =>
    simp only [rowsOf, List.filter_cons] at ih ⊢
    cases hstatus : row.2.status <;> simp [RecordStatus.settles] at ih ⊢ <;> omega

/-- There are as many settled rows as keys of leaves. -/
theorem settled_length (hunique : Dict.Unique rows) {leaves : List String} (h : ∀ k, SettledAt k rows ↔ k ∈ leaves) :
    (rows.filter fun row => row.2.status.settles).length = leaves.dedup.length := by
  rw [← List.length_map (f := Prod.fst)]
  refine List.Perm.length_eq ((List.perm_ext_iff_of_nodup ?_ (List.nodup_dedup _)).mpr fun k => ?_)
  · exact hunique.sublist (List.filter_sublist.map _)
  · rw [← settledAt_iff hunique, h, List.mem_dedup]

end

/-! ## Runs -/

section

variable {I : Importer} {options : RunOptions} {conversations : List Conversation}

/-- Nothing stopped the run. -/
def ServerRun.Quiet (run : ServerRun I options conversations) : Prop :=
  ∀ trace ∈ run.traces, ∀ e ∈ trace, ServerEvent.Quiet e

/-- The traces of the run, each with the keys that were handled in it. -/
def ServerRun.Handles (run : ServerRun I options conversations) (parts : List (List (String × Bool) × List ServerEvent)) :
    Prop :=
  parts.map Prod.snd = run.traces ∧
    ∀ part ∈ parts, Handled I options run.existingKeys run.superseded part.1 part.2

/-- No key is one of a leaf and one of a split chunk, and no other rows than those of the leaves were settled before. -/
structure ServerRun.Apart (run : ServerRun I options conversations) (keys : List (String × Bool)) : Prop where
  leaves : (leafKeys keys).Disjoint (splitKeys keys)
  before : ∀ k, SettledAt k run.rows → k ∈ leafKeys keys

/-- The counters agree with the rows, and they say that as many chunks were processed as leaves have different keys. -/
structure JobCounters.AgreeWith (counters : JobCounters) (rows : List (String × ProgressRow)) (leaves : List String) :
    Prop where
  counted : counters.counted = tally rows
  summed : counters.processedChunks = counters.importedChunks + counters.skippedChunks + counters.failedChunks
  processed : counters.processedChunks = leaves.dedup.length
  complete : counters.processedChunks = counters.totalChunks ↔ leaves.Nodup

variable {run : ServerRun I options conversations}

/-- What a worker of a run handled. -/
theorem ServerRun.handled (hquiet : run.Quiet) : ∀ trace ∈ run.traces, (∃ keys, HandledFrom I options run.existingKeys
    run.superseded ((Lib.taken servedGroup trace).flatMap groupPlaces).length keys trace) ∧
      ∃ e ∈ trace, servedGroup e = some none := by
  intro trace htrace
  obtain ⟨events, hrun, hserves⟩ := Program.run_served.mp (run.returned trace htrace)
  obtain ⟨⟨forest, hwoven, hplaces⟩, hnone⟩ := worker_woven _ events () hrun (serves_quiet hserves (hquiet trace htrace))
  refine ⟨?_, serves_takes_none hserves hnone⟩
  rw [serves_taken hserves, ← hplaces, List.length_map]
  exact hwoven.handled hserves

/-- The workers take every group. -/
theorem ServerRun.roots (hquiet : run.Quiet) :
    (run.traces.flatMap fun trace => (Lib.taken servedGroup trace).flatMap groupPlaces).length =
      (run.prepared.map fun item => item.2.length).sum := by
  have hne : run.traces ≠ [] := by
    intro hnil
    have hworkers := run.workers
    rw [hnil] at hworkers
    exact absurd hworkers.symm (Nat.ne_of_gt options.workers_pos)
  have hleft := run.turns.taken_all servedGroup_takes (fun trace htrace => (run.handled hquiet trace htrace).2) hne
  have htaken := run.turns.taken_perm servedGroup_takes
  rw [hleft, List.append_nil] at htaken
  rw [← List.flatMap_assoc, groupPlaces_length]
  exact ((htaken.symm.flatten.trans (conversationGroups_perm run.prepared)).map _).sum_eq

/-- The traces of a run, one by one. -/
theorem ServerRun.exists_handled (hquiet : run.Quiet) {traces : List (List ServerEvent)} (h : traces ⊆ run.traces) :
    ∃ parts : List (List (String × Bool) × List ServerEvent), parts.map Prod.snd = traces ∧
      (∀ part ∈ parts, Handled I options run.existingKeys run.superseded part.1 part.2) ∧
      (leafKeys (parts.flatMap Prod.fst)).length = (splitKeys (parts.flatMap Prod.fst)).length +
        (traces.flatMap fun trace => (Lib.taken servedGroup trace).flatMap groupPlaces).length ∧
      totalAhead traces = (splitKeys (parts.flatMap Prod.fst)).length := by
  induction traces with
  | nil => exact ⟨[], rfl, by simp, rfl, rfl⟩
  | cons trace traces ih =>
    obtain ⟨htrace, hrest⟩ := List.cons_subset.mp h
    obtain ⟨parts, rfl, hparts, hleaves, htotal⟩ := ih hrest
    obtain ⟨⟨keys, hkeys, hcount⟩, -⟩ := run.handled hquiet trace htrace
    refine ⟨(keys, trace) :: parts, rfl, List.forall_mem_cons.mpr ⟨hkeys, hparts⟩, ?_, ?_⟩
    · simp only [List.flatMap_cons, leafKeys_append, splitKeys_append, List.length_append] at hleaves ⊢
      omega
    · rw [totalAhead, List.flatMap_cons, List.sum_append, hkeys.total (hquiet trace htrace), ← totalAhead, htotal,
        List.flatMap_cons, splitKeys_append, List.length_append, Nat.cast_add]

/-- What holds when the workers start. -/
theorem ServerRun.accounted (hquiet : run.Quiet) {parts : List (List (String × Bool) × List ServerEvent)}
    (hhandles : run.Handles parts) (hapart : run.Apart (parts.flatMap Prod.fst)) :
    Accounted (· ∈ leafKeys (parts.flatMap Prod.fst)) run.traces
      ⟨conversationGroups run.prepared, Progress.start run.rows run.counters run.prepared⟩ := by
  obtain ⟨htraces, hhandled⟩ := hhandles
  have haccountable : ∀ trace ∈ run.traces, Accountable (· ∈ leafKeys (parts.flatMap Prod.fst)) trace := by
    intro trace htrace
    rw [← htraces] at htrace
    obtain ⟨part, hpart, rfl⟩ := List.mem_map.mp htrace
    have hkeys : part.1 ⊆ parts.flatMap Prod.fst := fun k hk => List.mem_flatMap.mpr ⟨part, hpart, hk⟩
    rw [htraces] at htrace
    refine (hhandled part hpart).accountable (hquiet _ htrace) (fun k hk => ?_) fun k hk hleaf => hapart.leaves hleaf ?_
    · exact mem_leafKeys.mpr (hkeys (mem_leafKeys.mp hk))
    · exact mem_splitKeys.mpr (hkeys (mem_splitKeys.mp hk))
  exact {
    unique := run.rows_unique
    outside := hapart.before
    redeemed := fun trace htrace => (haccountable trace htrace).redeemed
    closed := fun trace htrace => (haccountable trace htrace).closed
    marks := fun trace htrace => (haccountable trace htrace).marks
    founded := fun trace htrace => (haccountable trace htrace).founded.mono fun _ => False.elim
    settled := by
      intro k hk
      obtain ⟨part, hpart, hk⟩ := List.mem_flatMap.mp (mem_leafKeys.mp hk)
      have htrace : part.2 ∈ run.traces := by
        rw [← htraces]
        exact List.mem_map_of_mem hpart
      exact .inr ⟨part.2, htrace, (hhandled part hpart).closes (hquiet _ htrace) k (mem_leafKeys.mpr hk)⟩
    fresh := ⟨none, .free fun trace htrace => (haccountable trace htrace).writesBack, .inr (.inr rfl)⟩ }

/-- What is left when all workers have returned. -/
theorem Accounted.ended {leaf : String → Prop} {traces : List (List ServerEvent)} {s : HookedState}
    (h : Accounted leaf traces s) (hended : ∀ trace ∈ traces, trace = []) :
    s.progress.counters.counted = tally s.progress.rows ∧ ∀ k, SettledAt k s.progress.rows ↔ leaf k := by
  constructor
  · obtain ⟨written, hlocked, hfresh⟩ := h.fresh
    generalize s.progress.recomputing = held at hlocked
    have hwritten : written = none := by
      cases hlocked with
      | free => rfl
      | held hi => cases hended _ (List.mem_of_getElem? hi)
    subst hwritten
    rcases hfresh with hreads | ⟨k, -, -, hresumes⟩ | hdue
    · exact absurd hreads (not_ahead_of_ended hended)
    · exact absurd hresumes (not_ahead_of_ended hended)
    · exact hdue
  · exact fun k => ⟨h.outside k, fun hk => (h.settled k hk).resolve_right (not_ahead_of_ended hended)⟩

/-- In a run that nothing stops, the total is the number of the leaves, the prepared chunks and one for each split. Where
keys are apart, the counters agree with the rows in the end, and all leaves are processed if and only if no key is
processed twice. -/
theorem counters_of_run (run : ServerRun I options conversations) (hquiet : run.Quiet) :
    ∃ parts, run.Handles parts ∧
      run.last.progress.counters.totalChunks = (leafKeys (parts.flatMap Prod.fst)).length ∧
      (leafKeys (parts.flatMap Prod.fst)).length =
        (splitKeys (parts.flatMap Prod.fst)).length + (run.prepared.map fun item => item.2.length).sum ∧
      (run.Apart (parts.flatMap Prod.fst) →
        run.last.progress.counters.AgreeWith run.last.progress.rows (leafKeys (parts.flatMap Prod.fst))) := by
  obtain ⟨parts, htraces, hhandled, hleaves, hsplits⟩ := run.exists_handled hquiet (List.Subset.refl _)
  rw [run.roots hquiet] at hleaves
  have htotal : run.last.progress.counters.totalChunks = (leafKeys (parts.flatMap Prod.fst)).length := by
    rw [total_of_turns run.turns, hsplits, hleaves, Progress.start, Nat.cast_add, Nat.cast_list_sum, List.map_map, add_comm]
    rfl
  refine ⟨parts, ⟨htraces, hhandled⟩, htotal, hleaves, fun hapart => ?_⟩
  obtain ⟨ended, hended, -, hlast⟩ := run.turns.invariant (run.accounted hquiet ⟨htraces, hhandled⟩ hapart)
    fun _ _ _ _ _ _ h hi hanswer => h.step hi hanswer
  obtain ⟨hcounted, hsettled⟩ := hlast.ended hended
  have hprocessed : run.last.progress.counters.processedChunks = (leafKeys (parts.flatMap Prod.fst)).dedup.length := by
    rw [← settled_length hlast.unique hsettled, ← tally_processed, ← hcounted]
    rfl
  refine ⟨hcounted, ?_, hprocessed, ?_⟩
  · have hsummed : (tally run.last.progress.rows).processedChunks = (tally run.last.progress.rows).importedChunks +
        (tally run.last.progress.rows).skippedChunks + (tally run.last.progress.rows).failedChunks := rfl
    rw [← hcounted] at hsummed
    exact hsummed
  · rw [hprocessed, htotal, Nat.cast_inj]
    refine ⟨fun h => ?_, fun h => by rw [h.dedup]⟩
    exact List.dedup_eq_self.mp ((List.dedup_sublist _).eq_of_length h)

end

/-! ### One chunk that is stored -/

/-- The program ends with a result after answers that this state and those after it give. -/
def Plays {α : Type} (p : ServerProgram α) (s : HookedState) (a : α) : Prop :=
  ∃ trace last, p.Run trace a ∧ (∀ e ∈ trace, ServerEvent.Quiet e) ∧ Lib.Follows serverAnswers trace s last

theorem plays_ask {α : Type} {a : α} {request : ServerRequest} {f : request.Answer → ServerProgram α} {s : HookedState}
    (answer : request.Answer) {queue : List ConversationGroup} (hqueue : fromServerQueue request s.queue answer queue)
    (hallows : s.progress.Allows request answer) (hquiet : ServerEvent.Quiet ⟨request, answer⟩)
    (h : Plays (f answer) ⟨queue, s.progress.after request⟩ a) : Plays (Program.ask (E := serverInterface) request f) s a := by
  obtain ⟨trace, last, hrun, hquiets, hfollows⟩ := h
  exact ⟨_, last, .ask answer hrun, List.forall_mem_cons.mpr ⟨hquiet, hquiets⟩, .cons ⟨hqueue, hallows, rfl⟩ hfollows⟩

def talkSetup : ImportSetup namedImporter oneWorker serverHooks [talk "Talk"] where
  statuses := fun _ => none
  initial := [(talk "Talk", [talkChunk])]
  initial_ok := initialChunks_talk "Talk"
  prepared := [(talk "Talk", [talkChunk])]
  superseded := []
  prepared_ok := by rfl
  loaded := []
  loaded_none := fun _ => rfl

/-- The chunk of the conversation is claimed and stored. -/
theorem plays_talk : Plays (talkSetup.worker.served serve)
    ⟨conversationGroups talkSetup.prepared, Progress.start [] noCounters talkSetup.prepared⟩ () := by
  refine plays_ask false rfl trivial rfl ?_
  refine plays_ask (some _) ⟨rfl, rfl⟩ trivial trivial ?_
  refine plays_ask false rfl trivial rfl ?_
  refine plays_ask false rfl trivial rfl ?_
  -- the claim
  refine plays_ask false rfl trivial rfl ?_
  refine plays_ask .pending rfl (by rfl) trivial ?_
  refine plays_ask (.claimed 1) rfl trivial trivial ?_
  -- the attempt
  refine plays_ask false rfl trivial rfl ?_
  refine plays_ask () rfl trivial trivial ?_
  refine plays_ask () rfl trivial trivial ?_
  refine plays_ask () rfl trivial trivial ?_
  refine plays_ask () rfl trivial trivial ?_
  refine plays_ask (.stored ⟨["m"], [], 1⟩) rfl trivial nofun ?_
  refine plays_ask false rfl trivial rfl ?_
  refine plays_ask () rfl trivial trivial ?_
  -- the update, and the rows that are counted after it
  refine plays_ask () rfl trivial trivial ?_
  refine plays_ask () rfl trivial trivial ?_
  refine plays_ask () rfl trivial trivial ?_
  refine plays_ask _ rfl ⟨rfl, rfl⟩ trivial ?_
  refine plays_ask () rfl trivial trivial ?_
  refine plays_ask false rfl trivial rfl ?_
  refine plays_ask none ⟨rfl, rfl⟩ trivial trivial ?_
  exact ⟨[], _, .done (), by simp, .nil _⟩

theorem exists_talkRun : ∃ run : ServerRun namedImporter oneWorker [talk "Talk"], run.Quiet := by
  obtain ⟨trace, last, hrun, hquiet, hfollows⟩ := plays_talk
  refine ⟨{ talkSetup with
    rows := []
    rows_unique := List.nodup_nil
    counters := noCounters
    traces := [trace]
    workers := rfl
    returned := by simpa using hrun
    last := last
    turns := .first hfollows (.refl (by simp) last) }, ?_⟩
  simpa [ServerRun.Quiet] using hquiet

theorem counters_of_run_talk : ∃ run : ServerRun namedImporter oneWorker [talk "Talk"], run.Quiet ∧
    ∃ parts, run.Handles parts ∧
      run.last.progress.counters.totalChunks = (leafKeys (parts.flatMap Prod.fst)).length ∧
      (leafKeys (parts.flatMap Prod.fst)).length =
        (splitKeys (parts.flatMap Prod.fst)).length + (run.prepared.map fun item => item.2.length).sum ∧
      (run.Apart (parts.flatMap Prod.fst) →
        run.last.progress.counters.AgreeWith run.last.progress.rows (leafKeys (parts.flatMap Prod.fst))) := by
  obtain ⟨run, hquiet⟩ := exists_talkRun
  exact ⟨run, hquiet, counters_of_run run hquiet⟩

end YiQiao
