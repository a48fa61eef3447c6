import YiQiao.Import.Counters

/-!
# The reckoning of a run

What holds after every event of a run that nothing stops, and what is left of it when all workers have returned.
-/

namespace YiQiao

open Lib

/-! ## The lock -/

/-- The lock is free, or one trace writes these rows next. -/
inductive Locked (traces : List (List ServerEvent)) : Bool → Option (List (String × ProgressRow)) → Prop where
  | free (h : ∀ trace ∈ traces, WritesBack trace) : Locked traces false none
  | held {i : Nat} {rows : List (String × ProgressRow)} {rest : List ServerEvent}
      (hi : traces[i]? = some (⟨.writeCounters rows, ()⟩ :: rest)) (hrest : WritesBack rest)
      (hothers : ∀ j trace, j ≠ i → traces[j]? = some trace → WritesBack trace) : Locked traces true (some rows)

/-- What is counted once the lock is free. -/
def dueTally (written : Option (List (String × ProgressRow))) (counters : JobCounters) : JobCounters :=
  match written with
  | none => counters.counted
  | some rows => tally rows

section

variable {traces : List (List ServerEvent)} {held : Bool} {written : Option (List (String × ProgressRow))} {i : Nat}
  {e : ServerEvent} {rest : List ServerEvent} {rows : List (String × ProgressRow)}

theorem WritesBack.tail (h : WritesBack (e :: rest)) (he : ¬ ServerEvent.Recomputes e) : WritesBack rest := by
  cases h with
  | plain _ h => exact h
  | recount rows h => exact absurd trivial he

theorem WritesBack.read (h : WritesBack (⟨.readRows, rows⟩ :: rest)) :
    ∃ after, rest = ⟨.writeCounters rows, ()⟩ :: after ∧ WritesBack after := by
  cases h with
  | plain he _ => exact absurd trivial he
  | recount rows h => exact ⟨_, rfl, h⟩

theorem not_writesBack_write {u : Unit} : ¬ WritesBack (⟨.writeCounters rows, u⟩ :: rest) := by
  intro h
  cases h with
  | plain he _ => exact he trivial

theorem Locked.keep (h : Locked traces held written) (hi : traces[i]? = some (e :: rest))
    (he : ¬ ServerEvent.Recomputes e) : Locked (traces.set i rest) held written := by
  cases h with
  | free h => exact .free (forall_set_rest h hi fun hwrites => hwrites.tail he)
  | @held k rows rest' hk hrest hothers =>
    have hne : i ≠ k := by
      rintro rfl
      rw [hi] at hk
      cases hk
      exact he trivial
    refine .held (i := k) (by rw [List.getElem?_set_ne hne, hk]) hrest fun j trace hj htrace => ?_
    by_cases hij : i = j
    · subst hij
      rw [List.getElem?_set_self (List.getElem?_eq_some_iff.mp hi).1] at htrace
      cases htrace
      exact (hothers i _ hj hi).tail he
    · rw [List.getElem?_set_ne hij] at htrace
      exact hothers j trace hj htrace

theorem Locked.read (h : Locked traces false written) (hi : traces[i]? = some (⟨.readRows, rows⟩ :: rest)) :
    Locked (traces.set i rest) true (some rows) := by
  cases h with
  | free h =>
    obtain ⟨after, rfl, hafter⟩ := (h _ (List.mem_of_getElem? hi)).read
    refine .held (i := i) (List.getElem?_set_self (List.getElem?_eq_some_iff.mp hi).1) hafter fun j trace hj htrace => ?_
    rw [List.getElem?_set_ne (Ne.symm hj)] at htrace
    exact h trace (List.mem_of_getElem? htrace)

theorem Locked.write {u : Unit} (h : Locked traces held written)
    (hi : traces[i]? = some (⟨.writeCounters rows, u⟩ :: rest)) :
    written = some rows ∧ Locked (traces.set i rest) false none := by
  cases h with
  | free h => exact absurd (h _ (List.mem_of_getElem? hi)) not_writesBack_write
  | @held k rows' rest' hk hrest hothers =>
    by_cases hik : i = k
    · subst hik
      rw [hi] at hk
      cases hk
      refine ⟨rfl, .free fun trace htrace => ?_⟩
      obtain ⟨j, hj⟩ := List.getElem?_of_mem htrace
      by_cases hij : i = j
      · subst hij
        rw [List.getElem?_set_self (List.getElem?_eq_some_iff.mp hi).1] at hj
        cases hj
        exact hrest
      · rw [List.getElem?_set_ne hij] at hj
        exact hothers j trace (Ne.symm hij) hj
    · exact absurd (hothers i _ hik hi) not_writesBack_write

end

/-! ## What holds after every event -/

section

variable (leaf : String → Prop)

/-- The counters agree with the rows, as soon as the lock is free, or they will: some worker has still to recount, or to
find a row settled that is not. -/
def Fresh (traces : List (List ServerEvent)) (written : Option (List (String × ProgressRow))) (s : Progress) : Prop :=
  Ahead ServerEvent.Reads traces ∨
  (∃ k, leaf k ∧ ¬ SettledAt k s.rows ∧ Ahead (ServerEvent.Resumes k) traces) ∨
  dueTally written s.counters = tally s.rows

structure Accounted (traces : List (List ServerEvent)) (s : HookedState) : Prop where
  unique : Dict.Unique s.progress.rows
  outside : ∀ k, SettledAt k s.progress.rows → leaf k
  redeemed : ∀ trace ∈ traces, EachThen (Redeemed leaf) trace
  closed : ∀ trace ∈ traces, EachThen (ClosedAfter leaf) trace
  marks : ∀ trace ∈ traces, ∀ e ∈ trace, ∀ k, ServerEvent.MarksRow k e → leaf k
  founded : ∀ trace ∈ traces, Founded (· ∈ s.progress.rows.map Prod.fst) trace
  settled : ∀ k, leaf k → SettledAt k s.progress.rows ∨ Ahead (ServerEvent.Closes k) traces
  fresh : ∃ written, Locked traces s.progress.recomputing written ∧ Fresh leaf traces written s.progress

end

section

variable {leaf : String → Prop} {traces : List (List ServerEvent)} {s s' : HookedState} {i : Nat} {e : ServerEvent}
  {rest : List ServerEvent}

theorem Accounted.settled_step (h : Accounted leaf traces s) (hi : traces[i]? = some (e :: rest))
    (hanswer : serverAnswers e.request s e.answer s') {k : String} (hleaf : leaf k) :
    SettledAt k s'.progress.rows ∨ Ahead (ServerEvent.Closes k) (traces.set i rest) := by
  have htrace := List.mem_of_getElem? hi
  have hfounded : Founded (· ∈ s.progress.rows.map Prod.fst) [e] := (h.founded _ htrace).head
  by_cases hkey : e.request.rowKey? = some k
  · rcases (h.closed _ htrace).1 k hkey hleaf with hcloses | hrest
    · exact .inl (settled_of_closes hanswer hcloses hfounded)
    · exact .inr (ahead_of_rest hi hrest)
  · rw [settled_still hanswer hkey]
    refine (h.settled k hleaf).imp_right fun hahead => (hahead.step hi).resolve_left fun hcloses => hkey ?_
    exact hcloses.rowKey

/-- What the rows amount to stays, or there is someone left to make it good. -/
theorem Accounted.fresh_keep (h : Accounted leaf traces s) {written : Option (List (String × ProgressRow))}
    (hfresh : Fresh leaf traces written s.progress) (hi : traces[i]? = some (e :: rest))
    (hanswer : serverAnswers e.request s e.answer s') (hrecomputes : ¬ ServerEvent.Recomputes e) :
    Fresh leaf (traces.set i rest) written s'.progress := by
  have htrace := List.mem_of_getElem? hi
  by_cases hidle : ServerEvent.Idle leaf e
  · rcases hfresh with hreads | ⟨k, hk, hunsettled, hresumes⟩ | hdue
    · exact .inl ((hreads.step hi).resolve_left fun hreads => hrecomputes hreads.recomputes)
    · refine .inr (.inl ⟨k, hk, fun hsettled => ?_, (hresumes.step hi).resolve_left fun hresumes => ?_⟩)
      · exact hunsettled (settled_before hanswer hsettled (hidle.not_marks k))
      · refine hunsettled (settled_before hanswer ?_ (hidle.not_marks k))
        exact settled_of_closes hanswer (.inr hresumes) (h.founded _ htrace).head
    · obtain ⟨htally, hcounted⟩ := idle_after hanswer hidle hrecomputes h.unique h.outside
      refine .inr (.inr ?_)
      rw [htally, ← hdue]
      cases written with
      | none => exact hcounted
      | some rows => rfl
  · rcases (h.redeemed _ htrace).1 with hredeemed | hreads | ⟨hunmarked, k, hkey, hk, hresumes⟩
    · exact absurd hredeemed hidle
    · exact .inl (ahead_of_rest hi hreads)
    · exact .inr (.inl ⟨k, hk, fun hsettled => hidle (hunmarked.idle_of_settled hanswer hkey hsettled),
        ahead_of_rest hi hresumes⟩)

theorem Accounted.fresh_step (h : Accounted leaf traces s) (hi : traces[i]? = some (e :: rest))
    (hanswer : serverAnswers e.request s e.answer s') :
    ∃ written, Locked (traces.set i rest) s'.progress.recomputing written ∧
      Fresh leaf (traces.set i rest) written s'.progress := by
  obtain ⟨written, hlocked, hfresh⟩ := h.fresh
  by_cases hrecomputes : ServerEvent.Recomputes e
  · obtain ⟨-, hallows, hafter⟩ := hanswer
    rw [hafter]
    obtain ⟨request, answer⟩ := e
    cases request with
    | readRows =>
      obtain ⟨hfree, hrows⟩ := hallows
      rw [hfree] at hlocked
      exact ⟨_, hlocked.read hi, .inr (.inr (congrArg tally hrows))⟩
    | writeCounters rows =>
      obtain ⟨rfl, hfree⟩ := hlocked.write hi
      refine ⟨none, hfree, ?_⟩
      rcases hfresh with hreads | ⟨k, hk, hunsettled, hresumes⟩ | hdue
      · exact .inl ((hreads.step hi).resolve_left id)
      · exact .inr (.inl ⟨k, hk, hunsettled, (hresumes.step hi).resolve_left id⟩)
      · exact .inr (.inr hdue)
    | _ => exact hrecomputes.elim
  · refine ⟨written, ?_, h.fresh_keep hfresh hi hanswer hrecomputes⟩
    rw [recomputing_after hanswer hrecomputes]
    exact hlocked.keep hi hrecomputes

/-- One event of a worker. -/
theorem Accounted.step (h : Accounted leaf traces s) (hi : traces[i]? = some (e :: rest))
    (hanswer : serverAnswers e.request s e.answer s') : Accounted leaf (traces.set i rest) s' where
  unique := unique_after hanswer h.unique
  outside := by
    intro k hsettled
    by_cases hmarks : ServerEvent.MarksRow k e
    · exact h.marks _ (List.mem_of_getElem? hi) e List.mem_cons_self k hmarks
    · exact h.outside k (settled_before hanswer hsettled hmarks)
  redeemed := forall_set_rest h.redeemed hi fun h => h.2
  closed := forall_set_rest h.closed hi fun h => h.2
  marks := forall_set_rest h.marks hi fun h e he => h e (List.mem_cons_of_mem _ he)
  founded := by
    intro trace htrace
    rcases List.mem_or_eq_of_mem_set htrace with htrace | rfl
    · exact (h.founded trace htrace).mono fun _ => mem_keys_after hanswer
    · exact (h.founded _ (List.mem_of_getElem? hi)).after hanswer
  settled := fun _ => h.settled_step hi hanswer
  fresh := h.fresh_step hi hanswer

end

end YiQiao
