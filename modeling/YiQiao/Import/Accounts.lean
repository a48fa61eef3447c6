import YiQiao.Lib.Sequels
import YiQiao.Import.Handled

/-!
# What is counted, and what is made good

A worker may leave the counters behind the rows for a while. Whatever it does that counts is made good by what it does
later: it recounts the rows, or it goes on only where another worker has settled the row, and that worker recounts them.
-/

namespace YiQiao

open Lib

/-! ## Events and what comes after them -/

/-- The event finds that the row has succeeded. -/
def ServerEvent.Resumes (key : String) : ServerEvent → Prop
  | ⟨.ensureRow k, status⟩ => k = key ∧ status = .succeeded
  | _ => False

/-- The event marks the row as settled. -/
def ServerEvent.MarksRow (key : String) : ServerEvent → Prop
  | ⟨.updateRow k status _, _⟩ => k = key ∧ status.settles = true
  | _ => False

def ServerEvent.Reads : ServerEvent → Prop
  | ⟨.readRows, _⟩ => True
  | _ => False

/-- The row is settled after the event. -/
def ServerEvent.Closes (key : String) (e : ServerEvent) : Prop := e.MarksRow key ∨ e.Resumes key

section

variable (leaf : String → Prop)

/-- The event changes nothing that is counted, or the rows are counted after it, or its row is found to have succeeded
after it. -/
def Redeemed (e : ServerEvent) (rest : List ServerEvent) : Prop :=
  ServerEvent.Idle leaf e ∨ (∃ e' ∈ rest, ServerEvent.Reads e') ∨
    ServerEvent.Unmarked e ∧ ∃ k ∈ e.request.rowKey?, leaf k ∧ ∃ e' ∈ rest, ServerEvent.Resumes k e'

/-- The row of a leaf that the event is about is settled by it or after it. -/
def ClosedAfter (e : ServerEvent) (rest : List ServerEvent) : Prop :=
  ∀ k ∈ e.request.rowKey?, leaf k → ServerEvent.Closes k e ∨ ∃ e' ∈ rest, ServerEvent.Closes k e'

/-- A row is looked for before it is marked, unless it is there. -/
def Founded (there : String → Prop) : List ServerEvent → Prop
  | [] => True
  | ⟨.findRow k, _⟩ :: rest | ⟨.ensureRow k, _⟩ :: rest => Founded (fun key => key = k ∨ there key) rest
  | ⟨.updateRow k _ _, _⟩ :: rest => there k ∧ Founded there rest
  | _ :: rest => Founded there rest

structure Accountable (trace : List ServerEvent) : Prop where
  redeemed : EachThen (Redeemed leaf) trace
  closed : EachThen (ClosedAfter leaf) trace
  founded : Founded (fun _ => False) trace
  marks : ∀ e ∈ trace, ∀ k, ServerEvent.MarksRow k e → leaf k
  writesBack : WritesBack trace

end

section

variable {leaf : String → Prop} {key : String} {e : ServerEvent} {xs ys trace : List ServerEvent}

theorem Redeemed.grow {rest more : List ServerEvent} (h : Redeemed leaf e rest) : Redeemed leaf e (rest ++ more) := by
  rcases h with h | ⟨e', he', h⟩ | ⟨hunmarked, k, hk, hleaf, e', he', h⟩
  · exact .inl h
  · exact .inr (.inl ⟨e', List.mem_append_left _ he', h⟩)
  · exact .inr (.inr ⟨hunmarked, k, hk, hleaf, e', List.mem_append_left _ he', h⟩)

theorem ClosedAfter.grow {rest more : List ServerEvent} (h : ClosedAfter leaf e rest) : ClosedAfter leaf e (rest ++ more) := by
  intro k hk hleaf
  exact (h k hk hleaf).imp_right fun ⟨e', he', h⟩ => ⟨e', List.mem_append_left _ he', h⟩

theorem Founded.mono {there more : String → Prop} (h : Founded there trace) (hmore : ∀ k, there k → more k) :
    Founded more trace := by
  induction trace generalizing there more with
  | nil => trivial
  | cons e rest ih =>
    obtain ⟨request, answer⟩ := e
    have hor : ∀ {k : String} (key : String), key = k ∨ there key → key = k ∨ more key := fun key h => h.imp_right (hmore key)
    cases request with
    | findRow k => exact ih h hor
    | ensureRow k => exact ih h hor
    | updateRow k => exact ⟨hmore k h.1, ih h.2 hmore⟩
    | _ =>
      have hrest : Founded there rest := h
      exact ih hrest hmore

theorem Founded.head {there : String → Prop} {rest : List ServerEvent} (h : Founded there (e :: rest)) :
    Founded there [e] := by
  obtain ⟨request, answer⟩ := e
  cases request with
  | updateRow k => exact ⟨h.1, trivial⟩
  | _ => trivial

theorem Founded.append {there : String → Prop} (hxs : Founded there xs) (hys : Founded there ys) :
    Founded there (xs ++ ys) := by
  induction xs generalizing there with
  | nil => exact hys
  | cons e rest ih =>
    obtain ⟨request, answer⟩ := e
    cases request with
    | findRow k => exact ih hxs (hys.mono fun key h => .inr h)
    | ensureRow k => exact ih hxs (hys.mono fun key h => .inr h)
    | updateRow k => exact ⟨hxs.1, ih hxs.2 hys⟩
    | _ =>
      have hrest : Founded there rest := hxs
      exact ih hrest hys

theorem founded_of_unmarking {there : String → Prop} (h : ∀ e ∈ trace, ∀ k status ids, e.request ≠ .updateRow k status ids) :
    Founded there trace := by
  induction trace generalizing there with
  | nil => trivial
  | cons e rest ih =>
    obtain ⟨he, hrest⟩ := List.forall_mem_cons.mp h
    obtain ⟨request, answer⟩ := e
    cases request with
    | updateRow k status ids => exact absurd rfl (he k status ids)
    | _ => exact ih hrest

theorem Accountable.append (hxs : Accountable leaf xs) (hys : Accountable leaf ys) : Accountable leaf (xs ++ ys) where
  redeemed := hxs.redeemed.append (fun _ _ _ => Redeemed.grow) hys.redeemed
  closed := hxs.closed.append (fun _ _ _ => ClosedAfter.grow) hys.closed
  founded := hxs.founded.append hys.founded
  marks := List.forall_mem_append.mpr ⟨hxs.marks, hys.marks⟩
  writesBack := hxs.writesBack.append hys.writesBack

theorem ServerEvent.Resumes.rowKey (h : ServerEvent.Resumes key e) : e.request.rowKey? = some key := by
  obtain ⟨request, answer⟩ := e
  cases request with
  | ensureRow k => exact congrArg some h.1
  | _ => exact h.elim

theorem ServerEvent.Closes.rowKey (h : ServerEvent.Closes key e) : e.request.rowKey? = some key := by
  refine h.elim (fun hmarks => ?_) ServerEvent.Resumes.rowKey
  obtain ⟨request, answer⟩ := e
  cases request with
  | updateRow k => exact congrArg some hmarks.1
  | _ => exact hmarks.elim

theorem ServerEvent.Reads.recomputes (h : ServerEvent.Reads e) : ServerEvent.Recomputes e := by
  obtain ⟨request, answer⟩ := e
  cases request with
  | readRows => trivial
  | _ => exact h.elim

theorem ServerEvent.Idle.not_marks (h : ServerEvent.Idle leaf e) (k : String) : ¬ ServerEvent.MarksRow k e := by
  intro hmarks
  obtain ⟨request, answer⟩ := e
  cases request with
  | updateRow k status ids =>
    have hsettles : status.settles = true := hmarks.2
    rw [show status.settles = false from h.2] at hsettles
    cases hsettles
  | _ => exact hmarks

theorem ServerEvent.Unmarked.idle (h : ServerEvent.Unmarked e) (hother : ∀ k ∈ e.request.rowKey?, ¬ leaf k) :
    ServerEvent.Idle leaf e := by
  obtain ⟨request, answer⟩ := e
  cases request with
  | other request =>
    cases request with
    | increment deltas => exact h
    | _ => trivial
  | updateRow k status ids => exact ⟨hother k rfl, h⟩
  | ensureRow k => exact fun hleaf => absurd hleaf (hother k rfl)
  | _ => trivial

theorem ServerEvent.Unmarked.not_marks (h : ServerEvent.Unmarked e) (k : String) : ¬ ServerEvent.MarksRow k e := by
  intro hmarks
  obtain ⟨request, answer⟩ := e
  cases request with
  | updateRow k status ids =>
    have hsettles : status.settles = true := hmarks.2
    rw [show status.settles = false from h] at hsettles
    cases hsettles
  | _ => exact hmarks

/-- Events that mark nothing, about rows of no leaf. -/
theorem accountable_of_unmarked (hunmarked : ∀ e ∈ trace, ServerEvent.Unmarked e)
    (hother : ∀ e ∈ trace, ∀ k ∈ e.request.rowKey?, ¬ leaf k) (hfounded : Founded (fun _ => False) trace)
    (hwrites : WritesBack trace) : Accountable leaf trace where
  redeemed := eachThen_of_forall fun e he _ => .inl ((hunmarked e he).idle (hother e he))
  closed := eachThen_of_forall fun e he _ k hk hleaf => absurd hleaf (hother e he k hk)
  founded := hfounded
  marks := fun e he k hmarks => absurd hmarks ((hunmarked e he).not_marks k)
  writesBack := hwrites

theorem accountable_one (hunmarked : ServerEvent.Unmarked e) (hother : e.request.rowKey? = none)
    (hfounded : Founded (fun _ => False) [e]) (hwrites : ¬ ServerEvent.Recomputes e) : Accountable leaf [e] :=
  accountable_of_unmarked (by simpa using hunmarked) (by simp [hother]) hfounded (.plain hwrites .nil)

theorem ClosesRow.exists_closes (h : ClosesRow key trace) : ∃ e ∈ trace, ServerEvent.Closes key e := by
  cases h with
  | resumed hunmarked => exact ⟨⟨.ensureRow key, .succeeded⟩, by simp, .inr ⟨rfl, rfl⟩⟩
  | @marked before status memoryIds rows hsettles =>
    exact ⟨⟨.updateRow key status memoryIds, ()⟩, by simp, .inl ⟨rfl, hsettles⟩⟩

theorem exists_closes_of_suffix {final rest : List ServerEvent} (hfinal : ∃ e ∈ final, ServerEvent.Closes key e)
    (h : final ⊆ rest) : ∃ e ∈ rest, ServerEvent.Closes key e := by
  obtain ⟨e, he, hcloses⟩ := hfinal
  exact ⟨e, h he, hcloses⟩

theorem ClosesRow.closed (h : ClosesRow key trace) (habout : ∀ e ∈ trace, ∀ k ∈ e.request.rowKey?, k = key) :
    EachThen (ClosedAfter leaf) trace := by
  cases h with
  | resumed hunmarked =>
    refine EachThen.before ⟨fun k hk _ => ?_, trivial⟩ fun e he rest hrest k hk _ => ?_
    · cases hk
      exact .inl (.inr ⟨rfl, rfl⟩)
    · cases (habout e (List.mem_append_left _ he) k hk)
      exact .inr ⟨_, hrest (List.mem_singleton_self _), .inr ⟨rfl, rfl⟩⟩
  | marked before memoryIds rows hsettles =>
    refine EachThen.before ⟨fun k hk _ => ?_, ?_⟩ fun e he rest hrest k hk _ => ?_
    · cases hk
      exact .inl (.inl ⟨rfl, hsettles⟩)
    · refine eachThen_of_forall fun e he rest k hk _ => ?_
      rw [recounted_rowKey e he] at hk
      cases hk
    · cases (habout e (List.mem_append_left _ he) k hk)
      exact .inr ⟨_, hrest List.mem_cons_self, .inl ⟨rfl, hsettles⟩⟩

theorem ClosesRow.redeemed (h : ClosesRow key trace) (hleaf : leaf key)
    (habout : ∀ e ∈ trace, ∀ k ∈ e.request.rowKey?, k = key) : EachThen (Redeemed leaf) trace := by
  cases h with
  | resumed hunmarked =>
    refine EachThen.before ⟨.inl fun _ => rfl, trivial⟩ fun e he rest hrest => ?_
    cases hkey : e.request.rowKey? with
    | none => exact .inl ((hunmarked e he).idle (by simp [hkey]))
    | some k =>
      have hk : k = key := habout e (List.mem_append_left _ he) k hkey
      subst hk
      exact .inr (.inr ⟨hunmarked e he, k, hkey, hleaf, _, hrest (List.mem_singleton_self _), rfl, rfl⟩)
  | marked before memoryIds rows hsettles =>
    have hreads : ∀ {rest}, recounted rows ⊆ rest → ∃ e' ∈ rest, ServerEvent.Reads e' :=
      fun hrest => ⟨⟨.readRows, rows⟩, hrest List.mem_cons_self, trivial⟩
    refine EachThen.before ⟨.inr (.inl (hreads (List.Subset.refl _))), ?_⟩ fun e he rest hrest => ?_
    · exact ⟨.inl trivial, .inl trivial, trivial⟩
    · exact .inr (.inl (hreads (List.Subset.trans (List.subset_cons_self _ _) hrest)))

/-- The trace of a leaf. -/
theorem ClosesRow.accountable (h : ClosesRow key trace) (hleaf : leaf key)
    (habout : ∀ e ∈ trace, ∀ k ∈ e.request.rowKey?, k = key) (hfounded : Founded (fun _ => False) trace)
    (hwrites : WritesBack trace) : Accountable leaf trace where
  redeemed := h.redeemed hleaf habout
  closed := h.closed habout
  founded := hfounded
  marks := by
    intro e he k hmarks
    obtain ⟨request, answer⟩ := e
    cases request with
    | updateRow k' status ids =>
      obtain ⟨rfl, -⟩ := hmarks
      rwa [habout _ he k' rfl]
    | _ => exact hmarks.elim
  writesBack := hwrites

/-! ## What the hooks do for a chunk -/

theorem founded_recounted {there : String → Prop} {rows : List (String × ProgressRow)} : Founded there (recounted rows) :=
  founded_of_unmarking fun e he k status ids hrequest => by
    have hkey := recounted_rowKey e he
    rw [hrequest] at hkey
    cases hkey

theorem ServedPiece.founded {request : ImportRequest} {answer : request.Answer} (h : ServedPiece request answer trace) :
    Founded (fun _ => False) trace := by
  cases h with
  | claim payload h =>
    cases h with
    | resumed => trivial
    | recorded => exact ⟨.inl rfl, founded_recounted⟩
    | answered _ h =>
      refine founded_of_unmarking fun e he k status ids hrequest => ?_
      have hclaiming := h e he
      rw [hrequest] at hclaiming
      exact hclaiming
  | update hrest =>
    refine ⟨.inl rfl, ?_⟩
    split at hrest
    · obtain ⟨rows, rfl⟩ := hrest
      exact founded_recounted
    · rw [hrest]
      trivial
  | store => trivial
  | other => trivial

theorem serves_founded {events : List ImportEvent} (h : Program.Serves serve events trace) :
    Founded (fun _ => False) trace :=
  h.all trivial (fun _ _ => Founded.append) fun _ _ _ hpiece => (run_serve hpiece).founded

variable {I : Importer} {options : RunOptions} {existingKeys supersededKeys : List String} {conversation : Conversation}
  {chunk : MessageChunk} {chunkIndex chunkCount : Nat} {payload : Option ImportPayload}

/-- What the hooks do for a chunk until it ends or is split. -/
theorem treated_served {own : List ServerEvent} {outcome : ChunkOutcome}
    (h : ((treatChunk I options serverHooks existingKeys supersededKeys conversation chunk chunkIndex chunkCount
      payload).served serve).Run own outcome) (hquiet : ∀ e ∈ own, ServerEvent.Quiet e) :
    ∃ events, Program.Serves serve events own ∧ outcome.Ends events ∧
      (∀ e ∈ events, OwnRequest (baseExecution conversation chunk chunkIndex chunkCount (payload.getD (buildPayload I
        options.toImportOptions conversation chunk chunkIndex chunkCount))).toChunkExecution (payload.getD (buildPayload I
        options.toImportOptions conversation chunk chunkIndex chunkCount)) e.request) ∧
      outcome.Splits I (baseExecution conversation chunk chunkIndex chunkCount (payload.getD (buildPayload I
        options.toImportOptions conversation chunk chunkIndex chunkCount))).toChunkExecution := by
  obtain ⟨events, hrun, hserves⟩ := Program.run_served.mp h
  exact ⟨events, hserves, treatChunk_ends events outcome hrun (serves_quiet hserves hquiet),
    (treatChunk_own rfl).run hrun, treatChunk_splits events outcome hrun fun _ _ => trivial⟩

variable (leaf) in
/-- The trace of a chunk that ended. -/
theorem leaf_accountable {own : List ServerEvent} {succeeded : Bool}
    (h : ((treatChunk I options serverHooks existingKeys supersededKeys conversation chunk chunkIndex chunkCount
      payload).served serve).Run own (.ended succeeded)) (hquiet : ∀ e ∈ own, ServerEvent.Quiet e)
    (hleaf : leaf (chunkKey I options conversation chunk chunkIndex chunkCount payload)) : Accountable leaf own ∧
      (∃ e ∈ own, ServerEvent.Closes (chunkKey I options conversation chunk chunkIndex chunkCount payload) e) ∧
      (own.map ServerEvent.total).sum = 0 := by
  obtain ⟨events, hserves, hends, hown, -⟩ := treated_served h hquiet
  have hcloses := serves_closes hserves hown hends
  refine ⟨hcloses.accountable hleaf (serves_about hserves hown) (serves_founded hserves) (serves_writesBack hserves),
    hcloses.exists_closes, ?_⟩
  exact List.sum_eq_zero fun n hn => by
    obtain ⟨e, he, rfl⟩ := List.mem_map.mp hn
    exact serves_total hserves hown e he

variable (leaf) in
/-- The trace of a chunk that was split, with what is told of it. -/
theorem node_accountable {own told : List ServerEvent} {execution : ChunkAttempt} {children : List MessageChunk}
    {error : String} (h : ((treatChunk I options serverHooks existingKeys supersededKeys conversation chunk chunkIndex
      chunkCount payload).served serve).Run own (.split execution children error))
    (htold : (serve (.updateChunk execution (.split children.length error))).Run told ())
    (hquiet : ∀ e ∈ own, ServerEvent.Quiet e)
    (hleaf : ¬ leaf (chunkKey I options conversation chunk chunkIndex chunkCount payload)) :
    Accountable leaf (own ++ (told ++ [⟨.other (.increment splitOne), ()⟩])) ∧
      ((own ++ (told ++ [(⟨.other (.increment splitOne), ()⟩ : ServerEvent)])).map ServerEvent.total).sum = 1 := by
  obtain ⟨events, hserves, hunfinished, hown, hexecution, -⟩ := treated_served h hquiet
  obtain ⟨rest, rfl, hrest⟩ := run_updateImportChunk htold
  have hnil : rest = [] := hrest
  subst hnil
  have hkey : execution.importKey = chunkKey I options conversation chunk chunkIndex chunkCount payload :=
    congrArg ChunkExecution.importKey hexecution
  have habout := serves_about hserves hown
  constructor
  · refine Accountable.append (accountable_of_unmarked (serves_unmarked hserves hunfinished) ?_ (serves_founded hserves)
      (serves_writesBack hserves)) ?_
    · intro e he k hk
      rw [habout e he k hk]
      exact hleaf
    · refine accountable_of_unmarked ?_ ?_ ⟨.inl rfl, trivial⟩ (.plain id (.plain id (.plain id (.plain id .nil))))
      · simp [ServerEvent.Unmarked, ChunkUpdate.status, RecordStatus.settles, JobCounters.Neutral, splitOne, noCounters]
      · simpa [ServerRequest.rowKey?, hkey] using hleaf
  · have hzero : (own.map ServerEvent.total).sum = 0 := List.sum_eq_zero fun n hn => by
      obtain ⟨e, he, rfl⟩ := List.mem_map.mp hn
      exact serves_total hserves hown e he
    simp [hzero, ServerEvent.total, splitOne, noCounters]

/-! ## What the hooks do for a worker -/

/-- A worker's trace in which these keys were handled. -/
theorem Handled.accountable {keys : List (String × Bool)}
    (h : Handled I options existingKeys supersededKeys keys trace) (hquiet : ∀ e ∈ trace, ServerEvent.Quiet e)
    (hleaf : ∀ k ∈ leafKeys keys, leaf k) (hsplit : ∀ k ∈ splitKeys keys, ¬ leaf k) : Accountable leaf trace := by
  induction h with
  | nil => exact accountable_of_unmarked (by simp) (by simp) trivial .nil
  | checked _ ih =>
    obtain ⟨-, hquiet⟩ := List.forall_mem_cons.mp hquiet
    exact (accountable_one (e := ⟨.other .cancelled, false⟩) trivial rfl trivial id).append (ih hquiet hleaf hsplit)
  | took answer _ ih =>
    obtain ⟨-, hquiet⟩ := List.forall_mem_cons.mp hquiet
    exact (accountable_one (e := ⟨.other .nextGroup, answer⟩) trivial rfl trivial id).append (ih hquiet hleaf hsplit)
  | leaf hown _ ih =>
    obtain ⟨hquiet₁, hquiet₂⟩ := List.forall_mem_append.mp hquiet
    rw [leafKeys_leaf, List.forall_mem_cons] at hleaf
    exact (leaf_accountable leaf hown hquiet₁ hleaf.1).1.append (ih hquiet₂ hleaf.2 hsplit)
  | @node _ _ _ _ _ own told rest _ _ _ _ hown htold _ ih =>
    have hsplitted : own ++ (told ++ ⟨.other (.increment splitOne), ()⟩ :: rest) =
        (own ++ (told ++ [⟨.other (.increment splitOne), ()⟩])) ++ rest := by simp
    rw [hsplitted] at hquiet ⊢
    obtain ⟨hquiet₁, hquiet₂⟩ := List.forall_mem_append.mp hquiet
    rw [splitKeys_split, List.forall_mem_cons] at hsplit
    exact (node_accountable leaf hown htold (List.forall_mem_append.mp hquiet₁).1 hsplit.1).1.append (ih hquiet₂ hleaf hsplit.2)

/-- Every leaf is closed. -/
theorem Handled.closes {keys : List (String × Bool)} (h : Handled I options existingKeys supersededKeys keys trace)
    (hquiet : ∀ e ∈ trace, ServerEvent.Quiet e) : ∀ k ∈ leafKeys keys, ∃ e ∈ trace, ServerEvent.Closes k e := by
  induction h with
  | nil => simp [leafKeys]
  | checked _ ih =>
    obtain ⟨-, hquiet⟩ := List.forall_mem_cons.mp hquiet
    exact fun k hk => exists_closes_of_suffix (ih hquiet k hk) (List.subset_cons_self _ _)
  | took answer _ ih =>
    obtain ⟨-, hquiet⟩ := List.forall_mem_cons.mp hquiet
    exact fun k hk => exists_closes_of_suffix (ih hquiet k hk) (List.subset_cons_self _ _)
  | leaf hown _ ih =>
    obtain ⟨hquiet₁, hquiet₂⟩ := List.forall_mem_append.mp hquiet
    rw [leafKeys_leaf, List.forall_mem_cons]
    refine ⟨exists_closes_of_suffix (leaf_accountable (fun _ => True) hown hquiet₁ trivial).2.1
      (List.subset_append_left _ _), fun k hk => exists_closes_of_suffix (ih hquiet₂ k hk) (List.subset_append_right _ _)⟩
  | node hown htold _ ih =>
    obtain ⟨-, hquiet⟩ := List.forall_mem_append.mp hquiet
    obtain ⟨-, hquiet⟩ := List.forall_mem_append.mp hquiet
    obtain ⟨-, hquiet⟩ := List.forall_mem_cons.mp hquiet
    rw [leafKeys_split]
    exact fun k hk => exists_closes_of_suffix (ih hquiet k hk)
      (List.Subset.trans (List.subset_cons_self _ _)
        (List.Subset.trans (List.subset_append_right _ _) (List.subset_append_right _ _)))

/-- Every split raises the total by one. -/
theorem Handled.total {keys : List (String × Bool)} (h : Handled I options existingKeys supersededKeys keys trace)
    (hquiet : ∀ e ∈ trace, ServerEvent.Quiet e) : (trace.map ServerEvent.total).sum = (splitKeys keys).length := by
  induction h with
  | nil => rfl
  | checked _ ih =>
    obtain ⟨-, hquiet⟩ := List.forall_mem_cons.mp hquiet
    rw [List.map_cons, List.sum_cons, ih hquiet]
    exact zero_add _
  | took answer _ ih =>
    obtain ⟨-, hquiet⟩ := List.forall_mem_cons.mp hquiet
    rw [List.map_cons, List.sum_cons, ih hquiet]
    exact zero_add _
  | leaf hown _ ih =>
    obtain ⟨hquiet₁, hquiet₂⟩ := List.forall_mem_append.mp hquiet
    rw [List.map_append, List.sum_append, ih hquiet₂,
      (leaf_accountable (fun _ => True) hown hquiet₁ trivial).2.2, zero_add, splitKeys_leaf]
  | @node _ _ _ _ _ own told rest _ _ _ _ hown htold _ ih =>
    have hsplitted : own ++ (told ++ ⟨.other (.increment splitOne), ()⟩ :: rest) =
        (own ++ (told ++ [⟨.other (.increment splitOne), ()⟩])) ++ rest := by simp
    rw [hsplitted] at hquiet ⊢
    obtain ⟨hquiet₁, hquiet₂⟩ := List.forall_mem_append.mp hquiet
    rw [List.map_append, List.sum_append, ih hquiet₂,
      (node_accountable (fun _ => False) hown htold (List.forall_mem_append.mp hquiet₁).1 id).2, splitKeys_split]
    simp [add_comm]

end

end YiQiao
