import YiQiao.Memory.Write

/-!
# Bulk deletion

`Memory.delete_all` lists the rows of a scope and deletes them one by one. The listing has a page
limit of one hundred rows, so it empties the scopes that fit on a page.
-/

namespace YiQiao

open Lib Filters

variable {V S : Type}

/-! ## The rows of a scope -/

/-- The payload carries every identifier that is given, up to surrounding blanks. -/
def DeleteScope.covers (P : Platform) (scope : DeleteScope) (payload : Payload) : Bool :=
  scope.ids.all fun e => match e.2 with
    | none => true
    | some value => idMatches P payload e.1 (strip value)

/-- The rows of a scope, in table order. -/
def DeleteScope.covered (P : Platform) (scope : DeleteScope) (t : Table V) : List (Row V) :=
  t.rows.filter fun row => scope.covers P row.payload

theorem DeleteScope.covered_unique (P : Platform) (scope : DeleteScope) (t : Table V) :
    ((scope.covered P t).map Row.id).Nodup :=
  t.unique.sublist (List.filter_sublist.map _)

/-- No row of the scope is left, and the others stand as they stood. -/
structure Cleared (P : Platform) (scope : DeleteScope) (before after : Table V) : Prop where
  emptied : ∀ row ∈ after.rows, scope.covers P row.payload = false
  untouched : after.rows.filter (fun row => !scope.covers P row.payload) =
    before.rows.filter fun row => !scope.covers P row.payload

theorem trimEntityId_ok {name value trimmed : String} (h : trimEntityId name value = .ok trimmed) :
    trimmed = strip value := by
  simp only [trimEntityId] at h
  split at h
  · cases h
  · split at h
    · cases h
    · cases h
      rfl

theorem trimIds_covers {P : Platform} {payload : Payload} {ids : List (String × Option String)}
    {trimmed : List (String × String)} (h : trimIds ids = .ok trimmed) :
    (ids.all fun e => match e.2 with
      | none => true
      | some value => idMatches P payload e.1 (strip value)) =
      trimmed.all fun e => idMatches P payload e.1 e.2 := by
  induction ids generalizing trimmed with
  | nil =>
      cases h
      rfl
  | cons e ids ih =>
      obtain ⟨name, _ | value⟩ := e
      · simpa using ih h
      · simp only [trimIds, Fallible.bind_ok, Fallible.pure_ok] at h
        obtain ⟨v, hv, rest, hrest, rfl⟩ := h
        rw [List.all_cons, List.all_cons, ih hrest, trimEntityId_ok hv]

theorem trimIds_names {ids : List (String × Option String)} {trimmed : List (String × String)}
    (h : trimIds ids = .ok trimmed) : ∀ e ∈ trimmed, e.1 ∈ ids.map Prod.fst := by
  induction ids generalizing trimmed with
  | nil =>
      cases h
      simp
  | cons e ids ih =>
      obtain ⟨name, _ | value⟩ := e
      · exact fun e he => List.mem_cons_of_mem _ (ih h e he)
      · simp only [trimIds, Fallible.bind_ok, Fallible.pure_ok] at h
        obtain ⟨v, _, rest, hrest, rfl⟩ := h
        intro e he
        rcases List.mem_cons.mp he with rfl | he
        · exact List.mem_cons_self
        · exact List.mem_cons_of_mem _ (ih hrest e he)

/-! ## The listing -/

theorem DeleteScope.keys {scope : DeleteScope} {ids : List (String × String)}
    (h : trimIds scope.ids = .ok ids) : ∀ e ∈ ids, e.1 ≠ "$or" ∧ e.1 ≠ "$not" := by
  intro e he
  have hname := trimIds_names h e he
  simp only [DeleteScope.ids, List.map_cons, List.map_nil, List.mem_cons, List.not_mem_nil, or_false]
    at hname
  rcases hname with h | h | h | h | h <;> rw [h] <;> decide

/-- The page `delete_all` works on. -/
theorem list_scope {P : Platform} {scope : DeleteScope} {ids : List (String × String)}
    (h : trimIds scope.ids = .ok ids) (t : Table V) (limit : Nat) :
    t.list P (idFilters ids) limit =
      .ok ((scope.covered P t).take limit) := by
  rw [Table.list, select_ids (DeleteScope.keys h)]
  simp only [DeleteScope.covered, DeleteScope.covers, trimIds_covers h]
  rfl

/-! ## The deletions -/

theorem deleteRow_ok {W : Writer V S} {O : Providers V} {row : Row V} {s s' : MemoryState V}
    (h : (deleteRow W O row).run s = (.ok (), s')) : s'.memories = s.memories.delete row.id := by
  simp only [deleteRow, Effect.bind_ok, Effect.lift_ok, Effect.modify_ok] at h
  obtain ⟨_, _, ⟨_, rfl⟩, _, _, rfl, _, s₁, hhistory, hentities⟩ := h
  have h₁ : s₁.memories = s.memories.delete row.id := (addHistory_within _).of_ok hhistory
  have h₂ := removeMemoryFromEntityStore_within W.platform O row.id (sessionScope row.payload)
  exact (h₂.of_ok hentities).trans h₁

theorem deleteMemory_ok {W : Writer V S} {O : Providers V} {id : String} {s s' : MemoryState V}
    (h : (deleteMemory W O id).run s = (.ok (), s')) : s'.memories = s.memories.delete id := by
  simp only [deleteMemory, getMemory, Effect.run_bind_read] at h
  cases hget : s.memories.get id with
  | none => simp [hget] at h
  | some row =>
      simp only [hget] at h
      have hid : row.id = id := by simpa using List.find?_some hget
      rw [← hid]
      exact deleteRow_ok h

/-- The rows that stay when others go. -/
def survivors (rows gone : List (Row V)) : List (Row V) :=
  rows.filter fun row => row.id ∉ gone.map Row.id

theorem survivors_snoc (rows done : List (Row V)) (row : Row V) :
    survivors rows (done ++ [row]) = (survivors rows done).filter fun r => r.id ≠ row.id := by
  rw [survivors, survivors, List.filter_filter]
  refine List.filter_congr fun r _ => ?_
  simp only [ne_eq, List.map_append, List.map_cons, List.map_nil, List.mem_append,
    List.mem_singleton, not_or, Bool.decide_and, Bool.and_comm]

/-- A loop of deletions that returned took away the rows it named and no others. -/
theorem deleteRows_ok {W : Writer V S} {O : Providers V} {rows : List (Row V)} {s s' : MemoryState V}
    (h : (Effect.forEach rows fun row => deleteMemory W O row.id).run s = (.ok (), s')) :
    s'.memories.rows = survivors s.memories.rows rows := by
  refine Effect.loop_ok (I := fun done _ t => t.memories.rows = survivors s.memories.rows done) h ?_ ?_
  · simp [survivors]
  · intro done row rest _ t _ t' _ hI ht
    rw [deleteMemory_ok ht, Table.rows_delete, hI, survivors_snoc]

theorem deleteAll_ok {W : Writer V S} {O : Providers V} {scope : DeleteScope} {s s' : MemoryState V}
    (h : (deleteAll W O scope).run s = (.ok (), s')) :
    s'.memories.rows =
      survivors s.memories.rows ((scope.covered W.platform s.memories).take defaultListLimit) := by
  simp only [deleteAll, Effect.bind_ok, Effect.lift_ok] at h
  obtain ⟨ids, _, ⟨hids, rfl⟩, h⟩ := h
  split at h
  · cases h
  · simp only [Effect.run_bind_read, Effect.bind_ok, Effect.lift_ok, list_scope hids] at h
    obtain ⟨rows, _, ⟨hrows, rfl⟩, h⟩ := h
    cases hrows
    exact deleteRows_ok h

/-! ## When the scope is emptied -/

/-- An element past the page is not on it. -/
theorem notMem_page {α β : Type} {f : α → β} {l : List α} (h : (l.map f).Nodup) {n : Nat} {a : α}
    (ha : a ∈ l.drop n) : f a ∉ (l.take n).map f := by
  intro hmem
  rw [← List.take_append_drop n l, List.map_append, List.nodup_append] at h
  exact h.2.2 (f a) hmem (f a) (List.mem_map_of_mem ha) rfl

theorem fits_of_cleared {W : Writer V S} {O : Providers V} {scope : DeleteScope} {s s' : MemoryState V}
    (h : (deleteAll W O scope).run s = (.ok (), s'))
    (hcleared : Cleared W.platform scope s.memories s'.memories) :
    (scope.covered W.platform s.memories).length ≤ defaultListLimit := by
  by_contra hlong
  have hrest : 0 < ((scope.covered W.platform s.memories).drop defaultListLimit).length := by
    rw [List.length_drop]
    omega
  obtain ⟨row, hrow⟩ := List.exists_mem_of_length_pos hrest
  obtain ⟨hbefore, hscope⟩ := List.mem_filter.mp (List.mem_of_mem_drop hrow)
  have hkept : row ∈ s'.memories.rows := by
    rw [deleteAll_ok h, survivors, List.mem_filter]
    exact ⟨hbefore, decide_eq_true (notMem_page (scope.covered_unique _ _) hrow)⟩
  simp [hcleared.emptied row hkept] at hscope

theorem cleared_of_fits {W : Writer V S} {O : Providers V} {scope : DeleteScope} {s s' : MemoryState V}
    (h : (deleteAll W O scope).run s = (.ok (), s'))
    (hfits : (scope.covered W.platform s.memories).length ≤ defaultListLimit) :
    Cleared W.platform scope s.memories s'.memories := by
  have hrows := deleteAll_ok h
  rw [List.take_of_length_le hfits] at hrows
  have hsame : survivors s.memories.rows (scope.covered W.platform s.memories) =
      s.memories.rows.filter fun row => !scope.covers W.platform row.payload := by
    refine List.filter_congr fun row hrow => ?_
    rw [Bool.eq_iff_iff, decide_eq_true_iff, Bool.not_eq_true', ← Bool.not_eq_true]
    exact not_congr (Table.id_mem_filter hrow)
  rw [hsame] at hrows
  constructor
  · intro row hrow
    rw [hrows, List.mem_filter] at hrow
    simpa using hrow.2
  · rw [hrows, List.filter_filter]
    simp

/-- A bulk deletion that returned cleared its scope exactly when the scope fitted on a page. -/
theorem cleared_iff_fits {W : Writer V S} {O : Providers V} {scope : DeleteScope} {s s' : MemoryState V}
    (h : (deleteAll W O scope).run s = (.ok (), s')) :
    Cleared W.platform scope s.memories s'.memories ↔
      (scope.covered W.platform s.memories).length ≤ defaultListLimit :=
  ⟨fits_of_cleared h, cleared_of_fits h⟩

/-! ## Deletions that return -/

/-- A row whose deletion SQLite can record. -/
def Row.Recordable (W : Writer V S) (O : Providers V) (row : Row V) : Prop :=
  ∃ createdAt, normalizeTimestamp W (Payload.get row.payload "created_at") = .ok createdAt ∧
    bindAll (historyRecord row.id "DELETE" ((row.payload.lookup "data").getD (.str "")) .null createdAt
      (.str O.now) true row.payload).parameters = .ok ()

theorem deleteMemory_returns {W : Writer V S} {O : Providers V} {row : Row V} {s : MemoryState V}
    (hrow : row ∈ s.memories.rows) (hrec : row.Recordable W O) :
    ∃ s', (deleteMemory W O row.id).run s = (.ok (), s') := by
  obtain ⟨createdAt, hcreated, hbind⟩ := hrec
  have hget : s.memories.get row.id = some row := s.memories.get_of_mem hrow
  simp only [deleteMemory, getMemory, Effect.run_bind_read, hget, deleteRow, Effect.bind_ok,
    Effect.lift_ok, Effect.modify_ok, addHistory, removeMemoryFromEntityStore, hcreated]
  exact ⟨_, _, _, ⟨rfl, rfl⟩, (), _, rfl, (), _, ⟨(), _, ⟨hbind, rfl⟩, rfl⟩, rfl⟩

/-- `delete_all` returns where every row of its scope can be recorded. -/
theorem deleteAll_returns {W : Writer V S} {O : Providers V} {scope : DeleteScope} {s : MemoryState V}
    {id : String × String} {ids : List (String × String)} (hids : trimIds scope.ids = .ok (id :: ids))
    (hrec : ∀ row ∈ scope.covered W.platform s.memories, row.Recordable W O) :
    ∃ s', (deleteAll W O scope).run s = (.ok (), s') := by
  have hlist := list_scope (P := W.platform) hids s.memories defaultListLimit
  have hnodup := (scope.covered_unique W.platform s.memories).sublist
    ((List.take_sublist defaultListLimit _).map Row.id)
  have hpage : ∀ row ∈ (scope.covered W.platform s.memories).take defaultListLimit,
      row ∈ s.memories.rows ∧ row.Recordable W O := fun row hrow =>
    ⟨List.mem_of_mem_filter (List.mem_of_mem_take hrow), hrec row (List.mem_of_mem_take hrow)⟩
  generalize (scope.covered W.platform s.memories).take defaultListLimit = page at *
  have hloop : ∃ u s', (Effect.forEach page fun row => deleteMemory W O row.id).run s = (.ok u, s') ∧
      s'.memories.rows = survivors s.memories.rows page := by
    refine Effect.loop_returns
      (I := fun done _ (t : MemoryState V) => t.memories.rows = survivors s.memories.rows done)
      (by simp [survivors]) ?_
    intro done row rest _ t hsplit hI
    subst hsplit
    obtain ⟨hrow, hrec⟩ := hpage row (by simp)
    have hleft : row ∈ t.memories.rows := by
      rw [hI, survivors, List.mem_filter]
      rw [List.map_append, List.nodup_append] at hnodup
      exact ⟨hrow, decide_eq_true fun hdone => hnodup.2.2 _ hdone _ (by simp) rfl⟩
    obtain ⟨t', ht⟩ := deleteMemory_returns hleft hrec
    exact ⟨(), t', ht, by rw [deleteMemory_ok ht, Table.rows_delete, hI, survivors_snoc]⟩
  obtain ⟨u, s', hrun, _⟩ := hloop
  refine ⟨s', ?_⟩
  simp only [deleteAll, Effect.bind_ok, Effect.lift_ok]
  exact ⟨_, _, ⟨hids, rfl⟩, by simpa [Effect.bind_ok, Effect.lift_ok, hlist] using hrun⟩

/-! ## A scope past the page -/

/-- Memories of one user. -/
def userMemories (n : Nat) : Table Unit where
  rows := (List.range n).map fun i =>
    ⟨String.ofList (List.replicate (i + 1) 'm'), none, [("user_id", .str "u")]⟩
  unique := by
    rw [List.map_map]
    refine List.nodup_range.map fun i j h => ?_
    simpa using congrArg (fun s => s.toList.length) h
  named := by simp

def userStores (n : Nat) : MemoryState Unit where
  memories := userMemories n
  entities := Table.empty
  entityStoreOpen := false
  history := []
  messages := []
  supply := 0

def userScope : DeleteScope := ⟨some "u", none, none, none, none⟩

theorem userScope_covered (n : Nat) :
    userScope.covered .ascii (userMemories n) = (userMemories n).rows := by
  refine List.filter_eq_self.mpr fun row hrow => ?_
  obtain ⟨i, _, rfl⟩ := List.mem_map.mp hrow
  rfl

theorem deleteAll_user (n : Nat) : ∃ s',
    (deleteAll (Writer.plain .ascii : Writer Unit ℚ) (.silent "now") userScope).run (userStores n) =
      (.ok (), s') := by
  have hids : trimIds userScope.ids = .ok [("user_id", "u")] := rfl
  refine deleteAll_returns hids fun row hrow => ?_
  obtain ⟨i, _, rfl⟩ := List.mem_map.mp (List.mem_of_mem_filter hrow)
  exact ⟨.null, rfl, rfl⟩

/-- Two memories fit on the page, and both are deleted. -/
theorem cleared_iff_fits_two : ∃ s',
    (deleteAll (Writer.plain .ascii : Writer Unit ℚ) (.silent "now") userScope).run (userStores 2) =
      (.ok (), s') ∧ Cleared .ascii userScope (userMemories 2) s'.memories := by
  obtain ⟨s', h⟩ := deleteAll_user 2
  refine ⟨s', h, (cleared_iff_fits h).mpr ?_⟩
  change (userScope.covered .ascii (userMemories 2)).length ≤ defaultListLimit
  rw [userScope_covered]
  decide

/-- Of one hundred and one memories of a user, `delete_all` leaves one and returns. -/
theorem next_page_survives : ∃ s',
    (deleteAll (Writer.plain .ascii : Writer Unit ℚ) (.silent "now") userScope).run (userStores 101) =
      (.ok (), s') ∧ ¬ Cleared .ascii userScope (userMemories 101) s'.memories := by
  obtain ⟨s', h⟩ := deleteAll_user 101
  refine ⟨s', h, fun hcleared => ?_⟩
  have hfits := fits_of_cleared h hcleared
  change (userScope.covered .ascii (userMemories 101)).length ≤ defaultListLimit at hfits
  rw [userScope_covered, userMemories, List.length_map, List.length_range, defaultListLimit] at hfits
  omega

end YiQiao
