import YiQiao.Memory.Chronicle

/-!
# Duplicates

`add` passes over the texts whose hashes stand in the scope, derives the ids of the others from
their hashes, and inserts what the store accepts.
-/

namespace YiQiao

open Lib Filters

variable {V S : Type}

/-! ## Selecting new texts -/

section

variable {α : Type} {hash : α → String} {known : List String}

/-- One iteration of the loop of `selectNew`. -/
def selectStep (hash : α → String) (acc : List String × List α) (a : α) : List String × List α :=
  if acc.1.contains (hash a) then acc else (acc.1 ++ [hash a], acc.2 ++ [a])

theorem selectNew_eq (items : List α) :
    selectNew hash known items = (items.foldl (selectStep hash) (known, [])).2 := rfl

/-- What the loop knows: the hashes seen are the known ones and those of the texts selected so far. -/
structure Selecting (hash : α → String) (known : List String) (items : List α)
    (acc : List String × List α) : Prop where
  seen : acc.1 = known ++ acc.2.map hash
  sublist : acc.2.Sublist items
  nodup : (acc.2.map hash).Nodup
  fresh : ∀ a ∈ acc.2, hash a ∉ known
  covers : ∀ a ∈ items, hash a ∈ acc.1

theorem Selecting.step {items : List α} {acc : List String × List α} (h : Selecting hash known items acc)
    (a : α) : Selecting hash known (items ++ [a]) (selectStep hash acc a) := by
  unfold selectStep
  split
  · rename_i hseen
    have hmem : hash a ∈ acc.1 := by simpa using hseen
    refine ⟨h.seen, h.sublist.trans (List.sublist_append_left _ _), h.nodup, h.fresh, fun b hb => ?_⟩
    rcases List.mem_append.mp hb with hb | hb
    · exact h.covers b hb
    · exact (List.mem_singleton.mp hb) ▸ hmem
  · rename_i hseen
    have hnew : hash a ∉ known ++ acc.2.map hash := by
      rw [← h.seen]
      simpa using hseen
    rw [List.mem_append, not_or] at hnew
    refine ⟨by simp [h.seen], h.sublist.append_right [a], ?_, fun b hb => ?_, fun b hb => ?_⟩
    · rw [List.map_append, List.nodup_append]
      refine ⟨h.nodup, List.nodup_singleton _, fun x hx y hy he => hnew.2 ?_⟩
      rw [List.map_singleton, List.mem_singleton] at hy
      rwa [← hy, ← he]
    · rcases List.mem_append.mp hb with hb | hb
      · exact h.fresh b hb
      · exact (List.mem_singleton.mp hb) ▸ hnew.1
    · rcases List.mem_append.mp hb with hb | hb
      · exact List.mem_append_left _ (h.covers b hb)
      · exact List.mem_append_right _ (by simp [List.mem_singleton.mp hb])

theorem selecting (items : List α) :
    Selecting hash known items (items.foldl (selectStep hash) (known, [])) := by
  induction items using List.reverseRecOn with
  | nil => exact ⟨by simp, .slnil, List.nodup_nil, by simp, by simp⟩
  | append_singleton items a ih =>
      rw [List.foldl_append]
      exact ih.step a

theorem selectNew_sublist (items : List α) : (selectNew hash known items).Sublist items :=
  (selecting items).sublist

theorem selectNew_nodup (hash : α → String) (known : List String) (items : List α) : ((selectNew hash known items).map hash).Nodup :=
  (selecting items).nodup

theorem selectNew_fresh {items : List α} {a : α} (h : a ∈ selectNew hash known items) : hash a ∉ known :=
  (selecting items).fresh a h

/-- Every text has a known hash or that of a selected text. -/
theorem selectNew_covers (hash : α → String) (known : List String) {items : List α} {a : α} (h : a ∈ items) :
    hash a ∈ known ∨ ∃ b ∈ selectNew hash known items, hash b = hash a := by
  have hselecting : Selecting hash known items (items.foldl (selectStep hash) (known, [])) := selecting items
  have hseen := hselecting.covers a h
  rw [hselecting.seen, List.mem_append, List.mem_map] at hseen
  exact hseen

end

/-! ## Inserting -/

/-- Some rows of the pool were appended. -/
def Appends (pool : List (Row V)) (s s' : MemoryState V) : Prop :=
  ∃ kept, kept.Sublist pool ∧ s'.memories.rows = s.memories.rows ++ kept

section

variable {s s' s'' : MemoryState V} {pool pool' : List (Row V)}

theorem Appends.nil (h : SameMemories s s') : Appends pool s s' :=
  ⟨[], List.nil_sublist _, by rw [h, List.append_nil]⟩

theorem Appends.trans (h : Appends pool s s') (h' : Appends pool' s' s'') :
    Appends (pool ++ pool') s s'' := by
  obtain ⟨kept, hkept, hrows⟩ := h
  obtain ⟨kept', hkept', hrows'⟩ := h'
  exact ⟨kept ++ kept', hkept.append hkept', by rw [hrows', hrows, List.append_assoc]⟩

theorem Appends.same (h : Appends pool s s') (h' : SameMemories s' s'') : Appends pool s s'' := by
  obtain ⟨kept, hkept, hrows⟩ := h
  exact ⟨kept, hkept, by rw [h', hrows]⟩

theorem Appends.weaken (h : Appends pool s s') (hpool : pool.Sublist pool') : Appends pool' s s' := by
  obtain ⟨kept, hkept, hrows⟩ := h
  exact ⟨kept, hkept.trans hpool, hrows⟩

/-- Rows that were there are there. -/
theorem Appends.subset (h : Appends pool s s') : s.memories.rows ⊆ s'.memories.rows := by
  obtain ⟨kept, _, hrows⟩ := h
  exact hrows ▸ List.subset_append_left _ _

/-- The statement appends all rows, or fails and leaves the collection alone. -/
theorem insertMemories_run (rows : List (Row V)) (s : MemoryState V) :
    (∃ s', (insertMemories rows).run s = (.ok (), s') ∧ s'.memories.rows = s.memories.rows ++ rows) ∨
      ((insertMemories rows).run s = (.error .databaseError, s) ∧
        ¬ (((s.memories.rows ++ rows).map Row.id).Nodup ∧ ∀ row ∈ s.memories.rows ++ rows, row.id ≠ "")) := by
  simp only [insertMemories, Effect.run_bind_read]
  unfold Table.insert
  split
  · exact .inl ⟨_, rfl, rfl⟩
  · rename_i hbad
    exact .inr ⟨rfl, hbad⟩

/-- A single row is refused for its id alone. -/
theorem insertMemories_single {row : Row V} (hname : row.id ≠ "")
    (h : ¬ (((s.memories.rows ++ [row]).map Row.id).Nodup ∧ ∀ r ∈ s.memories.rows ++ [row], r.id ≠ "")) :
    row.id ∈ s.memories.rows.map Row.id := by
  by_contra hfree
  refine h ⟨?_, fun r hr => ?_⟩
  · rw [List.map_append, List.nodup_append]
    refine ⟨s.memories.unique, List.nodup_singleton _, fun x hx y hy he => hfree ?_⟩
    rw [List.map_singleton, List.mem_singleton] at hy
    rwa [← hy, ← he]
  · rcases List.mem_append.mp hr with hr | hr
    · exact s.memories.named r hr
    · exact (List.mem_singleton.mp hr) ▸ hname

/-- One iteration of the loop of `insertEach`. -/
def insertNext (persisted : List (Row V)) (row : Row V) : Op V (List (Row V)) := do
  match ← Effect.attempt (insertMemories [row]) with
  | .ok () => pure (persisted ++ [row])
  | .error _ => pure persisted

/-- After the loop every id of the pool stands in the collection. -/
theorem insertEach_run (rows : List (Row V)) (s : MemoryState V) :
    Appends rows s ((insertEach rows).run s).2 ∧
      ∀ row ∈ rows, row.id ≠ "" → row.id ∈ ((insertEach rows).run s).2.memories.rows.map Row.id := by
  change Appends rows s ((Effect.loop insertNext [] rows).run s).2 ∧ ∀ row ∈ rows, row.id ≠ "" →
    row.id ∈ ((Effect.loop insertNext [] rows).run s).2.memories.rows.map Row.id
  generalize ([] : List (Row V)) = persisted
  induction rows generalizing persisted s with
  | nil => exact ⟨.nil rfl, by simp⟩
  | cons row rows ih =>
      rw [Effect.loop_cons, Effect.run_bind]
      rcases insertMemories_run [row] s with ⟨s₁, hrun, hrows⟩ | ⟨hrun, hbad⟩
      · simp only [insertNext, Effect.run_bind_attempt, hrun, Effect.run_pure]
        obtain ⟨happends, hids⟩ := ih s₁ (persisted ++ [row])
        have hfirst : Appends [row] s s₁ := ⟨[row], List.Sublist.refl _, hrows⟩
        refine ⟨hfirst.trans happends, fun r hr hname => ?_⟩
        rcases List.mem_cons.mp hr with rfl | hr
        · exact List.mem_map_of_mem (happends.subset (hrows ▸ List.mem_append_right _ (by simp)))
        · exact hids r hr hname
      · simp only [insertNext, Effect.run_bind_attempt, hrun, Effect.run_pure]
        obtain ⟨happends, hids⟩ := ih s persisted
        obtain ⟨kept, hkept, hkeptRows⟩ := happends
        refine ⟨⟨kept, hkept.cons row, hkeptRows⟩, fun r hr hname => ?_⟩
        rcases List.mem_cons.mp hr with rfl | hr
        · exact List.map_subset _ (Appends.subset ⟨kept, hkept, hkeptRows⟩) (insertMemories_single hname hbad)
        · exact hids r hr hname

theorem persistRows_run (rows : List (Row V)) (s : MemoryState V) :
    Appends rows s ((persistRows rows).run s).2 ∧
      ∀ row ∈ rows, row.id ≠ "" → row.id ∈ ((persistRows rows).run s).2.memories.rows.map Row.id := by
  unfold persistRows
  rcases insertMemories_run rows s with ⟨s₁, hrun, hrows⟩ | ⟨hrun, _⟩
  · simp only [Effect.run_bind_attempt, hrun, Effect.run_pure]
    refine ⟨⟨rows, List.Sublist.refl _, hrows⟩, fun row hrow _ => ?_⟩
    rw [hrows]
    exact List.mem_map_of_mem (List.mem_append_right _ hrow)
  · simp only [Effect.run_bind_attempt, hrun]
    exact insertEach_run rows s

end

/-! ## Raw memories -/

/-- The row of a raw memory. -/
def rawRow (W : Writer V S) (O : Providers V) (metadata : Entries) (scope : ScopeIds) (unavailable : Bool)
    (selected : Entries × String) : Row V :=
  ⟨memoryIdForHash W scope (W.contentHash selected.2), rawVector O unavailable selected.2,
    createdPayload W O.now selected.2
      (rawMetadata W metadata selected.1 (rawVector O unavailable selected.2).isNone)⟩

/-- A row that `_stored_memory_matches_hash` accepts stands under the id. -/
def StandsUnder (W : Writer V S) (id hash : String) (s : MemoryState V) : Prop :=
  ∃ row ∈ s.memories.rows, row.id = id ∧ matchesHash W (some row) hash = true

section

variable {W : Writer V S} {s s' : MemoryState V}

theorem StandsUnder.mono {id hash : String} (h : StandsUnder W id hash s)
    (hsub : s.memories.rows ⊆ s'.memories.rows) : StandsUnder W id hash s' := by
  obtain ⟨row, hrow, hmatch⟩ := h
  exact ⟨row, hsub hrow, hmatch⟩

theorem standsUnder_of_get {id hash : String} (h : matchesHash W (s.memories.get id) hash = true) :
    StandsUnder W id hash s := by
  cases hrow : s.memories.get id with
  | none => rw [hrow] at h; cases h
  | some row =>
      obtain ⟨hmem, hid⟩ := Table.get_mem hrow
      exact ⟨row, hmem, hid, by rwa [hrow] at h⟩

/-- A row matches exactly the hash of its text. -/
theorem matchesHash_iff {row : Row V} {text hash : String} (hdata : row.payload.lookup "data" = some (.str text))
    (hhash : row.payload.lookup "hash" = some (.str (W.contentHash text))) :
    matchesHash W (some row) hash = true ↔ W.contentHash text = hash := by
  simp only [matchesHash, Payload.get, hdata, hhash, Option.getD_some, Value.truthy, Value.pyStr]
  by_cases hempty : W.contentHash text = "" <;> simp [hempty]

theorem createdPayload_matches (W : Writer V S) (id now text : String) (vector : Option V)
    (metadata : Entries) :
    matchesHash W (some ⟨id, vector, createdPayload W now text metadata⟩) (W.contentHash text) = true := by
  have hagrees : Agrees (createdPayload W now text metadata) (textBase W text (W.contentHash text) metadata) :=
    createdPayload_agrees text (Agrees.refl metadata)
  obtain ⟨hdata, _, hhash⟩ := textFields_of_agrees hagrees
  exact (matchesHash_iff hdata hhash).mpr rfl

/-- A memory that is created stands under its id, unless an equal one stands there. -/
theorem createMemory_run (W : Writer V S) (now data : String) (vector : Option V) (metadata : Entries)
    (id : String) (skip : Bool) (s : MemoryState V) :
    Appends [⟨id, vector, createdPayload W now data metadata⟩] s
        ((createMemory W now data vector metadata id skip).run s).2 ∧
      ∀ r, ((createMemory W now data vector metadata id skip).run s).1 = .ok r →
        StandsUnder W id (W.contentHash data) ((createMemory W now data vector metadata id skip).run s).2 ∧
        (skip = false → ⟨id, vector, createdPayload W now data metadata⟩ ∈
          ((createMemory W now data vector metadata id skip).run s).2.memories.rows) := by
  unfold createMemory getMemory
  rw [Effect.run_bind_read]
  split
  · rename_i hskip
    rw [Bool.and_eq_true] at hskip
    exact ⟨.nil rfl, fun r _ => ⟨standsUnder_of_get hskip.2, fun h => by simp [h] at hskip⟩⟩
  · rename_i hskip
    rcases insertMemories_run [⟨id, vector, createdPayload W now data metadata⟩] s with
      ⟨s₁, hrun, hrows⟩ | ⟨hrun, _⟩
    · rw [Effect.run_bind_attempt, hrun]
      have hsame : SameMemories s₁ ((finishCreate W ⟨id, vector, createdPayload W now data metadata⟩ data
          skip (.ok ())).run s₁).2 :=
        Effect.Within.bind (addHistory_within _) (fun _ => .pure _) s₁
      have happends : Appends [⟨id, vector, createdPayload W now data metadata⟩] s s₁ :=
        ⟨_, List.Sublist.refl _, hrows⟩
      have hmem : ⟨id, vector, createdPayload W now data metadata⟩ ∈ ((finishCreate W ⟨id, vector,
          createdPayload W now data metadata⟩ data skip (.ok ())).run s₁).2.memories.rows := by
        rw [hsame, hrows]
        exact List.mem_append_right _ (List.mem_singleton.mpr rfl)
      exact ⟨happends.same hsame, fun r _ => ⟨⟨_, hmem, rfl, createdPayload_matches ..⟩, fun _ => hmem⟩⟩
    · -- the row under the id is the one that was looked at before the insert
      rw [Effect.run_bind_attempt, hrun]
      have hraise : (finishCreate W ⟨id, vector, createdPayload W now data metadata⟩ data skip
          (.error .databaseError)).run s = (.error .databaseError, s) := by
        rw [finishCreate, getMemory, Effect.run_bind_read, if_neg hskip, Effect.run_raise]
      rw [hraise]
      exact ⟨.nil rfl, fun r hr => by cases hr⟩

end

section

variable {W : Writer V S} {O : Providers V} {metadata : Entries} {scope : ScopeIds} {unavailable : Bool}

theorem addRaw_run (added : List AddedMemory) (e : Entries × String) (s : MemoryState V) :
    Appends [rawRow W O metadata scope unavailable e] s
        ((addRaw W O metadata scope unavailable added e).run s).2 ∧
      ∀ r, ((addRaw W O metadata scope unavailable added e).run s).1 = .ok r →
        StandsUnder W (memoryIdForHash W scope (W.contentHash e.2)) (W.contentHash e.2)
          ((addRaw W O metadata scope unavailable added e).run s).2 := by
  obtain ⟨happends, hstands⟩ := createMemory_run W O.now e.2 (rawVector O unavailable e.2)
    (rawMetadata W metadata e.1 (rawVector O unavailable e.2).isNone)
    (memoryIdForHash W scope (W.contentHash e.2)) true s
  rw [addRaw, Effect.run_bind]
  revert happends hstands
  rcases createMemory W O.now e.2 (rawVector O unavailable e.2) _ _ true |>.run s with ⟨_ | created, s₁⟩
  · exact fun happends _ => ⟨happends, fun r hr => by cases hr⟩
  · intro happends hstands
    cases created with
    | none => exact ⟨happends, fun r _ => (hstands none rfl).1⟩
    | some id => exact ⟨happends, fun r _ => (hstands (some id) rfl).1⟩

/-- Every raw memory stands under its id once the loop has returned. -/
theorem addRawLoop_run (selected : List (Entries × String)) (added : List AddedMemory) (s : MemoryState V) :
    Appends (selected.map (rawRow W O metadata scope unavailable)) s
        ((Effect.loop (addRaw W O metadata scope unavailable) added selected).run s).2 ∧
      ∀ r, ((Effect.loop (addRaw W O metadata scope unavailable) added selected).run s).1 = .ok r →
        ∀ e ∈ selected, StandsUnder W (memoryIdForHash W scope (W.contentHash e.2)) (W.contentHash e.2)
          ((Effect.loop (addRaw W O metadata scope unavailable) added selected).run s).2 := by
  induction selected generalizing added s with
  | nil => exact ⟨.nil rfl, by simp⟩
  | cons e selected ih =>
      obtain ⟨hfirst, hstands⟩ :=
        @addRaw_run _ _ W O metadata scope unavailable added e s
      rw [Effect.loop_cons, Effect.run_bind]
      revert hfirst hstands
      rcases addRaw W O metadata scope unavailable added e |>.run s with ⟨_ | added', s₁⟩
      · exact fun hfirst _ => ⟨hfirst.weaken (by simp), fun r hr => by cases hr⟩
      · intro hfirst hstands
        obtain ⟨hrest, hlater⟩ := ih added' s₁
        refine ⟨hfirst.trans hrest, fun r hr e' he' => ?_⟩
        rcases List.mem_cons.mp he' with rfl | he'
        · exact (hstands added' rfl).mono hrest.subset
        · exact hlater r hr e' he'

end

end YiQiao
