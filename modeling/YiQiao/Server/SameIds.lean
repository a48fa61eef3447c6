import YiQiao.Memory.Finding
import YiQiao.Server.GraphAgreement
import YiQiao.Server.Visibility

/-!
# Adding, listing, searching and deleting by the same identifiers

`POST /memories` takes any of the four identifiers and stores them trimmed. `GET /memories` and `POST /search` want one
that scopes a session and trim these only; `DELETE /memories` trims all of them and works on one page.
-/

namespace YiQiao

open Lib Filters Fallible

variable {V S : Type}

/-! ## The identifiers of a request -/

/-- The identifiers that are set, with the project, as the filters of a listing. -/
def listIds (project : ProjectId) (ids : AddIds) : List (String × String) :=
  givenIds [("user_id", givenId ids.userId), ("run_id", givenId ids.runId), ("agent_id", givenId ids.agentId),
    ("app_id", givenId ids.appId), ("project_id", some project.text)]

/-- `get_all_memories` with an identifier. -/
def getMemoriesByIds (E : Engine V S) (t : Table V) (project : ProjectId) (ids : AddIds) (topK : Option Nat)
    (showExpired : Bool) : Except PyError (List (MemoryItem Unit)) :=
  getAll E t (idFilters (listIds project ids)) (topK.getD 20) showExpired

/-- The filters of the search are the identifiers, wherever the body names them. -/
def SearchBody.NamesIds (body : SearchBody S) (project : ProjectId) (ids : AddIds) : Prop :=
  ∀ key, (body.projectFilters project).lookup key = (idFilters (listIds project ids)).lookup key

/-- `POST /memories` accepts the identifiers, with some metadata. -/
def AddIds.Accepted (ids : AddIds) : Prop :=
  namesSome ids = true ∧ ∃ metadata given, requestIds ids metadata = .ok given

/-- The payload carries the identifiers as they are stored. -/
def StoredUnder (project : ProjectId) (ids : AddIds) (payload : Payload) : Prop :=
  ∀ e ∈ listIds project ids, payload.lookup e.1 = some (.str (strip e.2))

section

variable {project : ProjectId} {ids : AddIds}

theorem mem_listIds {e : String × String} : e ∈ listIds project ids ↔
    (e.1 = "user_id" ∧ givenId ids.userId = some e.2) ∨ (e.1 = "run_id" ∧ givenId ids.runId = some e.2) ∨
    (e.1 = "agent_id" ∧ givenId ids.agentId = some e.2) ∨ (e.1 = "app_id" ∧ givenId ids.appId = some e.2) ∨
    (e.1 = "project_id" ∧ project.text = e.2) := by
  obtain ⟨name, value⟩ := e
  simp [listIds, givenIds]
  grind

theorem listIds_keys : ∀ e ∈ listIds project ids, e.1 ∈ sessionScopeKeys := by
  intro e he
  rcases mem_listIds.mp he with ⟨h, -⟩ | ⟨h, -⟩ | ⟨h, -⟩ | ⟨h, -⟩ | ⟨h, -⟩ <;> rw [h] <;> decide

theorem listIds_project {e : String × String} (he : e ∈ listIds project ids) (hname : e.1 = "project_id") :
    e.2 = project.text := by
  rw [mem_listIds, hname] at he
  have hvalue : project.text = e.2 := by simpa using he
  exact hvalue.symm

theorem listIds_unique : Dict.Unique (listIds project ids) := by
  have hnames : ["user_id", "run_id", "agent_id", "app_id", "project_id"].Nodup := by decide
  have h : Dict.Unique (idFilters (listIds project ids)) := unique_idFilters_givenIds hnames
  rwa [Dict.Unique, keys_idFilters] at h

theorem trimArgument_some {name value : String} {argument trimmed : Option String}
    (h : trimArgument name argument = .ok trimmed) (hgiven : givenId argument = some value) :
    trimEntityId name value = .ok (strip value) ∧ trimmed = some (strip value) := by
  cases argument with
  | none => cases hgiven
  | some given =>
    rw [givenId] at hgiven
    split at hgiven
    · cases hgiven
    · cases hgiven
      obtain ⟨stripped, hstripped, rfl⟩ := map_ok.mp h
      obtain rfl := trimEntityId_ok hstripped
      exact ⟨hstripped, rfl⟩

theorem trimAppId_some {appId trimmed : Option String} {metadata : Entries} {value : String}
    (h : trimAppId appId metadata = .ok trimmed) (hgiven : givenId appId = some value) :
    trimEntityId "app_id" value = .ok (strip value) ∧ trimmed = some (strip value) := by
  apply trimArgument_some _ hgiven
  cases appId with
  | none => cases hgiven
  | some given =>
    rw [givenId] at hgiven
    split at hgiven
    · cases hgiven
    · rename_i hnamed
      rwa [trimAppId, if_neg hnamed] at h

/-- What a request stores of the identifiers that are set. -/
theorem requestIds_given {metadata : Entries} {given : List (String × Option String)}
    (h : requestIds ids metadata = .ok given) : ∀ e ∈ listIds project ids, e.1 ≠ "project_id" →
      trimEntityId e.1 e.2 = .ok (strip e.2) ∧ (e.1, some (strip e.2)) ∈ given := by
  simp only [requestIds, bind_ok, pure_ok] at h
  obtain ⟨userId, huser, agentId, hagent, appId, happ, runId, hrun, projectId, -, rfl⟩ := h
  rintro ⟨name, value⟩ he hname
  rcases mem_listIds.mp he with ⟨h, hgiven⟩ | ⟨h, hgiven⟩ | ⟨h, hgiven⟩ | ⟨h, hgiven⟩ | ⟨h, -⟩
  · obtain ⟨htrim, hkept⟩ := trimArgument_some huser hgiven
    subst h hkept
    exact ⟨htrim, by simp⟩
  · obtain ⟨htrim, hkept⟩ := trimArgument_some hrun hgiven
    subst h hkept
    exact ⟨htrim, by simp⟩
  · obtain ⟨htrim, hkept⟩ := trimArgument_some hagent hgiven
    subst h hkept
    exact ⟨htrim, by simp⟩
  · obtain ⟨htrim, hkept⟩ := trimAppId_some happ hgiven
    subst h hkept
    exact ⟨htrim, by simp⟩
  · exact absurd h hname

theorem AddIds.Accepted.trimmed (h : ids.Accepted) :
    ∀ e ∈ listIds project ids, trimEntityId e.1 e.2 = .ok (strip e.2) := by
  obtain ⟨-, metadata, given, hgiven⟩ := h
  intro e he
  by_cases hname : e.1 = "project_id"
  · rw [listIds_project he hname, trimEntityId, ProjectId.strip_project, if_neg (project_ne_empty project), if_neg]
    rw [Bool.not_eq_true, List.any_eq_false]
    intro c hc
    rw [isSpace_projectChar (List.all_eq_true.mp project.allowed c hc)]
    decide
  · exact (requestIds_given hgiven e he hname).1

end

/-! ## Adding -/

section

variable {W : Writer V S} {R : EntityReader} {call : MemoryCall V} {body : CreateBody} {w : SyncWorld V}

/-- What the identifiers become in the metadata that is stored. -/
theorem stored_under {settings : StoreSettings} {project : ProjectId} {stored : Entries} {scope : ScopeIds}
    (h : buildFiltersAndMetadata body.ids (some (storeMetadata W settings project body)) = .ok (stored, scope)) :
    (∃ given, requestIds body.ids (storeMetadata W settings project body) = .ok given) ∧
      StoredUnder project body.ids stored := by
  have hproject : (storeMetadata W settings project body).lookup "project_id" = some (.str project.text) := by
    rw [storeMetadata_lookup (by decide), if_pos rfl]
  have hbuild := h
  simp only [buildFiltersAndMetadata, bind_ok, Option.getD_some] at h
  obtain ⟨given, hgiven, h⟩ := h
  have hscope : scope = givenIds given := by
    split at h
    · cases h
      rfl
    · cases h
  refine ⟨⟨given, hgiven⟩, fun e he => ?_⟩
  have hin : (e.1, strip e.2) ∈ scope := by
    rw [hscope, givenIds, List.mem_filterMap]
    refine ⟨(e.1, some (strip e.2)), ?_, rfl⟩
    by_cases hname : e.1 = "project_id"
    · simp only [requestIds, bind_ok, pure_ok] at hgiven
      obtain ⟨userId, -, agentId, -, appId, -, runId, -, projectId, hkept, rfl⟩ := hgiven
      rw [Payload.get, hproject, Option.getD_some, trimMetadata] at hkept
      obtain ⟨stripped, hstripped, rfl⟩ := map_ok.mp hkept
      rw [hname, listIds_project he hname, trimEntityId_ok hstripped]
      simp
    · exact (requestIds_given hgiven e he hname).2
  exact (metadata_carries hbuild hin).2

/-- Every row that an addition writes carries the identifiers of the request. -/
theorem addMemoryRoute_stores [Score S] : ∃ new, (addMemoryRoute W R call body w).memory.memories.rows =
    w.memory.memories.rows ++ new ∧ ∀ row ∈ new, body.ids.Accepted ∧ StoredUnder call.project body.ids row.payload := by
  rw [addMemoryRoute]
  split
  · exact ⟨[], by simp, by simp⟩
  · rename_i hnames
    have hgrows : Grows (fun row => body.ids.Accepted ∧ StoredUnder call.project body.ids row.payload) w.memory
        ((add W call.providers (storeRequest W call.settings call.project body)).run w.memory).2 := by
      refine add_grows (fun metadata scope messages hprepared text payload hagrees id vector => ?_) w.memory
      obtain ⟨stored, date, rfl, hbuild⟩ := prepareAdd_builds hprepared
      obtain ⟨hgiven, hstored⟩ := stored_under hbuild
      refine ⟨⟨by simpa using hnames, _, hgiven⟩, fun e he => ?_⟩
      rw [lookup_of_agrees hagrees (listIds_keys e he), withExpiration_lookup (listIds_keys e he)]
      exact hstored e he
    cases hrun : (add W call.providers (storeRequest W call.settings call.project body)).run w.memory with
    | mk result memory =>
      rw [hrun] at hgrows
      cases result with
      | error e => exact hgrows
      | ok results => exact hgrows

end

/-! ## Deleting -/

section

variable {W : Writer V S} {O : Providers V} {row : Row V} {s : MemoryState V}

/-- The deletion of a row with a time that can be read takes it away, also where it is not recorded. -/
theorem deleteMemory_row {createdAt : Value} (hrow : row ∈ s.memories.rows)
    (hcreated : normalizeTimestamp W (Payload.get row.payload "created_at") = .ok createdAt) :
    ((deleteMemory W O row.id).run s).2.memories = s.memories.delete row.id := by
  rw [deleteMemory, getMemory, Effect.run_bind_read, s.memories.get_of_mem hrow]
  dsimp only
  rw [deleteRow, Effect.run_bind, Effect.run_lift, hcreated]
  dsimp only
  rw [Effect.run_bind_modify]
  have hwithin : Effect.Within SameMemories (do
      addHistory (historyRecord row.id "DELETE" ((row.payload.lookup "data").getD (.str "")) .null createdAt
        (.str O.now) true row.payload)
      removeMemoryFromEntityStore W.platform O row.id (sessionScope row.payload) : Op V Unit) :=
    .bind (addHistory_within _) fun _ => removeMemoryFromEntityStore_within _ _ _ _
  exact hwithin _

theorem deleteMemory_removes {createdAt : Value} (hrow : row ∈ s.memories.rows)
    (hcreated : normalizeTimestamp W (Payload.get row.payload "created_at") = .ok createdAt) :
    row.id ∉ ((deleteMemory W O row.id).run s).2.memories.rows.map Row.id := by
  rw [deleteMemory_row hrow hcreated, Table.rows_delete, List.mem_map]
  rintro ⟨other, hother, hid⟩
  simp [hid] at hother

theorem mem_deleteMemory {id : String} (hrow : row ∈ s.memories.rows) (hid : row.id ≠ id) :
    row ∈ ((deleteMemory W O id).run s).2.memories.rows := by
  cases hget : s.memories.get id with
  | none =>
    rw [deleteMemory, getMemory, Effect.run_bind_read, hget]
    exact hrow
  | some found =>
    have hfound : found.id = id := by simpa using List.find?_some hget
    have hin : found ∈ s.memories.rows := List.mem_of_find?_eq_some hget
    cases hcreated : normalizeTimestamp W (Payload.get found.payload "created_at") with
    | error e =>
      rw [deleteMemory, getMemory, Effect.run_bind_read, hget]
      dsimp only
      rw [deleteRow, Effect.run_bind, Effect.run_lift, hcreated]
      exact hrow
    | ok createdAt =>
      rw [← hfound, deleteMemory_row hin hcreated, Table.rows_delete, List.mem_filter]
      exact ⟨hrow, by simpa [hfound] using hid⟩

theorem recordable_of_deleted {s' : MemoryState V} (hrow : row ∈ s.memories.rows)
    (h : (deleteMemory W O row.id).run s = (.ok (), s')) : row.Recordable W O := by
  simp only [deleteMemory, getMemory, Effect.run_bind_read, s.memories.get_of_mem hrow, deleteRow, Effect.bind_ok,
    Effect.lift_ok, Effect.modify_ok, addHistory] at h
  obtain ⟨createdAt, _, ⟨hcreated, rfl⟩, _, _, rfl, _, _, ⟨_, _, ⟨hbind, rfl⟩, _⟩, _⟩ := h
  exact ⟨createdAt, hcreated, hbind⟩

/-- The deletions reach a row if those before it return. -/
theorem deleteRows_removes {earlier later : List (Row V)} {createdAt : Value}
    (hrows : ∀ r ∈ earlier ++ row :: later, r ∈ s.memories.rows)
    (hunique : ((earlier ++ row :: later).map Row.id).Nodup)
    (hcreated : normalizeTimestamp W (Payload.get row.payload "created_at") = .ok createdAt) :
    row.id ∉ ((Effect.forEach (earlier ++ row :: later) fun r => deleteMemory W O r.id).run s).2.memories.rows.map
      Row.id ↔ ∀ r ∈ earlier, r.Recordable W O := by
  have hshrinks : ∀ rows : List (Row V), Effect.Within Shrinks
      (Effect.forEach rows fun r => deleteMemory W O r.id) :=
    fun rows => Effect.Within.loop (fun _ r _ => deleteMemory_within W O r.id) ()
  induction earlier generalizing s with
  | nil =>
    have hremoved := deleteMemory_removes (O := O) (hrows row (by simp)) hcreated
    rw [List.nil_append, Effect.forEach, Effect.loop_cons, Effect.run_bind]
    cases hrun : (deleteMemory W O row.id).run s with
    | mk result s₁ =>
      rw [hrun] at hremoved
      cases result with
      | error e => simpa using hremoved
      | ok u =>
        have hsub := (hshrinks later s₁).map Row.id
        simp only [List.not_mem_nil, IsEmpty.forall_iff, implies_true, iff_true]
        exact fun hmem => hremoved (hsub.subset hmem)
  | cons first earlier ih =>
    rw [List.cons_append, List.map_cons, List.nodup_cons] at hunique
    have hother : ∀ r ∈ earlier ++ row :: later, r.id ≠ first.id :=
      fun r hr hid => hunique.1 (hid ▸ List.mem_map_of_mem hr)
    have hleft : ∀ r ∈ earlier ++ row :: later, r ∈ ((deleteMemory W O first.id).run s).2.memories.rows :=
      fun r hr => mem_deleteMemory (hrows r (List.mem_cons_of_mem _ hr)) (hother r hr)
    have hfirst : first ∈ s.memories.rows := hrows first List.mem_cons_self
    rw [List.cons_append, Effect.forEach, Effect.loop_cons, Effect.run_bind, List.forall_mem_cons]
    cases hrun : (deleteMemory W O first.id).run s with
    | mk result s₁ =>
      rw [hrun] at hleft
      cases result with
      | error e =>
        have hstays : row.id ∈ s₁.memories.rows.map Row.id := List.mem_map_of_mem (hleft row (by simp))
        refine ⟨fun h => absurd hstays h, fun h => ?_⟩
        obtain ⟨s', hreturns⟩ := deleteMemory_returns hfirst h.1
        rw [hrun] at hreturns
        cases hreturns
      | ok u =>
        have hrest := ih hleft hunique.2
        rw [Effect.forEach] at hrest
        rw [and_iff_right (recordable_of_deleted hfirst hrun)]
        exact hrest

end

/-! ## The condition -/

/-- One of the identifiers scopes a session. -/
def AddIds.ScopesSession (ids : AddIds) : Prop := ∃ e ∈ graphEntities ids, e.1 ∈ scopeIds ∧ (givenId e.2).isSome = true

/-- The application is named without blanks around it. -/
def AddIds.PlainApp (ids : AddIds) : Prop := ∀ appId, givenId ids.appId = some appId → strip appId = appId

section

variable {P : Platform} {project : ProjectId} {ids : AddIds} {payload : Payload}

theorem scopesSession_iff : ids.ScopesSession ↔ ∃ e ∈ listIds project ids, e.1 ∈ scopeIds := by
  constructor
  · rintro ⟨⟨name, value⟩, he, hname, hgiven⟩
    obtain ⟨text, htext⟩ := Option.isSome_iff_exists.mp hgiven
    refine ⟨(name, text), ?_, hname⟩
    rw [mem_listIds]
    simp only [graphEntities, List.mem_cons, Prod.mk.injEq, List.not_mem_nil, or_false] at he
    rcases he with ⟨rfl, rfl⟩ | ⟨rfl, rfl⟩ | ⟨rfl, rfl⟩ | ⟨rfl, rfl⟩
    · exact .inl ⟨rfl, htext⟩
    · exact .inr (.inr (.inl ⟨rfl, htext⟩))
    · exact .inr (.inr (.inr (.inl ⟨rfl, htext⟩)))
    · exact .inr (.inl ⟨rfl, htext⟩)
  · rintro ⟨⟨name, text⟩, he, hname⟩
    rcases mem_listIds.mp he with ⟨rfl, h⟩ | ⟨rfl, h⟩ | ⟨rfl, h⟩ | ⟨rfl, h⟩ | ⟨rfl, h⟩
    · exact ⟨("user_id", ids.userId), by simp [graphEntities], hname, by simp [h]⟩
    · exact ⟨("run_id", ids.runId), by simp [graphEntities], hname, by simp [h]⟩
    · exact ⟨("agent_id", ids.agentId), by simp [graphEntities], hname, by simp [h]⟩
    · exact ⟨("app_id", ids.appId), by simp [graphEntities], hname, by simp [h]⟩
    · have hproject : "project_id" ∉ scopeIds := by decide
      exact absurd hname hproject

theorem AddIds.Accepted.forFilters (h : ids.Accepted) (hscopes : ids.ScopesSession) :
    AcceptedIds (listIds project ids) where
  unique := listIds_unique
  keys := listIds_keys
  trimmed := fun e he _ => h.trimmed e he
  scopes := scopesSession_iff.mp hscopes

theorem idMatches_stored {key value stored : String} (h : payload.lookup key = some (.str stored)) :
    idMatches P payload key value = true ↔ value = "*" ∨ stored = value := by
  rw [idMatches, Payload.text, h]
  split
  · rename_i hall
    simp [hall]
  · rename_i hone
    simp [hone, Value.sqlText]

/-- A stored memory carries the filters of the listing if the name of its application was plain. -/
theorem carriesIds_stored (hstored : StoredUnder project ids payload) :
    carriesIds P (trimScopeIds (listIds project ids)) payload = true ↔ ids.PlainApp := by
  have hstrip : strip "*" = "*" := by decide
  rw [carriesIds, trimScopeIds, List.all_map, List.all_eq_true]
  constructor
  · intro h appId happ
    have he : ("app_id", appId) ∈ listIds project ids := mem_listIds.mpr (.inr (.inr (.inr (.inl ⟨rfl, happ⟩))))
    have hfree : "app_id" ∉ scopeIds := by decide
    have hmatches := h _ he
    rw [Function.comp, if_neg hfree, idMatches_stored (hstored _ he)] at hmatches
    rcases hmatches with hall | hsame
    · rw [show appId = "*" from hall, hstrip]
    · exact hsame
  · intro hplain e he
    rw [Function.comp]
    split
    · rw [idMatches_stored (hstored e he)]
      exact .inr rfl
    · rename_i hscope
      rw [idMatches_stored (hstored e he)]
      apply Or.inr
      rcases mem_listIds.mp he with ⟨hname, -⟩ | ⟨hname, -⟩ | ⟨hname, -⟩ | ⟨-, happ⟩ | ⟨-, hvalue⟩
      · exact absurd (hname ▸ by decide) hscope
      · exact absurd (hname ▸ by decide) hscope
      · exact absurd (hname ▸ by decide) hscope
      · exact hplain e.2 happ
      · rw [← hvalue, ProjectId.strip_project]

theorem normalizeTimestamp_of_formats {W : Writer V S} (h : payload.Formats) :
    ∃ createdAt, normalizeTimestamp W (Payload.get payload "created_at") = .ok createdAt := by
  obtain ⟨item, hitem⟩ := h
  simp only [formatItem, bind_ok] at hitem
  obtain ⟨_, -, _, -, created, hcreated, -⟩ := hitem
  cases hvalue : Payload.get payload "created_at" with
  | str s =>
    rw [normalizeTimestamp]
    split
    · exact ⟨_, rfl⟩
    · exact ⟨_, rfl⟩
  | null => exact ⟨_, rfl⟩
  | _ => rw [hvalue] at hcreated; cases hcreated

/-! ## Listing -/

variable {W : Writer V S} {t : Table V} {row : Row V} {showExpired : Bool}

/-- What a listing by the identifiers needs to answer a memory that is stored under them. -/
structure Listable (W : Writer V S) (t : Table V) (project : ProjectId) (ids : AddIds) (showExpired : Bool)
    (row : Row V) : Prop where
  session : ids.ScopesSession
  plain : ids.PlainApp
  shown : hidden W.toEngine showExpired row.payload = false
  formats : AllFormat W.toEngine t (trimScopeIds (listIds project ids)) showExpired

theorem mem_of_id {rows : List (Row V)} (hsub : ∀ r ∈ rows, r ∈ t.rows) (hrow : row ∈ t.rows)
    (hid : row.id ∈ rows.map Row.id) : row ∈ rows := by
  obtain ⟨other, hother, hsame⟩ := List.mem_map.mp hid
  have heq : other = row := List.inj_on_of_nodup_map t.unique (hsub other hother) hrow hsame
  exact heq ▸ hother

theorem getMemoriesByIds_answers (h : Listable W t project ids showExpired row) (haccepted : ids.Accepted)
    (hrow : row ∈ t.rows) (hstored : StoredUnder project ids row.payload) {topK : Nat} (hlimit : t.rows.length ≤ topK) :
    ∃ items, getMemoriesByIds W.toEngine t project ids (some topK) showExpired = .ok items ∧
      row.id ∈ items.map MemoryItem.id := by
  have hcarries := (@carriesIds_stored W.platform _ _ _ hstored).mpr h.plain
  rw [getMemoriesByIds, Option.getD_some, getAll_ids (haccepted.forFilters h.session) hlimit]
  obtain ⟨items, hitems⟩ := @mapM_succeeds PyError (Row V) (MemoryItem Unit) (fun r => formatItem r.id () r.payload)
    ((t.rows.filter fun r => carriesIds W.platform (trimScopeIds (listIds project ids)) r.payload).filter
      fun r => !hidden W.toEngine showExpired r.payload) (by
      intro r hr
      obtain ⟨hr, hshown⟩ := List.mem_filter.mp hr
      obtain ⟨hr, hr'⟩ := List.mem_filter.mp hr
      obtain ⟨item, hitem⟩ := h.formats r hr hr' (by simpa using hshown)
      exact formatItem_ok hitem r.id ())
  refine ⟨items, hitems, ?_⟩
  rw [← forall₂_map_eq (mapM_ok.mp hitems) fun r item hformat => ((formatItem_spec hformat).1).symm]
  apply List.mem_map_of_mem
  exact List.mem_filter.mpr ⟨List.mem_filter.mpr ⟨hrow, hcarries⟩, by simp [h.shown]⟩

theorem listable_of_answered (haccepted : ids.Accepted) (hrow : row ∈ t.rows)
    (hstored : StoredUnder project ids row.payload) {items : List (MemoryItem Unit)}
    (hitems : getMemoriesByIds W.toEngine t project ids (some t.rows.length) showExpired = .ok items)
    (hlisted : row.id ∈ items.map MemoryItem.id) : Listable W t project ids showExpired row := by
  have hscopes : ids.ScopesSession := by
    by_contra hnone
    rw [@scopesSession_iff project] at hnone
    obtain ⟨e, he⟩ := @validateFilters_none (listIds project ids) (by
      intro name hname
      rw [Dict.lookup_eq_none_iff_keys]
      intro hmem
      obtain ⟨e, he, rfl⟩ := List.mem_map.mp hmem
      exact hnone ⟨e, he, hname⟩)
    rw [getMemoriesByIds, getAll, if_neg (by simp), he] at hitems
    cases hitems
  rw [getMemoriesByIds, Option.getD_some, getAll_ids (haccepted.forFilters hscopes) le_rfl] at hitems
  rw [← forall₂_map_eq (mapM_ok.mp hitems) fun r item hformat => ((formatItem_spec hformat).1).symm] at hlisted
  have hin := mem_of_id (fun r hr => List.mem_of_mem_filter (List.mem_of_mem_filter hr)) hrow hlisted
  obtain ⟨hin, hshown⟩ := List.mem_filter.mp hin
  refine ⟨hscopes, (carriesIds_stored hstored).mp (List.mem_filter.mp hin).2, by simpa using hshown, ?_⟩
  intro r hr hcarries hvisible
  obtain ⟨item, -, hformat⟩ := exists_right_of_mem (mapM_ok.mp hitems)
    (List.mem_filter.mpr ⟨List.mem_filter.mpr ⟨hr, hcarries⟩, by simp [hvisible]⟩)
  exact formatItem_ok hformat "" ()

end

/-! ## Searching -/

section

variable {project : ProjectId} {ids : AddIds}

/-- The identifier that a filter asks for. -/
def filterId : String × Value → String × String
  | (key, .str s) => (key, s)
  | (key, _) => (key, "")

theorem map_filterId (ids : List (String × String)) : (idFilters ids).map filterId = ids := by
  rw [idFilters, List.map_map]
  exact (List.map_congr_left fun e _ => rfl).trans (List.map_id _)

/-- Filters that are the identifiers are a list of them in some order. -/
theorem projectFilters_ids {body : SearchBody S} (h : body.NamesIds project ids) :
    ∃ ids' : List (String × String), ids'.Perm (listIds project ids) ∧
      body.projectFilters project = idFilters ids' := by
  have hunique : Dict.Unique (idFilters (listIds project ids)) := by
    rw [Dict.Unique, keys_idFilters]
    exact listIds_unique
  have hperm := Dict.perm_of_lookup_eq (projectFilters_wf body project).1 hunique h
  refine ⟨(body.projectFilters project).map filterId, ?_, ?_⟩
  · exact map_filterId (listIds project ids) ▸ hperm.map filterId
  · rw [idFilters, List.map_map]
    apply ((List.map_congr_left fun e he => ?_).trans (List.map_id _)).symm
    obtain ⟨e', -, rfl⟩ := List.mem_map.mp (hperm.mem_iff.mp he)
    rfl

theorem AcceptedIds.perm {ids ids' : List (String × String)} (h : AcceptedIds ids) (hperm : ids'.Perm ids) :
    AcceptedIds ids' where
  unique := (hperm.map Prod.fst).nodup_iff.mpr h.unique
  keys := fun e he => h.keys e (hperm.mem_iff.mp he)
  trimmed := fun e he => h.trimmed e (hperm.mem_iff.mp he)
  scopes := by
    obtain ⟨e, he, hname⟩ := h.scopes
    exact ⟨e, hperm.mem_iff.mpr he, hname⟩

theorem carriesIds_perm {P : Platform} {ids ids' : List (String × String)} (hperm : ids'.Perm ids) (payload : Payload) :
    carriesIds P (trimScopeIds ids') payload = carriesIds P (trimScopeIds ids) payload :=
  (hperm.map _).all_eq

variable [Score S] {P : Platform} {memories : Table V}

/-- With room for every row the graph takes no result away. -/
theorem addGraphResults_keeps {results : List (MemoryItem S)} {related : List (Related S)} {limit : Nat}
    (hnodup : (results.map MemoryItem.id).Nodup) (hrows : ∀ item ∈ results, item.id ∈ memories.rows.map Row.id)
    (hrelated : (related.map Related.id).Nodup) (hlimit : memories.rows.length ≤ limit) {id : String}
    (hid : id ∈ results.map MemoryItem.id) :
    id ∈ (addGraphResults P memories project related limit results).map MemoryItem.id := by
  rw [addGraphResults]
  split
  · exact hid
  · have hextends : Extends P memories project results related _ := foldl_addGraphResult_extends hnodup hrelated
    have hlength := length_le_rows (t := memories) hextends.nodup (by
      intro item hitem
      rcases hextends.source item hitem with hold | ⟨-, r, -, happended⟩
      · obtain ⟨old, hold, hsame⟩ := List.mem_map.mp hold
        rw [← hsame]
        exact hrows old hold
      · obtain ⟨hsame, row, hrow, hrowid, -⟩ := appendedItem_spec happended
        rw [hsame, ← hrowid]
        exact List.mem_map_of_mem hrow)
    have hkept := (@foldl_addGraphResult_complete V S _ P memories project (results.map MemoryItem.id) results
      related).2 id (.inl hid)
    rw [topK_of_length_le (hlength.trans hlimit), ((ranked_perm _).map _).mem_iff]
    exact hkept

/-- A search by the identifiers, with room for every memory, whose query matches the memory. -/
structure SearchBody.Asks (body : SearchBody S) (W : Writer V S) (world : SearchWorld V S) (t : Table V)
    (project : ProjectId) (ids : AddIds) (showExpired : Bool) (defaultThreshold : S) (row : Row V) : Prop where
  engine : world.engine = W.toEngine
  memories : world.stores.memories = t
  reranker : ∀ r ∈ world.reranker, r.Complete
  names : body.NamesIds project ids
  expired : body.showExpired.getD false = showExpired
  limit : (t.rows.length : Int) ≤ body.limit
  threshold : 0 ≤ body.threshold.getD defaultThreshold ∧ body.threshold.getD defaultThreshold ≤ 1
  query : strip body.query ≠ ""
  text : (Payload.get row.payload "data").truthy = true
  matched : QueryMatches W.toEngine world.embedder t (strip body.query) (body.threshold.getD defaultThreshold) row

theorem searchMemories_answers {W : Writer V S} {world : SearchWorld V S} {body : SearchBody S} {t : Table V}
    {row : Row V} {showExpired : Bool} {defaultThreshold : S} (h : Listable W t project ids showExpired row)
    (haccepted : ids.Accepted) (hrow : row ∈ t.rows) (hstored : StoredUnder project ids row.payload)
    (hasks : body.Asks W world t project ids showExpired defaultThreshold row) :
    ∃ items, searchMemories world project defaultThreshold body = .ok items ∧ row.id ∈ items.map MemoryItem.id := by
  obtain ⟨ids', hperm, hfilters⟩ := projectFilters_ids hasks.names
  have hmemories := hasks.memories
  have hexpired := hasks.expired
  subst hmemories hexpired
  have hcarries := (@carriesIds_stored W.platform _ _ _ hstored).mpr h.plain
  have hformat : AllFormat W.toEngine world.stores.memories (trimScopeIds ids')
      (body.showExpired.getD false) := by
    intro r hr hr' hshown
    rw [carriesIds_perm hperm] at hr'
    exact h.formats r hr hr' hshown
  obtain ⟨response, hresponse, hnodup, hrows, hfound⟩ := @search_finds V S _ W.toEngine ids' world.embedder
    world.reranker world.stores (body.request project defaultThreshold)
    ((haccepted.forFilters h.session).perm hperm) hfilters hformat hasks.threshold hasks.query
    hasks.limit hasks.reranker
  have hin : row.id ∈ response.map MemoryItem.id := by
    apply hfound row hrow
    · rw [carriesIds_perm hperm]
      exact hcarries
    · exact h.shown
    · exact hasks.text
    · exact hasks.matched
  have hroom : world.stores.memories.rows.length ≤ body.limit.toNat := by
    have hlimit := hasks.limit
    omega
  have hrelated := relatedMemories_nodup world.tools world.graph body.query project (body.projectFilters project)
    (max body.limit.toNat 10)
  refine ⟨_, ?_, @addGraphResults_keeps V S project _ world.engine.platform _ _ _ _ hnodup hrows hrelated hroom _ hin⟩
  rw [searchMemories, hasks.engine, hresponse]
  rfl

end

/-! ## Deleting by the identifiers -/

section

variable {W : Writer V S} {O : Providers V} {row : Row V} {s : MemoryState V} {ids : AddIds} {project : ProjectId}

theorem trimIds_accepts {given : List (String × Option String)}
    (h : ∀ e ∈ givenIds given, trimEntityId e.1 e.2 = .ok (strip e.2)) :
    trimIds given = .ok ((givenIds given).map fun e => (e.1, strip e.2)) := by
  induction given with
  | nil => rfl
  | cons e given ih =>
    obtain ⟨name, _ | value⟩ := e
    · exact ih h
    · have hcons : givenIds ((name, some value) :: given) = (name, value) :: givenIds given := rfl
      rw [hcons] at h ⊢
      obtain ⟨hvalue, hrest⟩ := List.forall_mem_cons.mp h
      rw [trimIds, hvalue, ih hrest]
      rfl

/-- Rows that the deletions do not name stay, whether they return or raise. -/
theorem deleteRows_keeps {rows : List (Row V)} (hrow : row ∈ s.memories.rows) (hother : ∀ r ∈ rows, row.id ≠ r.id) :
    row ∈ ((Effect.forEach rows fun r => deleteMemory W O r.id).run s).2.memories.rows := by
  induction rows generalizing s with
  | nil => exact hrow
  | cons first rows ih =>
    obtain ⟨hfirst, hrest⟩ := List.forall_mem_cons.mp hother
    have hleft := @mem_deleteMemory _ _ W O row s first.id hrow hfirst
    rw [Effect.forEach, Effect.loop_cons, Effect.run_bind]
    cases hrun : (deleteMemory W O first.id).run s with
    | mk result s₁ =>
      rw [hrun] at hleft
      cases result with
      | error e => exact hleft
      | ok u =>
        have hstays := ih hleft hrest
        rw [Effect.forEach] at hstays
        exact hstays

/-- The deletion by the identifiers reaches the memory: it is on the page, and the rows before it can be recorded. -/
def Reached (W : Writer V S) (O : Providers V) (project : ProjectId) (ids : AddIds) (t : Table V) (row : Row V) :
    Prop :=
  ∃ earlier later, ((routeScope project ids).covered W.platform t).take defaultListLimit = earlier ++ row :: later ∧
    ∀ r ∈ earlier, r.Recordable W O

/-- What the deletion by the identifiers does to the memories. -/
theorem deleteAllRoute_memories {call : MemoryCall V} {w : SyncWorld V} (haccepted : ids.Accepted) :
    (deleteAllRoute W call ids w).memory = ((Effect.forEach (((routeScope call.project ids).covered W.platform
      w.memory.memories).take defaultListLimit) fun r => deleteMemory W call.providers r.id).run w.memory).2 := by
  have hgiven : ∀ e ∈ givenIds (routeScope call.project ids).ids, e ∈ listIds call.project ids := by
    rintro ⟨name, value⟩ he
    rw [mem_listIds]
    simp [givenIds, routeScope, DeleteScope.ids] at he
    grind
  have hids := trimIds_accepts fun e he => haccepted.trimmed e (hgiven e he)
  have hsome : ((givenIds (routeScope call.project ids).ids).map fun e => (e.1, strip e.2)).isEmpty = false := by
    have hproject : ("project_id", call.project.text) ∈ givenIds (routeScope call.project ids).ids :=
      List.mem_filterMap.mpr ⟨("project_id", some call.project.text), by simp [routeScope, DeleteScope.ids], rfl⟩
    rw [List.isEmpty_eq_false_iff_exists_mem]
    exact ⟨_, List.mem_map_of_mem hproject⟩
  have hrun : (deleteAll W call.providers (routeScope call.project ids)).run w.memory =
      (Effect.forEach (((routeScope call.project ids).covered W.platform w.memory.memories).take defaultListLimit)
        fun r => deleteMemory W call.providers r.id).run w.memory := by
    rw [deleteAll, Effect.run_bind, Effect.run_lift, hids]
    dsimp only
    rw [hsome, if_neg (by simp), Effect.run_bind_read, Effect.run_bind, Effect.run_lift, list_scope hids]
  rw [deleteAllRoute, if_neg (by simp [haccepted.1]), hrun]
  cases (Effect.forEach (((routeScope call.project ids).covered W.platform w.memory.memories).take defaultListLimit)
    fun r => deleteMemory W call.providers r.id).run w.memory with
  | mk result memory => cases result with
    | error e => rfl
    | ok u => rfl

theorem deleteAllRoute_removes {call : MemoryCall V} {w : SyncWorld V} (haccepted : ids.Accepted)
    (hrow : row ∈ w.memory.memories.rows) (hformats : row.payload.Formats) :
    row.id ∉ (deleteAllRoute W call ids w).memory.memories.rows.map Row.id ↔
      Reached W call.providers call.project ids w.memory.memories row := by
  obtain ⟨createdAt, hcreated⟩ := @normalizeTimestamp_of_formats _ _ _ W hformats
  rw [deleteAllRoute_memories haccepted, Reached]
  have hpage : ∀ r ∈ ((routeScope call.project ids).covered W.platform w.memory.memories).take defaultListLimit,
      r ∈ w.memory.memories.rows := fun r hr => List.mem_of_mem_filter (List.mem_of_mem_take hr)
  have hunique : ((((routeScope call.project ids).covered W.platform w.memory.memories).take
      defaultListLimit).map Row.id).Nodup :=
    ((routeScope call.project ids).covered_unique W.platform _).sublist ((List.take_sublist _ _).map _)
  generalize ((routeScope call.project ids).covered W.platform w.memory.memories).take defaultListLimit = page at *
  constructor
  · intro hgone
    have hin : row ∈ page := by
      by_contra hnotin
      apply hgone
      apply List.mem_map_of_mem
      apply deleteRows_keeps hrow
      intro r hr hid
      have hsame := List.inj_on_of_nodup_map w.memory.memories.unique hrow (hpage r hr) hid
      exact hnotin (hsame ▸ hr)
    obtain ⟨earlier, later, rfl⟩ := List.append_of_mem hin
    exact ⟨earlier, later, rfl, (deleteRows_removes hpage hunique hcreated).mp hgone⟩
  · rintro ⟨earlier, later, rfl, hrecordable⟩
    exact (deleteRows_removes hpage hunique hcreated).mpr hrecordable

end

/-! ## The law -/

section

variable [Score S]

/-- List and search answer the memory, and the deletion takes it away. -/
structure FoundByIds (W : Writer V S) (call : MemoryCall V) (ids : AddIds) (w : SyncWorld V) (showExpired : Bool)
    (row : Row V) : Prop where
  listed : ∀ topK : Nat, w.memory.memories.rows.length ≤ topK → ∃ items,
    getMemoriesByIds W.toEngine w.memory.memories call.project ids (some topK) showExpired = .ok items ∧
      row.id ∈ items.map MemoryItem.id
  searched : ∀ (world : SearchWorld V S) (defaultThreshold : S) (body : SearchBody S),
    body.Asks W world w.memory.memories call.project ids showExpired defaultThreshold row → ∃ items,
      searchMemories world call.project defaultThreshold body = .ok items ∧ row.id ∈ items.map MemoryItem.id
  removed : row.id ∉ (deleteAllRoute W call ids w).memory.memories.rows.map Row.id

/-- An addition stores its memories under the identifiers it accepts, and a memory that is stored so is found and
deleted by them if a session is named, the application is plain, no row stops the listing and none the deletion. -/
theorem stored_found_iff (W : Writer V S) (R : EntityReader) (call : MemoryCall V) (ids : AddIds) :
    (∀ (body : CreateBody) (w : SyncWorld V), body.ids = ids → ∃ new,
      (addMemoryRoute W R call body w).memory.memories.rows = w.memory.memories.rows ++ new ∧
        ∀ row ∈ new, ids.Accepted ∧ StoredUnder call.project ids row.payload) ∧
    (ids.Accepted → ∀ (w : SyncWorld V), ∀ row ∈ w.memory.memories.rows, StoredUnder call.project ids row.payload →
      ∀ showExpired : Bool, FoundByIds W call ids w showExpired row ↔
        Listable W w.memory.memories call.project ids showExpired row ∧
          Reached W call.providers call.project ids w.memory.memories row) := by
  constructor
  · rintro body w rfl
    exact addMemoryRoute_stores
  · intro haccepted w row hrow hstored showExpired
    have hformats : Listable W w.memory.memories call.project ids showExpired row → row.payload.Formats :=
      fun h => h.formats row hrow ((carriesIds_stored hstored).mpr h.plain) h.shown
    constructor
    · intro h
      obtain ⟨items, hitems, hlisted⟩ := h.listed _ le_rfl
      have hlistable := listable_of_answered haccepted hrow hstored hitems hlisted
      exact ⟨hlistable, (deleteAllRoute_removes haccepted hrow (hformats hlistable)).mp h.removed⟩
    · rintro ⟨hlistable, hreached⟩
      constructor
      · intro topK hlimit
        exact getMemoriesByIds_answers hlistable haccepted hrow hstored hlimit
      · intro world defaultThreshold body hasks
        exact searchMemories_answers hlistable haccepted hrow hstored hasks
      · exact (deleteAllRoute_removes haccepted hrow (hformats hlistable)).mpr hreached

/-- The memory that `teaBody` leaves. -/
def storedTea : Row Unit :=
  ⟨teaId, none, [("project_id", .str "default-project"), ("user_id", .str "u"), ("role", .str "user"),
    ("embedding_status", .str "pending"), ("data", .str "tea"), ("hash", .str "tea"),
    ("text_lemmatized", .str "tea"), ("created_at", .str "now"), ("updated_at", .str "now")]⟩

/-- The memory of a user is listed, found and deleted by the same request. -/
theorem stored_found_tea :
    (addMemoryRoute (Writer.plain .ascii : Writer Unit ℚ) acmeReader (plainCall (.add teaBody)) teaBody
      .start).memory.memories.rows = [storedTea] ∧
    FoundByIds (Writer.plain .ascii : Writer Unit ℚ) (plainCall (.add teaBody)) teaBody.ids
      (addMemoryRoute (Writer.plain .ascii : Writer Unit ℚ) acmeReader (plainCall (.add teaBody)) teaBody .start) false
      storedTea := by
  have hrows : (addMemoryRoute (Writer.plain .ascii : Writer Unit ℚ) acmeReader (plainCall (.add teaBody)) teaBody
      .start).memory.memories.rows = [storedTea] := by
    simp only [addMemoryRoute, plainCall, add, addToVectorStore, addRawMessages, existingPayloadValues_scope]
    rfl
  generalize addMemoryRoute (Writer.plain .ascii : Writer Unit ℚ) acmeReader (plainCall (.add teaBody)) teaBody .start =
    w at *
  have hlaw := (stored_found_iff (Writer.plain .ascii : Writer Unit ℚ) acmeReader (plainCall (.add teaBody))
    teaBody.ids).2
  have haccepted : teaBody.ids.Accepted := by
    refine ⟨by decide, [("project_id", .str "default-project")], _, rfl⟩
  have hstored : StoredUnder .default teaBody.ids storedTea.payload := by
    have hids : listIds .default teaBody.ids = [("user_id", "u"), ("project_id", "default-project")] := rfl
    rw [StoredUnder, hids]
    simp only [List.forall_mem_cons, List.not_mem_nil, IsEmpty.forall_iff, implies_true, and_true]
    exact ⟨rfl, rfl⟩
  refine ⟨hrows, (hlaw haccepted w storedTea (by simp [hrows]) hstored false).mpr ⟨⟨?_, ?_, rfl, ?_⟩, ?_⟩⟩
  · exact ⟨("user_id", some "u"), by decide, by decide, rfl⟩
  · intro appId happ
    cases happ
  · intro row hrow _ _
    obtain rfl := List.mem_singleton.mp (hrows ▸ hrow)
    exact ⟨_, rfl⟩
  · refine ⟨[], [], ?_, by simp⟩
    rw [DeleteScope.covered, hrows]
    rfl

/-- `{"messages": "tea", "app_id": "notes"}` -/
def notesBody : CreateBody := { teaBody with ids := ⟨none, none, some "notes", none⟩ }

/-- A memory of an application alone is stored, and no listing answers it. -/
theorem stored_not_found : ¬ ∀ (W : Writer Unit ℚ) (R : EntityReader) (call : MemoryCall Unit) (body : CreateBody)
    (w : SyncWorld Unit), ∀ row ∈ (addMemoryRoute W R call body w).memory.memories.rows,
      row.id ∉ w.memory.memories.rows.map Row.id →
      FoundByIds W call body.ids (addMemoryRoute W R call body w) true row := by
  intro h
  have hnotes := h (.plain .ascii) acmeReader (plainCall (.add notesBody)) notesBody .start
  simp only [addMemoryRoute, plainCall, add, addToVectorStore, addRawMessages, existingPayloadValues_scope] at hnotes
  have hfound := hnotes _ List.mem_cons_self (by simp [SyncWorld.start, noMemories, Table.empty])
  obtain ⟨items, hitems, -⟩ := hfound.listed 1 le_rfl
  have hnone : ∀ name ∈ scopeIds, (listIds .default notesBody.ids).lookup name = none := by decide
  obtain ⟨e, he⟩ := validateFilters_none hnone
  rw [getMemoriesByIds, getAll, if_neg (by decide)] at hitems
  have hrefused : (Except.error e : Except PyError (List (MemoryItem Unit))) = .ok items := by
    rw [← hitems]
    show _ = (validateFilters (idFilters (listIds .default notesBody.ids))) >>= _
    rw [he]
    rfl
  cases hrefused

end

end YiQiao
