import YiQiao.Memory.DeleteAll
import YiQiao.Memory.Scope
import YiQiao.Memory.SessionScope
import YiQiao.Server.Visibility

/-!
# Whose memory a row is

The server reads a row without a project id as one of the default project. The statements of the store compare the
text of the project id, so that such a row is nobody's.
-/

namespace YiQiao

open Lib Filters Fallible

variable {V : Type}

/-! ## The readings -/

/-- `_memory_project_id` of what `Memory.get` answers. -/
def memoryProjectId {S : Type} (P : Platform) (item : MemoryItem S) : String := Payload.projectId P item.metadata

/-- `payload.get("project_id", DEFAULT_PROJECT_ID) == project_id`. -/
def entityOwns (project : ProjectId) (payload : Payload) : Bool :=
  ((payload.lookup "project_id").getD (.str defaultProjectId)).isText project.text

/-- `project_id` of `_serialize`. -/
def exportProject (payload : Payload) : Value :=
  let nested := match Payload.get payload "metadata" with
    | .dict metadata => Payload.get metadata "project_id"
    | _ => .null
  (Payload.get payload "project_id").orElse (nested.orElse (.str defaultProjectId))

/-- The filters with which `_all_memories` asks the store. -/
def exportFilters (project : ProjectId) : Entries :=
  if project.text = defaultProjectId then [] else [("project_id", .str project.text)]

/-- The part of `_scope_filters` that is about the project. -/
def reembedFilters (project : ProjectId) : Entries :=
  if project.text = defaultProjectId then
    [("$or", .list [.dict [("project_id", .str project.text)],
      .dict [("$not", .list [.dict [("project_id", .str "*")]])]])]
  else [("project_id", .str project.text)]

/-- `if user_id:` -/
def reembedUser : Option String → Entries
  | none => []
  | some userId => if userId = "" then [] else [("user_id", .str userId)]

/-- `SCAN_LIMIT`. -/
def payloadScanLimit : Nat := 10000

/-! ## Operations -/

/-- The filters select the payload. -/
def AdmittedBy (P : Platform) (filters : Entries) (payload : Payload) : Prop :=
  ∃ conds, buildFilterConditions P filters = .ok conds ∧ selects P conds payload = true

/-- An operation of a project, with its own filters. -/
inductive ProjectOperation
  /-- `GET /memories` without identifiers -/
  | listing (limit : Nat)
  /-- `GET /memories/{memory_id}` -/
  | directGet (id : String)
  /-- `_iter_payloads` -/
  | entities
  /-- `_all_memories` -/
  | export
  /-- `_query_rows` of the re-embedding -/
  | reembed (userId : Option String)
  /-- `POST /search` with flat filters -/
  | search (filters : Entries) (others : filters.lookup "project_id" = none)
  /-- `DELETE /memories` -/
  | deletion (userId agentId runId appId : Option String)
  /-- `_existing_payload_values` in a scope -/
  | duplicates (scope : ScopeIds) (others : scope.lookup "project_id" = none)

namespace ProjectOperation

variable (P : Platform) (project : ProjectId) (t : Table V) (row : Row V)

/-- The row meets the operation's own filters. -/
def Own : ProjectOperation → Prop
  | .listing limit => row ∈ t.rows.take limit
  | .directGet id => t.get id = some row ∧ ∃ item, formatItem row.id () row.payload = .ok item
  | .entities => row ∈ t.rows.take payloadScanLimit
  | .export => row ∈ t.rows
  | .reembed userId => row ∈ t.rows ∧ AdmittedBy P (reembedUser userId) row.payload
  | .search filters _ => row ∈ t.rows ∧ AdmittedBy P filters row.payload
  | .deletion userId agentId runId appId =>
      row ∈ t.rows ∧ DeleteScope.covers P ⟨userId, agentId, runId, appId, none⟩ row.payload = true
  | .duplicates scope _ => row ∈ t.rows ∧ inScope P scope row.payload = true

/-- The operation treats the row as the project's. -/
def Treats : ProjectOperation → Prop
  | .listing limit => row ∈ t.rows.take limit ∧ row.payload.projectId P = project.text
  | .directGet id => t.get id = some row ∧
      ∃ item, formatItem row.id () row.payload = .ok item ∧ memoryProjectId P item = project.text
  | .entities => row ∈ t.rows.take payloadScanLimit ∧ entityOwns project row.payload = true
  | .export => row ∈ t.rows ∧ AdmittedBy P (exportFilters project) row.payload ∧
      (exportProject row.payload).isText project.text = true
  | .reembed userId => row ∈ t.rows ∧ AdmittedBy P (reembedFilters project ++ reembedUser userId) row.payload
  | .search filters _ => row ∈ t.rows ∧ AdmittedBy P (Dict.set "project_id" (.str project.text) filters) row.payload
  | .deletion userId agentId runId appId => row ∈ t.rows ∧
      DeleteScope.covers P ⟨userId, agentId, runId, appId, some project.text⟩ row.payload = true
  | .duplicates scope _ => row ∈ t.rows ∧ inScope P (scope ++ [("project_id", project.text)]) row.payload = true

end ProjectOperation

/-- One rule says which rows are the project's, whatever the operation. -/
def OneRule (P : Platform) (project : ProjectId) (t : Table V) : Prop :=
  ∃ rule : Row V → Prop, ∀ operation : ProjectOperation, ∀ row ∈ t.rows,
    operation.Treats P project t row ↔ rule row ∧ operation.Own P t row

/-! ## Statements -/

section

variable {P : Platform} {payload : Payload}

theorem admitted_append {d e : Entries} :
    AdmittedBy P (d ++ e) payload ↔ AdmittedBy P d payload ∧ AdmittedBy P e payload := by
  constructor
  · rintro ⟨conds, hconds, hsel⟩
    obtain ⟨cd, ce, hd, he, rfl⟩ := buildFilterConditions_append hconds
    obtain ⟨hleft, hright⟩ := selects_append.mp hsel
    exact ⟨⟨cd, hd, hleft⟩, ce, he, hright⟩
  · rintro ⟨⟨cd, hd, hleft⟩, ce, he, hright⟩
    exact ⟨cd ++ ce, buildFilterConditions_append_ok hd he, selects_append.mpr ⟨hleft, hright⟩⟩

theorem admitted_ids {ids : List (String × String)} (hkeys : ∀ e ∈ ids, e.1 ≠ "$or" ∧ e.1 ≠ "$not") :
    AdmittedBy P (idFilters ids) payload ↔ (ids.all fun e => idMatches P payload e.1 e.2) = true := by
  rw [AdmittedBy, buildFilterConditions_ids P hkeys]
  constructor
  · rintro ⟨conds, hconds, hsel⟩
    cases hconds
    rwa [selects_ids] at hsel
  · intro h
    exact ⟨_, rfl, by rwa [selects_ids]⟩

theorem idMatches_project (project : ProjectId) :
    idMatches P payload "project_id" project.text = true ↔ payload.text P "project_id" = some project.text := by
  rw [idMatches, if_neg project.text_ne_star, beq_iff_eq]

theorem admitted_project (project : ProjectId) :
    AdmittedBy P [("project_id", .str project.text)] payload ↔ payload.text P "project_id" = some project.text := by
  have hids := @admitted_ids P payload [("project_id", project.text)] (by simp)
  rw [show idFilters [("project_id", project.text)] = [("project_id", .str project.text)] from rfl] at hids
  rw [hids, ← idMatches_project]
  simp

/-- Rows without a project id are the default project's. -/
theorem admitted_reembed (project : ProjectId) : AdmittedBy P (reembedFilters project) payload ↔
    payload.text P "project_id" = some project.text ∨
      project.text = defaultProjectId ∧ payload.lookup "project_id" = none := by
  rw [reembedFilters]
  split
  · rename_i hdefault
    have hstar : project.text ≠ "*" := project.text_ne_star
    have hconds : buildFilterConditions P [("$or", .list [.dict [("project_id", .str project.text)],
        .dict [("$not", .list [.dict [("project_id", .str "*")]])]])] =
        .ok [.any [.all [.atom (.eq "project_id" project.text)],
          .all [.neg (.any [.all [.atom (.hasKey "project_id")]])]]] := by
      simp [buildFilterConditions, buildEntry, buildGroups, buildGroupList, buildGroup, buildField, orCondition,
        notCondition, nonEmptyGroups, Value.isStar, Value.pyStr, hstar, bind, Except.bind, pure, Except.pure]
    rw [AdmittedBy, hconds]
    simp only [Except.ok.injEq, exists_eq_left']
    rw [selects_iff]
    simp [Kleene.Expr.atomsList, Kleene.Expr.atoms, Test.fails, Kleene.Expr.eval, Kleene.Expr.evalAny,
      Kleene.Expr.evalAll, Test.value, hdefault]
  · rename_i hother
    rw [admitted_project]
    simp [hother]

theorem lookup_filter_key {p : String → Bool} {key : String} (h : p key = true) (d : Entries) :
    (d.filter fun e => p e.1).lookup key = d.lookup key := by
  induction d with
  | nil => rfl
  | cons e d ih =>
      obtain ⟨k, v⟩ := e
      by_cases hk : key = k
      · subst hk
        simp [h]
      · have hb : (key == k) = false := by simpa using hk
        cases hp : p k with
        | true => simp [hp, List.lookup_cons, hb, ih]
        | false => simp [hp, List.lookup_cons, hb, ih]

theorem memoryProjectId_of_format {S : Type} {id : String} {score : S} {item : MemoryItem S}
    (h : formatItem id score payload = .ok item) : memoryProjectId P item = payload.projectId P := by
  simp only [formatItem, bind_ok, pure_ok] at h
  obtain ⟨_, _, _, _, _, _, _, _, rfl⟩ := h
  have hlookup := @lookup_filter_key (fun key => decide (key ∉ coreAndPromotedKeys)) "project_id" (by decide) payload
  simp only [memoryProjectId, Payload.projectId, Payload.get, hlookup]
  rfl

end

/-! ## Where the readings agree -/

/-- The texts of zero, of false and of empty containers are not the id of the default project. -/
def Platform.Legible (P : Platform) : Prop :=
  ∀ v : Value, v.truthy = false → v.sqlText P ≠ some defaultProjectId

/-- Every row that one of the readings gives to the project carries its id as a text. -/
def Labelled (P : Platform) (project : ProjectId) (t : Table V) : Prop :=
  ∀ row ∈ t.rows, row.payload.OfProject P project →
    row.payload.lookup "project_id" = some (.str project.text)

section

variable {P : Platform} {project : ProjectId} {t : Table V} {row : Row V} {payload : Payload}

theorem project_truthy (project : ProjectId) : (Value.str project.text).truthy = true := by
  have hne : project.text ≠ "" := fun h => project.nonempty (by rw [h]; rfl)
  simpa [Value.truthy] using hne

theorem projectId_of_labelled (h : payload.lookup "project_id" = some (.str project.text)) :
    payload.projectId P = project.text := by
  simp [Payload.projectId, Payload.get, h, project_truthy, Value.pyStr]

theorem text_of_labelled (h : payload.lookup "project_id" = some (.str project.text)) :
    payload.text P "project_id" = some project.text := by
  simp [Payload.text, h, Value.sqlText]

theorem exportProject_of_labelled (h : payload.lookup "project_id" = some (.str project.text)) :
    (exportProject payload).isText project.text = true := by
  simp [exportProject, Payload.get, h, Value.orElse, project_truthy, Value.isText]

theorem entityOwns_of_labelled (h : payload.lookup "project_id" = some (.str project.text)) :
    entityOwns project payload = true := by
  simp [entityOwns, h, Value.isText]

theorem isText_iff {s : String} {v : Value} : v.isText s = true ↔ v = .str s := by
  cases v <;> simp [Value.isText]

/-- What the entities count is read so by the server too. -/
theorem projectId_of_entityOwns (h : entityOwns project payload = true) : payload.projectId P = project.text := by
  rw [entityOwns, isText_iff] at h
  cases hlookup : payload.lookup "project_id" with
  | none =>
      rw [hlookup] at h
      have hdefault : defaultProjectId = project.text := by simpa using h
      simp [Payload.projectId, Payload.get, hlookup, Value.truthy, hdefault]
  | some v =>
      rw [hlookup] at h
      rw [Option.getD_some] at h
      exact projectId_of_labelled (h ▸ hlookup)

/-- A falsy project id is read as that of the default project. -/
theorem exportProject_cases (h : (exportProject payload).isText project.text = true) :
    payload.lookup "project_id" = some (.str project.text) ∨
      (Payload.get payload "project_id").truthy = false ∧ payload.projectId P = defaultProjectId := by
  cases htruthy : (Payload.get payload "project_id").truthy with
  | true =>
      rw [exportProject, Value.orElse, if_pos htruthy, isText_iff, Payload.get] at h
      cases hlookup : payload.lookup "project_id" with
      | none => simp [hlookup] at h
      | some v =>
          rw [hlookup, Option.getD_some] at h
          exact .inl (by rw [h])
  | false => exact .inr ⟨rfl, by simp [Payload.projectId, htruthy]⟩

/-- A labelled row is the project's to every operation, and another row to none. -/
theorem treats_iff (hlabelled : payload.OfProject P project → payload.lookup "project_id" = some (.str project.text))
    (hpayload : row.payload = payload) (operation : ProjectOperation) : operation.Treats P project t row ↔
      payload.lookup "project_id" = some (.str project.text) ∧ operation.Own P t row := by
  subst hpayload
  have hread : row.payload.projectId P = project.text ↔ row.payload.lookup "project_id" = some (.str project.text) :=
    ⟨fun h => hlabelled (.inr h), projectId_of_labelled⟩
  have htext : row.payload.text P "project_id" = some project.text ↔
      row.payload.lookup "project_id" = some (.str project.text) := ⟨fun h => hlabelled (.inl h), text_of_labelled⟩
  cases operation with
  | listing limit => rw [ProjectOperation.Treats, ProjectOperation.Own, hread, and_comm]
  | directGet id =>
      rw [ProjectOperation.Treats, ProjectOperation.Own]
      constructor
      · rintro ⟨hget, item, hitem, hproject⟩
        rw [memoryProjectId_of_format hitem] at hproject
        exact ⟨hread.mp hproject, hget, item, hitem⟩
      · rintro ⟨hproject, hget, item, hitem⟩
        exact ⟨hget, item, hitem, (memoryProjectId_of_format hitem).trans (hread.mpr hproject)⟩
  | entities =>
      rw [ProjectOperation.Treats, ProjectOperation.Own, and_comm]
      exact and_congr_left fun _ => ⟨fun h => hread.mp (projectId_of_entityOwns h), entityOwns_of_labelled⟩
  | «export» =>
      rw [ProjectOperation.Treats, ProjectOperation.Own]
      constructor
      · rintro ⟨hrow, hadmitted, hexport⟩
        refine ⟨?_, hrow⟩
        rw [exportFilters] at hadmitted
        split at hadmitted
        · rename_i hdefault
          rcases @exportProject_cases P project row.payload hexport with h | ⟨_, hid⟩
          · exact h
          · exact hread.mp (hid.trans hdefault.symm)
        · exact htext.mp ((admitted_project project).mp hadmitted)
      · rintro ⟨hproject, hrow⟩
        refine ⟨hrow, ?_, exportProject_of_labelled hproject⟩
        rw [exportFilters]
        split
        · exact ⟨[], by rw [buildFilterConditions], by simp [selects, Kleene.Expr.atomsList, Kleene.Expr.evalAll]⟩
        · exact (admitted_project project).mpr (htext.mpr hproject)
  | reembed userId =>
      rw [ProjectOperation.Treats, ProjectOperation.Own, admitted_append, admitted_reembed]
      constructor
      · rintro ⟨hrow, hproject | ⟨hdefault, hnone⟩, huser⟩
        · exact ⟨htext.mp hproject, hrow, huser⟩
        · refine ⟨hread.mp ?_, hrow, huser⟩
          simp [Payload.projectId, Payload.get, hnone, Value.truthy, hdefault]
      · rintro ⟨hproject, hrow, huser⟩
        exact ⟨hrow, .inl (htext.mpr hproject), huser⟩
  | search filters others =>
      rw [ProjectOperation.Treats, ProjectOperation.Own,
        Dict.set_of_notMem (Dict.lookup_eq_none_iff_keys.mp others), admitted_append, admitted_project, htext]
      constructor
      · rintro ⟨hrow, hown, hproject⟩
        exact ⟨hproject, hrow, hown⟩
      · rintro ⟨hproject, hrow, hown⟩
        exact ⟨hrow, hown, hproject⟩
  | deletion userId agentId runId appId =>
      rw [ProjectOperation.Treats, ProjectOperation.Own]
      have hcovers : DeleteScope.covers P ⟨userId, agentId, runId, appId, some project.text⟩ row.payload = true ↔
          DeleteScope.covers P ⟨userId, agentId, runId, appId, none⟩ row.payload = true ∧
            row.payload.lookup "project_id" = some (.str project.text) := by
        rw [← htext, ← idMatches_project]
        simp [DeleteScope.covers, DeleteScope.ids, ProjectId.strip_project, and_assoc]
      rw [hcovers]
      constructor
      · rintro ⟨hrow, hown, hproject⟩
        exact ⟨hproject, hrow, hown⟩
      · rintro ⟨hproject, hrow, hown⟩
        exact ⟨hrow, hown, hproject⟩
  | duplicates scope others =>
      rw [ProjectOperation.Treats, ProjectOperation.Own]
      have hin : inScope P (scope ++ [("project_id", project.text)]) row.payload = true ↔
          inScope P scope row.payload = true ∧ row.payload.lookup "project_id" = some (.str project.text) := by
        have hne : project.text ≠ "" := fun h => project.nonempty (by rw [h]; rfl)
        rw [← htext, ← idMatches_project]
        simp [inScope, List.filter_append, sessionScopeKeys, hne]
      rw [hin]
      constructor
      · rintro ⟨hrow, hown, hproject⟩
        exact ⟨hproject, hrow, hown⟩
      · rintro ⟨hproject, hrow, hown⟩
        exact ⟨hrow, hown, hproject⟩

/-- One rule says whose a row is exactly if every row that a reading gives to the project carries its id as a text. -/
theorem one_rule_iff (hP : P.Legible) (project : ProjectId) (t : Table V) :
    OneRule P project t ↔ Labelled P project t := by
  constructor
  · rintro ⟨rule, hrule⟩ row hrow hof
    have hlisting := hrule (.listing t.rows.length) row hrow
    have hsearch := hrule (.search [] rfl) row hrow
    have hexport := hrule .export row hrow
    simp only [ProjectOperation.Treats, ProjectOperation.Own, List.take_length, hrow, true_and, and_true] at hlisting
    simp only [ProjectOperation.Treats, ProjectOperation.Own, Dict.set, admitted_project, hrow, true_and] at hsearch
    simp only [ProjectOperation.Treats, ProjectOperation.Own, hrow, true_and, and_true] at hexport
    have hall : AdmittedBy P [] row.payload :=
      ⟨[], by rw [buildFilterConditions], by simp [selects, Kleene.Expr.atomsList, Kleene.Expr.evalAll]⟩
    have hruled : rule row := hof.elim (fun htext => (hsearch.mp htext).1) fun hread => hlisting.mp hread
    rcases @exportProject_cases P project row.payload (hexport.mpr hruled).2 with h | ⟨hfalsy, hdefault⟩
    · exact h
    · -- the store reads a falsy project id as no project's
      have htext := hsearch.mpr ⟨hruled, hall⟩
      have hread := hlisting.mpr hruled
      rw [← hread, hdefault, Payload.text] at htext
      cases hlookup : row.payload.lookup "project_id" with
      | none => simp [hlookup] at htext
      | some v =>
          rw [Payload.get, hlookup, Option.getD_some] at hfalsy
          rw [hlookup, Option.bind_some] at htext
          exact absurd htext (hP v hfalsy)
  · intro h
    exact ⟨fun row => row.payload.lookup "project_id" = some (.str project.text),
      fun operation row hrow => treats_iff (h row hrow) rfl operation⟩

end

/-! ## A row without a project id -/

theorem ascii_legible : Platform.ascii.Legible := by
  intro v hv h
  cases v with
  | null => cases h
  | bool b =>
      cases b with
      | true => cases hv
      | false => simp [Value.sqlText, defaultProjectId] at h
  | num m s =>
      have hm : m = 0 := by simpa [Value.truthy] using hv
      subst hm
      cases s with
      | zero => exact absurd h (by decide)
      | succ s => simp [Value.sqlText, Platform.ascii, defaultProjectId] at h
  | str s =>
      have hs : s = "" := by simpa [Value.truthy] using hv
      subst hs
      simp [Value.sqlText, defaultProjectId] at h
  | list vs => simp [Value.sqlText, Platform.ascii, defaultProjectId] at h
  | dict d => simp [Value.sqlText, Platform.ascii, defaultProjectId] at h

/-- A memory from before there were projects. -/
def legacyTable : Table Unit := ⟨[⟨"m", none, [("data", .str "tea")]⟩], by simp, by simp⟩

def labelledTable : Table Unit :=
  ⟨[⟨"m", none, [("data", .str "tea"), ("project_id", .str defaultProjectId)]⟩], by simp, by simp⟩

theorem labelled_table_ruled : OneRule .ascii .default labelledTable := by
  refine (one_rule_iff ascii_legible _ _).mpr fun row hrow _ => ?_
  rw [List.mem_singleton.mp hrow]
  rfl

theorem legacy_table_unruled : ¬ ∀ (P : Platform) (project : ProjectId) (t : Table Unit), OneRule P project t := by
  intro h
  obtain ⟨rule, hrule⟩ := h .ascii .default legacyTable
  have hlisted := (hrule (.listing 1) _ List.mem_cons_self).mp ⟨List.mem_cons_self, by decide⟩
  have hfound := (hrule (.search [] rfl) _ List.mem_cons_self).mpr
    ⟨hlisted.1, List.mem_cons_self, [], by rw [buildFilterConditions], by decide⟩
  have htext := (admitted_project .default).mp hfound.2
  revert htext
  decide

end YiQiao
