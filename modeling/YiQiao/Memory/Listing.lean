import YiQiao.Memory.Scope
import YiQiao.Memory.SearchSpec

/-!
# Listing by identifiers

`Memory.get_all` trims the identifiers that a session may be scoped by and lists the rows that carry them. Filters
on identifiers pass the checks of search and listing unchanged otherwise.
-/

namespace YiQiao

open Lib Filters Fallible

variable {V S : Type}

/-- The formatting loop of `_get_all_from_vector_store`, with the number of memories formatted so far. -/
def formatUpTo (outputLimit : Nat) : Nat → List (Row V) → Except PyError (List (MemoryItem Unit))
  | _, [] => .ok []
  | formatted, row :: rows => do
      let item ← formatItem row.id () row.payload
      if outputLimit ≤ formatted + 1 then pure [item]
      else
        let items ← formatUpTo outputLimit (formatted + 1) rows
        pure (item :: items)

/-- `Memory.get_all`. -/
def getAll (E : Engine V S) (t : Table V) (filters : Entries) (topK : Int) (showExpired : Bool) :
    Except PyError (List (MemoryItem Unit)) :=
  if topK < 0 then .error (.valueError "Invalid top_k. Must be a non-negative integer.")
  else do
    let effective ← validateFilters filters
    telemetryFilters effective
    let limit := topK.toNat
    let rows ← t.list E.platform effective (if showExpired then limit else internalLimit limit)
    formatUpTo limit 0 (rows.filter fun row => !hidden E showExpired row.payload)

/-! ## Filters on identifiers -/

/-- Identifiers that listing and search accept: each is one of a session, those that may scope it are not blank
inside, and there is one of these. -/
structure AcceptedIds (ids : List (String × String)) : Prop where
  unique : Dict.Unique ids
  keys : ∀ e ∈ ids, e.1 ∈ sessionScopeKeys
  trimmed : ∀ e ∈ ids, e.1 ∈ scopeIds → trimEntityId e.1 e.2 = .ok (strip e.2)
  scopes : ∃ e ∈ ids, e.1 ∈ scopeIds

/-- An identifier as the checks of filters leave it. -/
def trimAt (name : String) (e : String × String) : String × String := if e.1 = name then (e.1, strip e.2) else e

/-- The identifiers that a session may be scoped by are trimmed, the others are left as they are. -/
def trimScopeIds (ids : List (String × String)) : List (String × String) :=
  ids.map fun e => if e.1 ∈ scopeIds then (e.1, strip e.2) else e

theorem keys_trimScopeIds (ids : List (String × String)) : (trimScopeIds ids).map Prod.fst = ids.map Prod.fst := by
  rw [trimScopeIds, List.map_map]
  apply List.map_congr_left
  intro e _
  simp only [Function.comp]
  split <;> rfl

theorem set_idFilters {ids : List (String × String)} (hids : Dict.Unique ids) {name value : String}
    (h : ids.lookup name = some value) :
    Dict.set name (.str (strip value)) (idFilters ids) = idFilters (ids.map (trimAt name)) := by
  induction ids with
  | nil => cases h
  | cons e ids ih =>
    obtain ⟨key, v⟩ := e
    simp only [Dict.Unique, List.map_cons, List.nodup_cons] at hids
    rw [idFilters, List.map_cons, Dict.set]
    by_cases hkey : key = name
    · subst hkey
      simp only [List.lookup_cons, beq_self_eq_true, Option.some.injEq] at h
      subst h
      have hrest : ids.map (trimAt key) = ids := by
        rw [List.map_congr_left (g := id), List.map_id]
        intro e he
        rw [trimAt, if_neg]
        · rfl
        · rintro rfl
          exact hids.1 (List.mem_map_of_mem he)
      rw [if_pos rfl, List.map_cons, hrest]
      simp [trimAt, idFilters]
    · have hother : (name == key) = false := by simpa using Ne.symm hkey
      rw [List.lookup_cons, hother] at h
      have hset := ih hids.2 h
      rw [idFilters] at hset
      rw [if_neg hkey, hset]
      simp [trimAt, hkey, idFilters]

theorem keys_map_trimAt (name : String) (ids : List (String × String)) :
    (ids.map (trimAt name)).map Prod.fst = ids.map Prod.fst := by
  rw [List.map_map]
  apply List.map_congr_left
  intro e _
  simp only [Function.comp, trimAt]
  split <;> rfl

theorem lookup_map_trimAt {name key : String} (hkey : key ≠ name) (ids : List (String × String)) :
    (ids.map (trimAt name)).lookup key = ids.lookup key := by
  induction ids with
  | nil => rfl
  | cons e ids ih =>
    rw [List.map_cons, List.lookup_cons, List.lookup_cons, ih]
    by_cases he : e.1 = name
    · have hother : (key == name) = false := by simpa using hkey
      simp [trimAt, he, hother]
    · rw [trimAt, if_neg he]

/-- The check of one identifier trims it. -/
theorem validateKey_ids {ids : List (String × String)} (hids : Dict.Unique ids) {name : String}
    (hok : ∀ value, ids.lookup name = some value → trimEntityId name value = .ok (strip value)) :
    validateKey (idFilters ids) name = .ok (idFilters (ids.map (trimAt name))) := by
  rw [validateKey, lookup_idFilters]
  cases hlookup : ids.lookup name with
  | none =>
    have hsame : ids.map (trimAt name) = ids := by
      rw [List.map_congr_left (g := id), List.map_id]
      intro e he
      rw [trimAt, if_neg]
      · rfl
      · rintro rfl
        exact Dict.lookup_eq_none_iff_keys.mp hlookup (List.mem_map_of_mem he)
    rw [hsame]
    rfl
  | some value =>
    rw [← set_idFilters hids hlookup]
    simp only [Option.map_some, validateEntityId, hok value hlookup]
    rfl

theorem isSome_lookup_keys {ids ids' : List (String × String)} (h : ids.map Prod.fst = ids'.map Prod.fst)
    {name : String} : (ids.lookup name).isSome = (ids'.lookup name).isSome := by
  rw [Bool.eq_iff_iff, ← Option.ne_none_iff_isSome, ← Option.ne_none_iff_isSome, ne_eq, ne_eq,
    Dict.lookup_eq_none_iff_keys, Dict.lookup_eq_none_iff_keys, h]

/-- Filters on identifiers pass the checks if one of them scopes a session. -/
theorem validateFilters_ids {ids : List (String × String)} (h : AcceptedIds ids) :
    validateFilters (idFilters ids) = .ok (idFilters (trimScopeIds ids)) := by
  have hids := h.unique
  have hok : ∀ name ∈ scopeIds, ∀ value, ids.lookup name = some value →
      trimEntityId name value = .ok (strip value) :=
    fun name hname value hvalue => h.trimmed (name, value) (Dict.mem_of_lookup hvalue) hname
  have hfold : scopeIds.foldlM validateKey (idFilters ids) = .ok (idFilters (trimScopeIds ids)) := by
    have hunique : ∀ {name : String} {ids : List (String × String)}, Dict.Unique ids →
        Dict.Unique (ids.map (trimAt name)) := by
      intro name ids h
      rwa [Dict.Unique, keys_map_trimAt]
    have hall : ((ids.map (trimAt "user_id")).map (trimAt "agent_id")).map (trimAt "run_id") = trimScopeIds ids := by
      rw [List.map_map, List.map_map, trimScopeIds]
      apply List.map_congr_left
      intro e _
      by_cases h₁ : e.1 = "user_id"
      · simp [trimAt, scopeIds, h₁]
      · by_cases h₂ : e.1 = "agent_id"
        · simp [trimAt, scopeIds, h₂]
        · by_cases h₃ : e.1 = "run_id"
          · simp [trimAt, scopeIds, h₃]
          · simp [trimAt, scopeIds, h₁, h₂, h₃]
    have hagent : ∀ value, (ids.map (trimAt "user_id")).lookup "agent_id" = some value →
        trimEntityId "agent_id" value = .ok (strip value) := by
      rw [lookup_map_trimAt (by decide)]
      exact hok "agent_id" (by decide)
    have hrun : ∀ value, ((ids.map (trimAt "user_id")).map (trimAt "agent_id")).lookup "run_id" = some value →
        trimEntityId "run_id" value = .ok (strip value) := by
      rw [lookup_map_trimAt (by decide), lookup_map_trimAt (by decide)]
      exact hok "run_id" (by decide)
    rw [← hall]
    simp only [scopeIds, List.foldlM_cons, List.foldlM_nil, bind_ok, pure_ok]
    exact ⟨_, validateKey_ids hids (hok "user_id" (by decide)), _, validateKey_ids (hunique hids) hagent, _,
      validateKey_ids (hunique (hunique hids)) hrun, rfl⟩
  obtain ⟨e, he, hname⟩ := h.scopes
  have hany : (scopeIds.any fun k => ((idFilters (trimScopeIds ids)).lookup k).isSome) = true := by
    rw [List.any_eq_true]
    refine ⟨e.1, hname, ?_⟩
    rw [lookup_idFilters, Option.isSome_map, isSome_lookup_keys (keys_trimScopeIds ids)]
    exact Dict.lookup_isSome_of_mem he
  rw [validateFilters, hfold]
  simp only [bind, Except.bind, hany, if_true]
  rfl

/-- Filters on other identifiers alone are refused. -/
theorem validateFilters_none {ids : List (String × String)} (hnone : ∀ name ∈ scopeIds, ids.lookup name = none) :
    ∃ e, validateFilters (idFilters ids) = .error e := by
  have hkey : ∀ name ∈ scopeIds, validateKey (idFilters ids) name = .ok (idFilters ids) := by
    intro name hname
    rw [validateKey, lookup_idFilters, hnone name hname]
    rfl
  have hfold : scopeIds.foldlM validateKey (idFilters ids) = .ok (idFilters ids) := by
    simp only [scopeIds, List.foldlM_cons, List.foldlM_nil, bind_ok, pure_ok]
    exact ⟨_, hkey _ (by decide), _, hkey _ (by decide), _, hkey _ (by decide), rfl⟩
  have hany : (scopeIds.any fun k => ((idFilters ids).lookup k).isSome) = false := by
    rw [List.any_eq_false]
    intro name hname
    simp [lookup_idFilters, hnone name hname]
  rw [validateFilters, hfold]
  simp only [bind, Except.bind, hany]
  exact ⟨_, rfl⟩

theorem telemetryFilters_ids (ids : List (String × String)) : telemetryFilters (idFilters ids) = .ok () := by
  rw [telemetryFilters, if_pos]
  rw [List.all_eq_true]
  intro name _
  rw [lookup_idFilters]
  cases ids.lookup name <;> rfl

theorem idFilters_cons (e : String × String) (ids : List (String × String)) :
    idFilters (e :: ids) = (e.1, .str e.2) :: idFilters ids := rfl

theorem keys_idFilters (ids : List (String × String)) : (idFilters ids).map Prod.fst = ids.map Prod.fst := by
  rw [idFilters, List.map_map]
  rfl

theorem mergeCondition_text (target : Entries) (key value : String) :
    mergeCondition target (key, .str value) = .ok (Dict.set key (.str value) target) := by
  have hentry : mergeEntry target (key, .str value) = Dict.set key (.str value) target := by
    unfold mergeEntry
    split
    · rename_i hdict
      cases hdict
    · rfl
  rw [← hentry]
  rfl

/-- The processor takes identifiers as they are. -/
theorem processMetadataFilters_ids {done rest : List (String × String)} (hunique : Dict.Unique (done ++ rest))
    (hkeys : ∀ e ∈ rest, e.1 ∉ logicalKeys) :
    (idFilters rest).foldlM processEntry (idFilters done) = .ok (idFilters (done ++ rest)) := by
  induction rest generalizing done with
  | nil => simp [idFilters, pure, Except.pure]
  | cons e rest ih =>
    obtain ⟨hkey, hrest⟩ := List.forall_mem_cons.mp hkeys
    simp only [logicalKeys, List.mem_cons, List.not_mem_nil, or_false, not_or] at hkey
    have hnew : e.1 ∉ (idFilters done).map Prod.fst := by
      rw [keys_idFilters]
      exact hunique.notMem_of_append
    have hset : processEntry (idFilters done) (e.1, .str e.2) = .ok (idFilters (done ++ [e])) := by
      rw [processEntry, if_neg hkey.1, if_neg hkey.2.1, if_neg hkey.2.2, mergeCondition_text,
        Dict.set_of_notMem hnew]
      simp [idFilters]
    have hsplit : done ++ e :: rest = (done ++ [e]) ++ rest := by simp
    rw [hsplit] at hunique ⊢
    rw [idFilters_cons, List.foldlM_cons, hset]
    exact ih hunique hrest

/-- Assigning entries that stand there changes nothing. -/
theorem update_of_mem {d e : Entries} (hd : Dict.Unique d) (he : ∀ x ∈ e, x ∈ d) : Dict.update d e = d := by
  induction e with
  | nil => rfl
  | cons x e ih =>
    obtain ⟨hx, hrest⟩ := List.forall_mem_cons.mp he
    rw [Dict.update, List.foldl_cons, Dict.set_of_lookup ((Dict.mem_iff_lookup hd).mp hx)]
    exact ih hrest

/-- Search takes filters on identifiers as they are. -/
theorem effectiveFilters_ids {ids : List (String × String)} (hids : Dict.Unique ids)
    (hkeys : ∀ e ∈ ids, e.1 ∉ logicalKeys) : effectiveFilters (idFilters ids) = .ok (idFilters ids) := by
  rw [effectiveFilters]
  split
  · have hunique : Dict.Unique (idFilters ids) := by rwa [Dict.Unique, keys_idFilters]
    have hprocessed : processMetadataFilters (idFilters ids) = .ok (idFilters ids) :=
      @processMetadataFilters_ids [] ids hids hkeys
    have hkept : (idFilters ids).filter (fun e => !isReprocessed e) = idFilters ids := by
      rw [List.filter_eq_self]
      intro e he
      obtain ⟨x, hx, rfl⟩ := List.mem_map.mp he
      simp [isReprocessed, hkeys x hx, Value.isDict]
    rw [hprocessed, hkept]
    simp only [bind, Except.bind, update_of_mem hunique fun x hx => hx]
    rfl
  · rfl

/-! ## What a listing answers -/

theorem formatUpTo_ok {outputLimit formatted : Nat} {rows : List (Row V)}
    (hlimit : formatted + rows.length ≤ outputLimit) :
    formatUpTo outputLimit formatted rows = rows.mapM fun row => formatItem row.id () row.payload := by
  induction rows generalizing formatted with
  | nil => rfl
  | cons row rows ih =>
    rw [formatUpTo, List.mapM_cons]
    rw [List.length_cons] at hlimit
    cases hformat : formatItem row.id () row.payload with
    | error e => rfl
    | ok item =>
      cases rows with
      | nil =>
        simp only [formatUpTo]
        split <;> rfl
      | cons next rows =>
        rw [List.length_cons] at hlimit
        simp only [bind, Except.bind]
        rw [if_neg (by omega), ih (by rw [List.length_cons]; omega)]

/-- Whether a row carries identifiers. -/
def carriesIds (P : Platform) (ids : List (String × String)) (payload : Payload) : Bool :=
  ids.all fun e => idMatches P payload e.1 e.2

theorem list_ids {ids : List (String × String)} (P : Platform) {t : Table V} {limit : Nat}
    (hkeys : ∀ e ∈ ids, e.1 ≠ "$or" ∧ e.1 ≠ "$not") (hlimit : t.rows.length ≤ limit) :
    t.list P (idFilters ids) limit = .ok (t.rows.filter fun row => carriesIds P ids row.payload) := by
  rw [Table.list, select_ids hkeys]
  simp only [bind, Except.bind]
  rw [List.take_of_length_le ((List.length_filter_le _ _).trans hlimit)]
  rfl

theorem storeKeys {ids : List (String × String)} (hkeys : ∀ e ∈ ids, e.1 ∈ sessionScopeKeys) :
    ∀ e ∈ ids, e.1 ≠ "$or" ∧ e.1 ≠ "$not" := by
  have hall : ∀ key ∈ sessionScopeKeys, key ≠ "$or" ∧ key ≠ "$not" := by decide
  exact fun e he => hall e.1 (hkeys e he)

theorem trimScopeIds_keys {ids : List (String × String)} (hkeys : ∀ e ∈ ids, e.1 ∈ sessionScopeKeys) :
    ∀ e ∈ trimScopeIds ids, e.1 ∈ sessionScopeKeys := by
  intro e he
  have hkey : e.1 ∈ ids.map Prod.fst := by
    rw [← keys_trimScopeIds]
    exact List.mem_map_of_mem he
  obtain ⟨e', he', hsame⟩ := List.mem_map.mp hkey
  rw [← hsame]
  exact hkeys e' he'

/-- With a limit that is large enough a listing formats every row that carries the identifiers and is not hidden. -/
theorem getAll_ids {E : Engine V S} {t : Table V} {ids : List (String × String)} (h : AcceptedIds ids)
    {topK : Nat} (hlimit : t.rows.length ≤ topK) (showExpired : Bool) :
    getAll E t (idFilters ids) topK showExpired =
      ((t.rows.filter fun row => carriesIds E.platform (trimScopeIds ids) row.payload).filter
        fun row => !hidden E showExpired row.payload).mapM fun row => formatItem row.id () row.payload := by
  have hfetch : t.rows.length ≤ if showExpired then topK else internalLimit topK := by
    split
    · exact hlimit
    · rw [internalLimit]
      omega
  rw [getAll, if_neg (by omega), validateFilters_ids h]
  simp only [bind, Except.bind, telemetryFilters_ids, Int.toNat_natCast,
    list_ids E.platform (storeKeys (trimScopeIds_keys h.keys)) hfetch]
  apply formatUpTo_ok
  have h₁ := List.length_filter_le (fun row => !hidden E showExpired row.payload)
    (t.rows.filter fun row => carriesIds E.platform (trimScopeIds ids) row.payload)
  have h₂ := List.length_filter_le (fun row : Row V => carriesIds E.platform (trimScopeIds ids) row.payload) t.rows
  omega

end YiQiao
