import YiQiao.Memory.Growth

/-!
# The identity of a memory

A row belongs to the scope of the request that created it, keeps its creation time and its actor,
and carries the hash and the lemmas of its text. The metadata of a client is merged into the same
payload; where it names none of these fields against the request, the identity stays.
-/

namespace YiQiao

open Lib Filters

variable {V S : Type}

/-! ## The fields that the code writes -/

/-- The fields of the text. -/
def textKeys : List String := ["data", "hash", "text_lemmatized"]

/-- The other fields that adding writes itself. -/
def recordKeys : List String :=
  ["created_at", "updated_at", "_allowed_categories", "categories", "role", "actor_id", "attributed_to",
    "embedding_status", "memory_type", "expiration_date", "source_message_indices", "confidence",
    "linked_memory_ids"]

/-- The payloads agree but for the record fields. -/
def Agrees (p q : Payload) : Prop := ∀ key ∉ recordKeys, p.lookup key = q.lookup key

namespace Agrees

variable {k : String} {p p' q : Payload}

theorem refl (p : Payload) : Agrees p p := fun _ _ => rfl

theorem trans {r : Payload} (h : Agrees p q) (h' : Agrees q r) : Agrees p r :=
  fun key hk => (h key hk).trans (h' key hk)

theorem set (h : k ∈ recordKeys) (v : Value) (hpq : Agrees p q) : Agrees (Dict.set k v p) q := by
  intro key hk
  have hne : key ≠ k := fun he => hk (he ▸ h)
  rw [Dict.lookup_set_of_ne hne, hpq key hk]

theorem erase (h : k ∈ recordKeys) (hpq : Agrees p q) : Agrees (Dict.erase k p) q := by
  intro key hk
  have hne : key ≠ k := fun he => hk (he ▸ h)
  rw [Dict.lookup_erase_of_ne hne, hpq key hk]

theorem ite {c : Prop} [Decidable c] (hp : Agrees p q) (hp' : Agrees p' q) :
    Agrees (if c then p else p') q := by
  split
  · exact hp
  · exact hp'

end Agrees

section

variable {W : Writer V S} {now text : String} {metadata memory p q : Entries}

theorem stampCreation_agrees (now : String) (h : Agrees p q) : Agrees (stampCreation now p) q := by
  unfold stampCreation
  exact .set (by decide) _ (.ite h (h.set (by decide) _))

theorem replaceCategories_agrees (categories : List String) (h : Agrees p q) :
    Agrees (replaceCategories categories p) q :=
  .ite (h.erase (by decide)) (h.set (by decide) _)

theorem withActor_agrees (memory : Entries) (h : Agrees p q) : Agrees (withActor memory p) q := .ite (h.set (by decide) _) h

theorem withAttribution_agrees (memory : Entries) (h : Agrees p q) : Agrees (withAttribution memory p) q :=
  .ite (h.set (by decide) _) h

theorem withCategories_agrees (categories : List String) (h : Agrees p q) :
    Agrees (withCategories categories p) q := .ite h (h.set (by decide) _)

theorem withLinks_agrees (existing : List (Row V)) (h : Agrees p q) :
    Agrees (withLinks existing memory p) q := by
  unfold withLinks
  split
  · exact h.set (by decide) _
  · exact h

/-- The metadata of a raw memory is the client's. -/
theorem rawMetadata_agrees {pending : Bool} : Agrees (rawMetadata W metadata memory pending) metadata := by
  have hspoken := withActor_agrees memory ((replaceCategories_agrees
    (categoriesOf W (Dict.erase "_allowed_categories" metadata) (allowedCategories W metadata))
    ((Agrees.refl metadata).erase (k := "_allowed_categories") (by decide))).set
      (k := "role") (by decide) (Payload.get memory "role"))
  exact .ite (hspoken.set (by decide) _) hspoken

/-! ## Payloads of new rows -/

/-- The text fields of a new row over the metadata. -/
def textBase (W : Writer V S) (text hash : String) (metadata : Entries) : Payload :=
  Dict.update metadata
    [("data", .str text), ("text_lemmatized", .str (W.lemmatize text)), ("hash", .str hash)]

theorem textBase_lookup {hash key : String} (hk : key ∉ textKeys) :
    (textBase W text hash metadata).lookup key = metadata.lookup key := by
  simp only [textKeys, List.mem_cons, List.not_mem_nil, or_false, not_or] at hk
  simp [textBase, Dict.update, Dict.lookup_set, hk]

theorem textBase_agrees (text hash : String) (h : Agrees p q) :
    Agrees (textBase W text hash p) (textBase W text hash q) := by
  intro key hk
  by_cases ht : key ∈ textKeys
  · simp only [textKeys, List.mem_cons, List.not_mem_nil, or_false] at ht
    rcases ht with rfl | rfl | rfl <;> simp [textBase, Dict.update, Dict.lookup_set]
  · rw [textBase_lookup ht, textBase_lookup ht, h key hk]

theorem derivedText_agrees (text : String) (h : Agrees p q) :
    Agrees (Dict.update (Dict.erase "_allowed_categories" p) (derivedTextPayload W text))
      (textBase W text (W.contentHash text) q) := by
  intro key hk
  have hne : key ≠ "_allowed_categories" := fun he => hk (he ▸ by decide)
  by_cases ht : key ∈ textKeys
  · simp only [textKeys, List.mem_cons, List.not_mem_nil, or_false] at ht
    rcases ht with rfl | rfl | rfl <;> simp [textBase, derivedTextPayload, Dict.update, Dict.lookup_set]
  · rw [textBase_lookup ht, ← h key hk]
    simp only [textKeys, List.mem_cons, List.not_mem_nil, or_false, not_or] at ht
    simp [derivedTextPayload, Dict.update, Dict.lookup_set, Dict.lookup_erase_of_ne hne, ht]

theorem createdPayload_agrees (text : String) (h : Agrees p q) :
    Agrees (createdPayload W now text p) (textBase W text (W.contentHash text) q) :=
  stampCreation_agrees now (derivedText_agrees text h)

theorem extractedPayload_agrees (embedded : Bool) :
    Agrees (extractedPayload W now metadata memory embedded)
      (textBase W (extractedText memory) (W.contentHash (extractedText memory)) metadata) := by
  have hbase := withCategories_agrees (categoriesOf W memory (allowedCategories W metadata))
    (withAttribution_agrees memory (stampCreation_agrees now
      (textBase_agrees (W := W) (extractedText memory) (W.contentHash (extractedText memory))
        ((Agrees.refl metadata).erase (k := "_allowed_categories") (by decide)))))
  exact .ite (hbase.erase (by decide)) (hbase.set (by decide) _)

theorem importedPayload_agrees (existing : List (Row V)) :
    Agrees (importedPayload W now existing metadata memory)
      (textBase W (extractedText memory) (W.md5 (extractedText memory)) metadata) := by
  refine withCategories_agrees _ (withLinks_agrees existing (withAttribution_agrees memory (stampCreation_agrees now ?_)))
  have hbase := textBase_agrees (W := W) (extractedText memory) (W.md5 (extractedText memory))
    ((Agrees.refl metadata).erase (k := "_allowed_categories") (by decide))
  exact (hbase.set (k := "source_message_indices") (by decide) _).set (k := "confidence") (by decide) _

end

/-! ## Updated payloads -/

section

variable {W : Writer V S} {now text : String} {metadata : Option Entries} {embedded : Bool} {old : Payload}

theorem settleStatus_agrees {p q : Payload} (textChanged wasPending : Bool) (h : Agrees p q) :
    Agrees (settleStatus embedded textChanged wasPending p) q :=
  .ite (h.erase (by decide)) (.ite (h.set (by decide) _) (h.erase (by decide)))

theorem keepActor_agrees {p q : Payload} (h : Agrees p q) : Agrees (keepActor old p) q := by
  unfold keepActor
  split
  · exact h.set (by decide) _
  · exact h

/-- The payload before the actor and the status are settled. -/
theorem updatedPayload_eq : updatedPayload W now text metadata embedded old =
    settleStatus embedded (!(Payload.get old "data").isText text) (Table.isPending old)
      (keepActor old (Dict.set "updated_at" (.str now) (Dict.set "created_at" (Payload.get old "created_at")
        (Dict.update (Dict.erase "_allowed_categories" (Dict.update old (metadata.getD [])))
          (derivedTextPayload W text))))) := by
  simp only [updatedPayload, updatedFields, Dict.update, List.foldl_append, List.foldl_cons, List.foldl_nil]

theorem updatedPayload_agrees : Agrees (updatedPayload W now text metadata embedded old)
    (textBase W text (W.contentHash text) (Dict.update old (metadata.getD []))) := by
  rw [updatedPayload_eq]
  refine settleStatus_agrees _ _ (keepActor_agrees ?_)
  exact ((derivedText_agrees text (Agrees.refl _)).set (k := "created_at") (by decide) _).set
    (k := "updated_at") (by decide) _

theorem settleStatus_lookup {p : Payload} {textChanged wasPending : Bool} {key : String}
    (hk : key ≠ "embedding_status") :
    (settleStatus embedded textChanged wasPending p).lookup key = p.lookup key := by
  unfold settleStatus markPending
  split
  · exact Dict.lookup_erase_of_ne hk p
  · split
    · exact Dict.lookup_set_of_ne hk _ p
    · exact Dict.lookup_erase_of_ne hk p

theorem keepActor_lookup {p : Payload} {key : String} (hk : key ≠ "actor_id") :
    (keepActor old p).lookup key = p.lookup key := by
  unfold keepActor
  split
  · exact Dict.lookup_set_of_ne hk _ p
  · rfl

/-- The time of creation is the stored one. -/
theorem updatedPayload_createdAt : Payload.get (updatedPayload W now text metadata embedded old) "created_at" =
    Payload.get old "created_at" := by
  rw [updatedPayload_eq, Payload.get, settleStatus_lookup (by decide), keepActor_lookup (by decide),
    Dict.lookup_set_of_ne (by decide), Dict.lookup_set_self]
  rfl

/-- The actor is the stored one, unless there is none and the metadata brings one. -/
theorem updatedPayload_actor (hunique : Dict.Unique (metadata.getD []))
    (h : old.lookup "actor_id" = none → Payload.get (metadata.getD []) "actor_id" = .null) :
    Payload.get (updatedPayload W now text metadata embedded old) "actor_id" = Payload.get old "actor_id" := by
  rw [updatedPayload_eq, Payload.get, settleStatus_lookup (by decide), keepActor]
  cases hactor : old.lookup "actor_id" with
  | some actor => simp [Payload.get, hactor]
  | none =>
      have hmerged : (Dict.update old (metadata.getD [])).lookup "actor_id" =
          (metadata.getD []).lookup "actor_id" := by
        rw [Dict.lookup_update _ hunique, hactor, Option.or_none]
      have hbase : (Dict.update (Dict.erase "_allowed_categories" (Dict.update old (metadata.getD [])))
          (derivedTextPayload W text)).lookup "actor_id" = (metadata.getD []).lookup "actor_id" := by
        rw [← hmerged]
        simp [derivedTextPayload, Dict.update, Dict.lookup_set, Dict.lookup_erase]
      rw [Dict.lookup_set_of_ne (by decide), Dict.lookup_set_of_ne (by decide), hbase]
      simpa [Payload.get, hactor] using h hactor

end

/-! ## The scope of a request -/

/-- An identifier of a scope as a payload carries it; an absent one reads as null. -/
def scopeValue (scope : ScopeIds) (key : String) : Value := ((scope.lookup key).map Value.str).getD .null

/-- The identifiers that are arguments only. -/
def AddIds.arguments (ids : AddIds) : List (String × Option String) :=
  [("user_id", ids.userId), ("agent_id", ids.agentId), ("run_id", ids.runId)]

/-- The metadata brings none of the identifiers that the arguments leave out. -/
def AddRequest.Scoped (request : AddRequest) : Prop :=
  ∀ e ∈ request.ids.arguments, e.2 = none →
    Payload.get ((request.metadata.map Object.entries).getD []) e.1 = .null

theorem trimArgument_none {name : String} {argument : Option String}
    (h : trimArgument name argument = .ok none) : argument = none := by
  cases argument with
  | none => rfl
  | some value => cases hv : trimEntityId name value <;> simp [trimArgument, hv, Except.map] at h

theorem trimMetadata_none {name : String} {v : Value} (h : trimMetadata name v = .ok none) : v = .null := by
  cases v with
  | null => rfl
  | str s => cases hv : trimEntityId name s <;> simp [trimMetadata, hv, Except.map] at h
  | _ => cases h

theorem trimAppId_none {appId : Option String} {metadata : Entries}
    (h : trimAppId appId metadata = .ok none) : Payload.get metadata "app_id" = .null := by
  cases appId with
  | none => exact trimMetadata_none h
  | some value =>
      rw [trimAppId] at h
      split at h
      · exact trimMetadata_none h
      · cases trimArgument_none h

/-- Identifiers that a request leaves out stand in its metadata only as arguments that are not given. -/
theorem requestIds_none {ids : AddIds} {metadata : Entries} {given : List (String × Option String)}
    (h : requestIds ids metadata = .ok given) :
    given.map Prod.fst = ["user_id", "agent_id", "app_id", "run_id", "project_id"] ∧
      ∀ e ∈ given, e.2 = none → (e.1, none) ∈ ids.arguments ∨ Payload.get metadata e.1 = .null := by
  simp only [requestIds, Fallible.bind_ok, Fallible.pure_ok] at h
  obtain ⟨userId, huser, agentId, hagent, appId, happ, runId, hrun, projectId, hproject, rfl⟩ := h
  refine ⟨rfl, fun e he hnone => ?_⟩
  simp only [List.mem_cons, List.not_mem_nil, or_false] at he
  rcases he with rfl | rfl | rfl | rfl | rfl <;> cases hnone
  · exact .inl (by simp [AddIds.arguments, trimArgument_none huser])
  · exact .inl (by simp [AddIds.arguments, trimArgument_none hagent])
  · exact .inr (trimAppId_none happ)
  · exact .inl (by simp [AddIds.arguments, trimArgument_none hrun])
  · exact .inr (trimMetadata_none hproject)

theorem lookup_givenIds {given : List (String × Option String)} (h : (given.map Prod.fst).Nodup)
    (key : String) : (givenIds given).lookup key = (given.lookup key).join := by
  induction given with
  | nil => rfl
  | cons e given ih =>
      obtain ⟨k, v⟩ := e
      rw [List.map_cons, List.nodup_cons] at h
      have hrest := ih h.2
      cases v with
      | none =>
          by_cases hk : key = k
          · subst hk
            have hnone : given.lookup key = none := Dict.lookup_eq_none_iff_keys.mpr h.1
            simpa [givenIds, hnone] using hrest
          · have hb : (key == k) = false := by simpa using hk
            simpa [givenIds, List.lookup_cons, hb] using hrest
      | some v =>
          by_cases hk : key = k
          · subst hk
            simp [givenIds]
          · have hb : (key == k) = false := by simpa using hk
            simpa [givenIds, List.lookup_cons, hb] using hrest

theorem unique_idFilters_givenIds {given : List (String × Option String)}
    (h : (given.map Prod.fst).Nodup) : Dict.Unique (idFilters (givenIds given)) := by
  have hkeys : (idFilters (givenIds given)).map Prod.fst = (givenIds given).map Prod.fst := by
    simp [idFilters]
  rw [Dict.Unique, hkeys]
  refine h.sublist ?_
  clear h hkeys
  induction given with
  | nil => exact .slnil
  | cons e given ih =>
      obtain ⟨k, v⟩ := e
      cases v with
      | none => exact ih.cons k
      | some v => exact ih.cons_cons k

theorem givenIds_keys {ids : AddIds} {metadata : Entries} {given : List (String × Option String)}
    (h : requestIds ids metadata = .ok given) {e : String × String} (he : e ∈ givenIds given) :
    e.1 ∈ sessionScopeKeys := by
  obtain ⟨e', he', hmap⟩ := List.mem_filterMap.mp he
  obtain ⟨value, _, rfl⟩ := Option.map_eq_some_iff.mp hmap
  have hmem : e'.1 ∈ given.map Prod.fst := List.mem_map_of_mem he'
  rw [(requestIds_none h).1] at hmem
  exact (by decide : ∀ k ∈ ["user_id", "agent_id", "app_id", "run_id", "project_id"],
    k ∈ sessionScopeKeys) _ hmem

/-- The stored metadata carries every identifier of the scope. -/
theorem metadata_carries {ids : AddIds} {metadata : Option Entries} {stored : Entries} {scope : ScopeIds}
    (h : buildFiltersAndMetadata ids metadata = .ok (stored, scope)) {e : String × String} (he : e ∈ scope) :
    e.1 ∈ sessionScopeKeys ∧ stored.lookup e.1 = some (.str e.2) := by
  simp only [buildFiltersAndMetadata, Fallible.bind_ok] at h
  obtain ⟨given, hgiven, h⟩ := h
  have hnodup : (given.map Prod.fst).Nodup := (requestIds_none hgiven).1 ▸ by decide
  split at h
  · cases h
    have hunique := unique_idFilters_givenIds hnodup
    refine ⟨givenIds_keys hgiven he, ?_⟩
    have hmem : (e.1, Value.str e.2) ∈ idFilters (givenIds given) := List.mem_map.mpr ⟨e, he, rfl⟩
    rw [Dict.lookup_update _ hunique, (Dict.mem_iff_lookup hunique).mp hmem, Option.some_or]
  · cases h

/-- The stored metadata carries the scope of the request, and no other identifier. -/
theorem metadata_scope {ids : AddIds} {metadata : Option Entries} {stored : Entries} {scope : ScopeIds}
    (h : buildFiltersAndMetadata ids metadata = .ok (stored, scope))
    (hscoped : ∀ e ∈ ids.arguments, e.2 = none → Payload.get (metadata.getD []) e.1 = .null)
    {key : String} (hk : key ∈ sessionScopeKeys) : Payload.get stored key = scopeValue scope key := by
  simp only [buildFiltersAndMetadata, Fallible.bind_ok] at h
  obtain ⟨given, hgiven, h⟩ := h
  obtain ⟨hkeys, hnone⟩ := requestIds_none hgiven
  have hnodup : (given.map Prod.fst).Nodup := hkeys ▸ by decide
  split at h
  · cases h
    rw [Payload.get, Dict.lookup_update _ (unique_idFilters_givenIds hnodup), lookup_idFilters, scopeValue]
    cases hlookup : (givenIds given).lookup key with
    | some value => rfl
    | none =>
        have hmem : key ∈ given.map Prod.fst := by
          rw [hkeys]
          exact (by decide : ∀ k ∈ sessionScopeKeys,
            k ∈ ["user_id", "agent_id", "app_id", "run_id", "project_id"]) key hk
        obtain ⟨⟨key, v⟩, he, rfl⟩ := List.mem_map.mp hmem
        rw [lookup_givenIds hnodup, (Dict.mem_iff_lookup hnodup).mp he] at hlookup
        cases (show v = none from hlookup)
        rcases hnone _ he hlookup with harg | hnull
        · exact hscoped _ harg rfl
        · exact hnull
  · cases h

end YiQiao
