import YiQiao.Lib.Marks
import YiQiao.Memory.Purge

/-!
# Session scopes

The identifiers of a scope are joined into one text. The messages of a conversation, the ids of its memories and the
messages that go with a project are found by this text.
-/

namespace YiQiao

open Lib Filters

variable {V S : Type}

/-- Every identifier is one that `_validate_and_trim_entity_id` answers. -/
def ScopeIds.Accepted (scope : ScopeIds) : Prop :=
  ∀ key ∈ sessionScopeKeys, ∀ id, scope.lookup key = some id → ∃ name given, trimEntityId name given = .ok id

def ScopeIds.SameIds (s t : ScopeIds) : Prop := ∀ key ∈ sessionScopeKeys, s.lookup key = t.lookup key

/-- The identifiers that are set, in the order in which they are joined. -/
def ScopeIds.components (scope : ScopeIds) : ScopeIds :=
  sessionScopeKeys.filterMap fun key => (scope.lookup key).map fun id => (key, id)

def componentText (e : String × String) : List Char := e.1.toList ++ '=' :: e.2.toList

/-- The text of an identifier goes on with the name and the text of one that is joined after it. -/
def SpellsLater (key id : String) : Prop :=
  ∃ front later rest, [key, later].Sublist sessionScopeKeys ∧ front ≠ "" ∧ rest ≠ "" ∧
    id = front ++ "&" ++ later ++ "=" ++ rest

/-- No identifier holds an ampersand. -/
def ScopeIds.Plain (scope : ScopeIds) : Prop := ∀ e ∈ scope.components, '&' ∉ e.2.toList

/-! ## Identifiers -/

theorem accepted_id {id : String} :
    (∃ name given, trimEntityId name given = .ok id) ↔ id ≠ "" ∧ ∀ c ∈ id.toList, isSpace c = false := by
  constructor
  · rintro ⟨name, given, h⟩
    simp only [trimEntityId] at h
    split at h
    · cases h
    · rename_i hne
      split at h
      · cases h
      · rename_i hspace
        cases h
        refine ⟨hne, fun c hc => ?_⟩
        simp only [List.any_eq_true, not_exists, not_and, Bool.not_eq_true] at hspace
        exact hspace c hc
  · rintro ⟨hne, hspace⟩
    have hstrip : strip id = id := by
      rw [strip, dropWhile_none hspace, dropWhile_none (by simpa using hspace), List.reverse_reverse,
        String.ofList_toList]
    refine ⟨"", id, ?_⟩
    simp only [trimEntityId, hstrip]
    rw [if_neg hne, if_neg]
    simp only [List.any_eq_true, not_exists, not_and, Bool.not_eq_true]
    exact hspace

theorem sessionScopeKeys_nodup : sessionScopeKeys.Nodup := by decide

theorem sessionScopeKeys_noMark {key : String} (h : key ∈ sessionScopeKeys) : '=' ∉ key.toList ∧ '&' ∉ key.toList :=
  (by decide : ∀ key ∈ sessionScopeKeys, '=' ∉ key.toList ∧ '&' ∉ key.toList) key h

/-! ## Components -/

theorem lookup_built_ids {keys : List String} (hkeys : keys.Nodup) {key : String} (hkey : key ∈ keys)
    (f : String → Option String) : (keys.filterMap fun k => (f k).map fun id => (k, id)).lookup key = f key := by
  induction keys with
  | nil => cases hkey
  | cons k keys ih =>
      obtain ⟨hk, hkeys⟩ := List.nodup_cons.mp hkeys
      by_cases hne : key = k
      · subst hne
        cases hf : f key with
        | some id => simp [hf]
        | none =>
            simp only [List.filterMap_cons, hf, Option.map_none]
            rw [List.lookup_eq_none_iff]
            intro e he
            obtain ⟨k', hk', hmap⟩ := List.mem_filterMap.mp he
            obtain ⟨id, _, rfl⟩ := Option.map_eq_some_iff.mp hmap
            simpa using fun heq : key = k' => hk (heq ▸ hk')
      · have hrest := ih hkeys ((List.mem_cons.mp hkey).resolve_left hne)
        have hb : (key == k) = false := by simpa using hne
        cases hf : f k with
        | some id => simpa [hf, List.lookup_cons, hb] using hrest
        | none => simpa [hf] using hrest

namespace ScopeIds

variable {s t : ScopeIds}

theorem lookup_components {key : String} (h : key ∈ sessionScopeKeys) : s.components.lookup key = s.lookup key :=
  lookup_built_ids sessionScopeKeys_nodup h _

theorem components_eq_iff : s.components = t.components ↔ SameIds s t := by
  constructor
  · intro h key hkey
    rw [← lookup_components hkey, ← @lookup_components t key hkey, h]
  · intro h
    exact List.filterMap_congr fun key hkey => by rw [h key hkey]

theorem components_keys : (s.components.map Prod.fst).Sublist sessionScopeKeys := by
  have hkeys : ∀ keys : List String,
      ((keys.filterMap fun key => (s.lookup key).map fun id => (key, id)).map Prod.fst).Sublist keys := by
    intro keys
    induction keys with
    | nil => exact .slnil
    | cons key keys ih =>
        cases h : s.lookup key with
        | none => simpa [h] using ih.cons key
        | some id => simpa [h] using ih.cons_cons key
  exact hkeys sessionScopeKeys

theorem mem_components {e : String × String} (h : e ∈ s.components) :
    e.1 ∈ sessionScopeKeys ∧ s.lookup e.1 = some e.2 := by
  obtain ⟨key, hkey, hmap⟩ := List.mem_filterMap.mp h
  obtain ⟨id, hid, rfl⟩ := Option.map_eq_some_iff.mp hmap
  exact ⟨hkey, hid⟩

/-- Identifiers that stand in their order are their own components. -/
theorem components_of_ordered (h : (s.map Prod.fst).Sublist sessionScopeKeys) : s.components = s := by
  have hordered : ∀ keys : List String, keys.Nodup → ∀ s : ScopeIds, (s.map Prod.fst).Sublist keys →
      (keys.filterMap fun key => (s.lookup key).map fun id => (key, id)) = s := by
    intro keys
    induction keys with
    | nil =>
        intro _ s hs
        rw [List.map_eq_nil_iff.mp (List.sublist_nil.mp hs)]
        rfl
    | cons key keys ih =>
        intro hnodup s hs
        obtain ⟨hkey, hkeys⟩ := List.nodup_cons.mp hnodup
        cases s with
        | nil => simp
        | cons e s =>
            rw [List.map_cons] at hs
            cases hs with
            | cons _ hs =>
                have hnone : List.lookup key (e :: s) = none := by
                  rw [Dict.lookup_eq_none_iff_keys]
                  exact fun hmem => hkey (hs.subset hmem)
                simpa [hnone] using ih hkeys (e :: s) hs
            | cons_cons _ hs =>
                have hrest : (keys.filterMap fun key => (List.lookup key (e :: s)).map fun id => (key, id)) =
                    keys.filterMap fun key => (List.lookup key s).map fun id => (key, id) := by
                  refine List.filterMap_congr fun k hk => ?_
                  have hb : (k == e.1) = false := by simpa using fun heq : k = e.1 => hkey (heq ▸ hk)
                  rw [show e :: s = (e.1, e.2) :: s from rfl, List.lookup_cons, hb]
                have hfirst : List.lookup e.1 (e :: s) = some e.2 := by
                  rw [show e :: s = (e.1, e.2) :: s from rfl, List.lookup_cons_self]
                simp only [List.filterMap_cons, hfirst, Option.map_some, hrest, ih hkeys s hs]
  exact hordered sessionScopeKeys sessionScopeKeys_nodup s h

theorem toList_buildSessionScope :
    (buildSessionScope s).toList = ['&'].intercalate (s.components.map componentText) := by
  rw [buildSessionScope, String.toList_intercalate, components, List.map_filterMap, List.map_filterMap]
  congr 1
  refine List.filterMap_congr fun key _ => ?_
  cases s.lookup key with
  | none => rfl
  | some id => simp [componentText]

/-! ## Texts that no other scope has -/

theorem accepted_components (h : s.Accepted) {e : String × String} (he : e ∈ s.components) :
    e.2 ≠ "" ∧ ∀ c ∈ e.2.toList, isSpace c = false := by
  obtain ⟨hkey, hid⟩ := mem_components he
  exact accepted_id.mp (h e.1 hkey e.2 hid)

theorem accepted_of_components (h : ∀ e ∈ s.components, e.2 ≠ "" ∧ ∀ c ∈ e.2.toList, isSpace c = false) :
    s.Accepted := by
  intro key hkey id hid
  rw [← lookup_components hkey] at hid
  exact accepted_id.mpr (h _ (Dict.mem_of_lookup hid))

/-- The test that evaluates. -/
theorem accepted_of_all (h : s.components.all (fun e => e.2 ≠ "" && e.2.toList.all fun c => !isSpace c) = true) :
    s.Accepted := by
  apply accepted_of_components
  simpa using h

theorem componentText_eq {e e' : String × String} {rest rest' : List Char} (he : e.1 ∈ sessionScopeKeys)
    (he' : e'.1 ∈ sessionScopeKeys) (h : componentText e ++ rest = componentText e' ++ rest') :
    e.1 = e'.1 ∧ e.2.toList ++ rest = e'.2.toList ++ rest' := by
  rw [componentText, componentText, List.append_assoc, List.append_assoc] at h
  obtain ⟨hkey, hrest⟩ := first_mark (sessionScopeKeys_noMark he).1 (sessionScopeKeys_noMark he').1 h
  exact ⟨String.toList_inj.mp hkey, hrest⟩

/-- Two identifiers in one. -/
def joined (first second : String × String) : String × String :=
  (first.1, first.2 ++ "&" ++ second.1 ++ "=" ++ second.2)

theorem componentText_joined (first second : String × String) :
    componentText (joined first second) = componentText first ++ '&' :: componentText second := by
  simp [componentText, joined]

/-- Two identifiers in one have the text of the two. -/
theorem same_text {first second : String × String} {rest : ScopeIds} (hs : s.components = joined first second :: rest)
    (ht : t.components = first :: second :: rest) : buildSessionScope s = buildSessionScope t ∧ ¬ SameIds s t := by
  constructor
  · rw [← String.toList_inj, toList_buildSessionScope, toList_buildSessionScope, hs, ht, List.map_cons, List.map_cons,
      List.map_cons, componentText_joined, intercalate_joined]
  · intro h
    have hlength := congrArg List.length (components_eq_iff.mpr h)
    rw [hs, ht] at hlength
    simp at hlength

theorem sessionScopeKeys_noSpace {key : String} (h : key ∈ sessionScopeKeys) : ∀ c ∈ key.toList, isSpace c = false := by
  have hall : (sessionScopeKeys.all fun key => key.toList.all fun c => !isSpace c) = true := by decide
  intro c hc
  simpa using List.all_eq_true.mp (List.all_eq_true.mp hall key h) c hc

/-- A scope of two identifiers or more shares its text. -/
theorem shares_of_two {first second : String × String} {rest : ScopeIds} (hs : s.Accepted)
    (h : s.components = first :: second :: rest) :
    ∃ t : ScopeIds, t.Accepted ∧ buildSessionScope t = buildSessionScope s ∧ ¬ SameIds t s := by
  have hkeys : (first.1 :: second.1 :: rest.map Prod.fst).Sublist sessionScopeKeys := by
    have hkeys := s.components_keys
    rwa [h] at hkeys
  have ht : components (joined first second :: rest) = joined first second :: rest :=
    components_of_ordered (((List.Sublist.refl _).cons second.1).cons_cons first.1 |>.trans hkeys)
  obtain ⟨htext, hdiffers⟩ := same_text ht h
  refine ⟨joined first second :: rest, accepted_of_components fun e he => ?_, htext, hdiffers⟩
  have hall : ∀ e ∈ s.components, e.2 ≠ "" ∧ ∀ c ∈ e.2.toList, isSpace c = false :=
    fun e he => accepted_components hs he
  rw [h] at hall
  rw [ht] at he
  rcases List.mem_cons.mp he with rfl | he
  · refine ⟨by simp [joined], fun c hc => ?_⟩
    simp only [joined, String.toList_append, List.mem_append] at hc
    rcases hc with (((hc | hc) | hc) | hc) | hc
    · exact (hall first List.mem_cons_self).2 c hc
    · rw [show "&".toList = ['&'] from rfl, List.mem_singleton] at hc
      rw [hc]
      rfl
    · exact sessionScopeKeys_noSpace (hkeys.subset (by simp)) c hc
    · rw [show "=".toList = ['='] from rfl, List.mem_singleton] at hc
      rw [hc]
      rfl
    · exact (hall second (by simp)).2 c hc
  · exact hall e (by simp [he])

/-- An identifier that spells a later one shares its text with the two. -/
theorem shares_of_spells {e : String × String} (hs : s.Accepted) (h : s.components = [e])
    (hspells : SpellsLater e.1 e.2) :
    ∃ t : ScopeIds, t.Accepted ∧ buildSessionScope t = buildSessionScope s ∧ ¬ SameIds t s := by
  obtain ⟨front, later, rest, hlater, hfront, hrest, hid⟩ := hspells
  have ht : components [(e.1, front), (later, rest)] = [(e.1, front), (later, rest)] := components_of_ordered hlater
  have hjoined : s.components = [joined (e.1, front) (later, rest)] := by
    rw [h]
    exact congrArg (fun id => [(e.1, id)]) hid
  obtain ⟨htext, hdiffers⟩ := same_text hjoined ht
  refine ⟨_, accepted_of_components fun part hpart => ?_, htext.symm, fun hsame => hdiffers fun key hkey => (hsame key hkey).symm⟩
  have hspace := (accepted_components hs (h ▸ List.mem_singleton_self e)).2
  rw [hid] at hspace
  rw [ht] at hpart
  simp only [List.mem_cons, List.not_mem_nil, or_false] at hpart
  rcases hpart with rfl | rfl
  · exact ⟨hfront, fun c hc => hspace c (by simp [hc])⟩
  · exact ⟨hrest, fun c hc => hspace c (by simp [hc])⟩

theorem componentText_inj {e e' : String × String} (he : e.1 ∈ sessionScopeKeys) (he' : e'.1 ∈ sessionScopeKeys)
    (h : componentText e = componentText e') : e = e' := by
  obtain ⟨hkey, hid⟩ := componentText_eq he he' (congrArg (· ++ []) h)
  rw [List.append_nil, List.append_nil, String.toList_inj] at hid
  exact Prod.ext hkey hid

theorem componentText_ne_nil (e : String × String) : componentText e ≠ [] := by simp [componentText]

/-- A scope of one identifier, which spells no later one, has its text alone. -/
theorem own_of_single (hlength : s.components.length ≤ 1) (hspells : ∀ e ∈ s.components, ¬ SpellsLater e.1 e.2)
    (ht : t.Accepted) (h : buildSessionScope t = buildSessionScope s) : SameIds t s := by
  rw [← components_eq_iff]
  rw [← String.toList_inj, toList_buildSessionScope, toList_buildSessionScope] at h
  have htkeys := t.components_keys
  have htmem : ∀ e ∈ t.components, e.1 ∈ sessionScopeKeys := fun e he => (mem_components he).1
  have hsmem : ∀ e ∈ s.components, e.1 ∈ sessionScopeKeys := fun e he => (mem_components he).1
  have htids : ∀ e ∈ t.components, e.2 ≠ "" := fun e he => (accepted_components ht he).1
  generalize t.components = found at *
  generalize s.components = given at *
  cases given with
  | nil =>
      cases found with
      | nil => rfl
      | cons e found =>
          cases found with
          | nil => simp at h; exact absurd h (componentText_ne_nil e)
          | cons e' found => simp at h
  | cons e given =>
      have hgiven : given = [] := by simpa using hlength
      subst hgiven
      rw [List.map_singleton, List.intercalate_singleton, ← List.append_nil (componentText e)] at h
      cases found with
      | nil => simp at h; exact absurd h (componentText_ne_nil e)
      | cons e' found =>
          have he := hsmem e List.mem_cons_self
          have he' := htmem e' List.mem_cons_self
          cases found with
          | nil =>
              rw [List.map_singleton, List.intercalate_singleton, List.append_nil] at h
              rw [componentText_inj he' he h]
          | cons later found =>
              rw [List.map_cons, List.map_cons, List.intercalate_cons_cons, List.append_assoc] at h
              obtain ⟨hkey, hid⟩ := componentText_eq he' he h
              refine absurd ?_ (hspells e List.mem_cons_self)
              obtain ⟨more, hmore⟩ : ∃ more, ['&'].intercalate (componentText later :: found.map componentText) =
                  componentText later ++ more := by
                cases found with
                | nil => exact ⟨[], by simp⟩
                | cons next found => exact ⟨_, by rw [List.map_cons, List.intercalate_cons_cons, List.append_assoc]⟩
              have hlater : [e.1, later.1].Sublist sessionScopeKeys := by
                rw [← hkey]
                exact (((List.nil_sublist _).cons_cons later.1).cons_cons e'.1).trans htkeys
              refine ⟨e'.2, later.1, String.ofList (later.2.toList ++ more), hlater, htids e' List.mem_cons_self, ?_, ?_⟩
              · intro hempty
                have hnil := congrArg String.toList hempty
                rw [String.toList_ofList] at hnil
                have hlaterId := htids later (by simp)
                exact hlaterId (String.toList_inj.mp (List.append_eq_nil_iff.mp hnil).1)
              · rw [← String.toList_inj]
                rw [List.append_nil, hmore, componentText] at hid
                rw [← hid]
                simp

/-! ## Scopes without ampersands -/

theorem part_plain (h : s.Plain) : ∀ part ∈ s.components.map componentText, part ≠ [] ∧ '&' ∉ part := by
  intro part hpart
  obtain ⟨e, he, rfl⟩ := List.mem_map.mp hpart
  refine ⟨componentText_ne_nil e, fun hmem => ?_⟩
  rcases List.mem_append.mp hmem with hkey | hid
  · exact (sessionScopeKeys_noMark (mem_components he).1).2 hkey
  · exact h e he ((List.mem_cons.mp hid).resolve_left (by decide))

theorem same_of_plain (hs : s.Plain) (ht : t.Plain) (h : buildSessionScope s = buildSessionScope t) : SameIds s t := by
  rw [← components_eq_iff]
  rw [← String.toList_inj, toList_buildSessionScope, toList_buildSessionScope] at h
  have hparts := intercalate_injective (part_plain hs) (part_plain ht) h
  have hskeys : ∀ e ∈ s.components, e.1 ∈ sessionScopeKeys := fun e he => (mem_components he).1
  have htkeys : ∀ e ∈ t.components, e.1 ∈ sessionScopeKeys := fun e he => (mem_components he).1
  clear h
  generalize s.components = given at *
  generalize t.components = found at *
  induction given generalizing found with
  | nil => exact (List.map_eq_nil_iff.mp hparts.symm).symm
  | cons e given ih =>
      cases found with
      | nil => cases hparts
      | cons e' found =>
          obtain ⟨hpart, hrest⟩ := List.cons.inj hparts
          rw [componentText_inj (hskeys e List.mem_cons_self) (htkeys e' List.mem_cons_self) hpart,
            ih (fun e he => hskeys e (List.mem_cons_of_mem _ he)) found
              (fun e he => htkeys e (List.mem_cons_of_mem _ he)) hrest]

/-- The messages of a scope go with the project it names. -/
theorem namesProject_iff {projectId : String} (hs : s.Plain) (hproject : '&' ∉ projectId.toList) :
    namesProject projectId (buildSessionScope s) = true ↔ s.lookup "project_id" = some projectId := by
  have hkey' : "project_id" ∈ sessionScopeKeys := by decide
  have hplain : '&' ∉ componentText ("project_id", projectId) := by
    intro hmem
    rcases List.mem_append.mp hmem with hkey | hid
    · exact (sessionScopeKeys_noMark hkey').2 hkey
    · exact hproject ((List.mem_cons.mp hid).resolve_left (by decide))
  have hmem : componentText ("project_id", projectId) ∈ s.components.map componentText ↔
      s.lookup "project_id" = some projectId := by
    constructor
    · intro h
      obtain ⟨e, he, heq⟩ := List.mem_map.mp h
      rw [componentText_inj (mem_components he).1 hkey' heq] at he
      exact (mem_components he).2
    · intro h
      rw [← lookup_components hkey'] at h
      exact List.mem_map_of_mem (Dict.mem_of_lookup h)
  have hwanted : ("&project_id=" ++ projectId ++ "&").toList =
      '&' :: (componentText ("project_id", projectId) ++ ['&']) := by
    simp [componentText]
  rw [namesProject, decide_eq_true_eq, ← hmem, hwanted]
  have htext : ("&" ++ buildSessionScope s ++ "&").toList =
      '&' :: ['&'].intercalate (s.components.map componentText) ++ ['&'] := by
    simp [toList_buildSessionScope]
  rw [htext]
  have hparts := fun part hpart => (part_plain hs part hpart).2
  generalize s.components.map componentText = parts at hparts
  cases parts with
  | nil =>
      refine ⟨fun h => ?_, fun h => by cases h⟩
      have hlength := h.length_le
      simp [componentText] at hlength
  | cons part parts =>
      rw [intercalate_marked]
      constructor
      · rintro ⟨pre, post, h⟩
        refine @mem_of_between _ _ _ _ pre post hplain hparts ?_
        rw [← h]
        simp
      · intro h
        obtain ⟨pre, post, heq⟩ := between_of_mem h
        exact ⟨pre, post, by rw [heq]; simp⟩

end ScopeIds

/-! ## Whose text a scope has -/

/-- The text of a scope is its own exactly if it has one identifier at most, which spells no later one. Scopes without
ampersands share neither texts nor memory ids, and their messages go with the project they name. -/
theorem session_scope_own_iff (W : Writer V S) {s : ScopeIds} (hs : s.Accepted) :
    ((∀ t : ScopeIds, t.Accepted → ¬ t.SameIds s → buildSessionScope t ≠ buildSessionScope s) ↔
      s.components.length ≤ 1 ∧ ∀ e ∈ s.components, ¬ SpellsLater e.1 e.2) ∧
    (s.Plain →
      (∀ t : ScopeIds, t.Accepted → t.Plain → ¬ t.SameIds s → buildSessionScope t ≠ buildSessionScope s ∧
        (Function.Injective W.uuid5 → ∀ hash, memoryIdForHash W t hash ≠ memoryIdForHash W s hash)) ∧
      ∀ projectId : String, '&' ∉ projectId.toList →
        (namesProject projectId (buildSessionScope s) = true ↔ s.lookup "project_id" = some projectId)) := by
  refine ⟨⟨fun hown => ?_, fun ⟨hlength, hspells⟩ t ht hdiffers h => ?_⟩, fun hplain =>
    ⟨fun t _ htplain hdiffers => ?_, fun projectId hproject => ScopeIds.namesProject_iff hplain hproject⟩⟩
  · have hnone : ¬ ∃ t : ScopeIds, t.Accepted ∧ buildSessionScope t = buildSessionScope s ∧ ¬ t.SameIds s :=
      fun ⟨t, ht, htext, hdiffers⟩ => hown t ht hdiffers htext
    have hlength : s.components.length ≤ 1 := by
      by_contra hlong
      obtain ⟨first, second, rest, hcomponents⟩ : ∃ first second rest, s.components = first :: second :: rest := by
        match h : s.components with
        | [] => simp [h] at hlong
        | [_] => simp [h] at hlong
        | first :: second :: rest => exact ⟨first, second, rest, rfl⟩
      exact hnone (ScopeIds.shares_of_two hs hcomponents)
    refine ⟨hlength, fun e he hspells => hnone (ScopeIds.shares_of_spells hs ?_ hspells)⟩
    match h : s.components with
    | [] => rw [h] at he; cases he
    | [_] => rw [h] at he; rw [List.mem_singleton.mp he]
    | _ :: _ :: _ => simp [h] at hlength
  · exact hdiffers (ScopeIds.own_of_single hlength hspells ht h)
  · have htext : buildSessionScope t ≠ buildSessionScope s := fun h => hdiffers (ScopeIds.same_of_plain htplain hplain h)
    refine ⟨htext, fun hinjective hash h => htext ?_⟩
    have htexts := congrArg String.toList (hinjective h)
    rw [String.toList_append, String.toList_append, String.toList_append, String.toList_append,
      List.append_assoc, List.append_assoc] at htexts
    exact String.toList_inj.mp (List.append_cancel_right htexts)

/-- An agent and an application of a project. -/
def agentOfApp : ScopeIds := [("agent_id", "reader"), ("app_id", "notes"), ("project_id", "p")]

/-- An agent whose id spells the application. -/
def agentSpellingApp : ScopeIds := [("agent_id", "reader&app_id=notes"), ("project_id", "p")]

theorem scopes_share_text : agentOfApp.Accepted ∧ agentSpellingApp.Accepted ∧ ¬ agentSpellingApp.SameIds agentOfApp ∧
    buildSessionScope agentSpellingApp = buildSessionScope agentOfApp := by
  refine ⟨ScopeIds.accepted_of_all (by decide), ScopeIds.accepted_of_all (by decide), fun h => ?_,
    by decide⟩
  exact absurd (h "app_id" (by decide)) (by decide)

theorem user_scope_own : buildSessionScope [("user_id", "ann")] = "user_id=ann" ∧ ∀ t : ScopeIds, t.Accepted →
    ¬ t.SameIds [("user_id", "ann")] → buildSessionScope t ≠ buildSessionScope [("user_id", "ann")] := by
  refine ⟨by decide, (session_scope_own_iff (Writer.plain .ascii : Writer Unit ℚ)
    (ScopeIds.accepted_of_all (by decide))).1.mpr ⟨by decide, ?_⟩⟩
  rintro e he ⟨front, later, rest, _, _, _, hid⟩
  have hann : e = ("user_id", "ann") := List.mem_singleton.mp he
  subst hann
  have hid : "ann" = front ++ "&" ++ later ++ "=" ++ rest := hid
  have hmem : '&' ∈ "ann".toList := by
    rw [hid]
    simp
  exact absurd hmem (by decide)

end YiQiao
