import YiQiao.Import.Cover
import YiQiao.Import.Payload
import YiQiao.Lib.Json
import YiQiao.Lib.Marks
import YiQiao.Server.Project

/-!
# Import keys and vector ids

A chunk goes by the digest of its key material as JSON, a stored memory by an id that is made of its project, its scope,
its conversation and the digest of its text. Neither mixes up two of them.
-/

namespace YiQiao

open Lib

/-! ## JSON texts of values -/

mutual
/-- The value as `json.dumps` sees it, with sorted keys. -/
def Value.json (P : Platform) : Value → Json
  | .null => .null
  | .bool b => .bool b
  | .num n 0 => .number (intText n).toList
  | .num m (s + 1) => .number (P.floatStr m (s + 1)).toList
  | .str s => .str s.toList
  | .list xs => .arr (Value.jsonItems P xs)
  | .dict d => .obj (sortFields (Value.jsonFields P d))

def Value.jsonItems (P : Platform) : List Value → List Json
  | [] => []
  | v :: vs => v.json P :: Value.jsonItems P vs

def Value.jsonFields (P : Platform) : List (String × Value) → List (String × Json)
  | [] => []
  | (key, v) :: d => (key, v.json P) :: Value.jsonFields P d
end

/-- A hash function whose digests are written in hexadecimal digits. -/
structure HexDigest where
  digest : String → String
  hex : ∀ s, (digest s).toList.all (· ∈ hexDigits) = true

section
variable (P : Platform) (sha256 : HexDigest)

/-- `stable_hash`. -/
def stableHash (value : Value) : String := sha256.digest (String.ofList (value.json P).render)

def Value.ofInt (n : Int) : Value := .num n 0

/-- `asdict` of a message. -/
def ChatMessage.asDict (m : ChatMessage) : Value :=
  .dict [("role", .str m.role), ("content", .str (String.ofList m.content)), ("created_at", m.createdAt.getD .null),
    ("source_index", (m.sourceIndex.map Value.ofInt).getD .null), ("part_index", .ofInt m.partIndex)]

def entityScopeValue (scope : List (String × String)) : Value := .dict (scope.map fun e => (e.1, .str e.2))

/-- The dictionary that `import_key_material` gives. -/
def KeyMaterial.value (material : KeyMaterial) : Value :=
  .dict ([("source_app", .str material.sourceApp), ("source_url", (material.sourceUrl.map Value.str).getD .null),
      ("conversation_id", .str material.conversationId), ("conversation_title", .str material.conversationTitle),
      ("core_source_indices", .list (material.coreSourceIndices.map Value.ofInt)),
      ("messages", .list (material.messages.map ChatMessage.asDict))] ++
    (material.entityScope.map fun scope => ("entity_scope", entityScopeValue scope)).toList)

/-- `entity_scope_hash`. -/
def entityScopeHash (entities : List (String × String)) : String :=
  stableHash P sha256 (entityScopeValue (canonicalEntityScope entities))

/-- An importer whose keys are digests of the key material. -/
def Importer.hashed (I : Importer) : Importer :=
  { I with
    importKey := fun material => stableHash P sha256 material.value
    entityScopeHash := YiQiao.entityScopeHash P sha256 }

/-- The `id_factory` of `_store_import_chunk`. -/
def importVectorId (uuid5 : String → String) (project : ProjectId) (entities : List (String × String))
    (conversationId memoryHash : String) : String :=
  uuid5 ("yiqiao:" ++ project.text ++ ":" ++ entityScopeHash P sha256 entities ++ ":" ++ conversationId ++ ":" ++
    memoryHash)

end

/-- The messages are the same; floats are, when they print alike, and dictionaries, whatever the order of their keys. -/
structure SameMessage (P : Platform) (m m' : ChatMessage) : Prop where
  role : m.role = m'.role
  content : m.content = m'.content
  createdAt : (m.createdAt.getD .null).json P = (m'.createdAt.getD .null).json P
  sourceIndex : m.sourceIndex = m'.sourceIndex
  partIndex : m.partIndex = m'.partIndex

/-- What two chunks with one import key have in common. -/
structure SameMaterial (P : Platform) (material material' : KeyMaterial) : Prop where
  sourceApp : material.sourceApp = material'.sourceApp
  sourceUrl : material.sourceUrl = material'.sourceUrl
  conversationId : material.conversationId = material'.conversationId
  conversationTitle : material.conversationTitle = material'.conversationTitle
  coreSourceIndices : material.coreSourceIndices = material'.coreSourceIndices
  messages : List.Forall₂ (SameMessage P) material.messages material'.messages
  entityScope : material.entityScope = material'.entityScope

/-! ## Numbers -/

theorem intText_toList (n : Int) :
    (intText n).toList = (if n < 0 then ['-'] else []) ++ Nat.toDigits 10 n.natAbs := by
  rw [intText, String.toList_ofList]

theorem intText_injective {n n' : Int} (h : intText n = intText n') : n = n' := by
  have hlists : (intText n).toList = (intText n').toList := by rw [h]
  rw [intText_toList, intText_toList] at hlists
  have hne : ∀ k : Nat, ∀ rest, Nat.toDigits 10 k ≠ '-' :: rest := by
    intro k rest hk
    have hdigit := toDigits_digits (n := k) (hk ▸ List.mem_cons_self)
    exact absurd hdigit (by decide)
  by_cases hneg : n < 0
  · by_cases hneg' : n' < 0
    · rw [if_pos hneg, if_pos hneg'] at hlists
      have habs := toDigits_injective (List.cons.inj hlists).2
      omega
    · rw [if_pos hneg, if_neg hneg'] at hlists
      exact absurd hlists.symm (hne _ _)
  · by_cases hneg' : n' < 0
    · rw [if_neg hneg, if_pos hneg'] at hlists
      exact absurd hlists (hne _ _)
    · rw [if_neg hneg, if_neg hneg'] at hlists
      have habs := toDigits_injective hlists
      omega

theorem isNumber_intText (n : Int) : IsNumber (intText n).toList := by
  rw [intText_toList]
  have hdigit : ∀ c ∈ Nat.toDigits 10 n.natAbs, isNumberChar c = true := by
    intro c hc
    rw [isNumberChar, toDigits_digits hc, Bool.true_or]
  obtain ⟨first, rest, hfirst⟩ := List.exists_cons_of_ne_nil (@Nat.toDigits_ne_nil n.natAbs 10)
  by_cases hneg : n < 0
  · rw [if_pos hneg]
    refine ⟨fun c hc => ?_, '-', _, rfl, .inr (.inl rfl)⟩
    rcases List.mem_cons.mp hc with rfl | hc
    · decide
    · exact hdigit c hc
  · rw [if_neg hneg, List.nil_append]
    exact ⟨hdigit, first, rest, hfirst, .inl (toDigits_digits (hfirst ▸ List.mem_cons_self))⟩

/-! ## One text, one value -/

section
variable {P : Platform}

theorem jsonItems_eq_map (xs : List Value) : Value.jsonItems P xs = xs.map (Value.json P) := by
  induction xs with
  | nil => rfl
  | cons v vs ih => rw [Value.jsonItems, ih, List.map_cons]

theorem jsonFields_eq_map (d : Entries) : Value.jsonFields P d = d.map fun e => (e.1, e.2.json P) := by
  induction d with
  | nil => rfl
  | cons e d ih =>
      obtain ⟨key, v⟩ := e
      rw [Value.jsonFields, ih, List.map_cons]

mutual
theorem json_valid (hfloat : ∀ m s, IsNumber (P.floatStr m (s + 1)).toList) : ∀ v : Value, (v.json P).Valid
  | .null => trivial
  | .bool _ => trivial
  | .num n 0 => isNumber_intText n
  | .num m (s + 1) => hfloat m s
  | .str _ => trivial
  | .list xs => jsonItems_valid hfloat xs
  | .dict d => sortFields_valid (jsonFields_valid hfloat d)

theorem jsonItems_valid (hfloat : ∀ m s, IsNumber (P.floatStr m (s + 1)).toList) :
    ∀ xs : List Value, Json.ValidItems (Value.jsonItems P xs)
  | [] => trivial
  | v :: vs => ⟨json_valid hfloat v, jsonItems_valid hfloat vs⟩

theorem jsonFields_valid (hfloat : ∀ m s, IsNumber (P.floatStr m (s + 1)).toList) :
    ∀ d : List (String × Value), Json.ValidFields (Value.jsonFields P d)
  | [] => trivial
  | (_, v) :: d => ⟨json_valid hfloat v, jsonFields_valid hfloat d⟩
end

/-- Values that hash alike are alike as JSON. -/
theorem json_of_stableHash {sha256 : HexDigest} (hsha : Function.Injective sha256.digest)
    (hfloat : ∀ m s, IsNumber (P.floatStr m (s + 1)).toList) {v w : Value}
    (h : stableHash P sha256 v = stableHash P sha256 w) : v.json P = w.json P :=
  render_injective (json_valid hfloat v) (json_valid hfloat w) (String.ofList_injective (hsha h))

theorem lookup_jsonFields (d : Entries) (key : String) :
    (Value.jsonFields P d).lookup key = (d.lookup key).map (Value.json P) := by
  induction d with
  | nil => rfl
  | cons e d ih =>
      obtain ⟨key', v⟩ := e
      rw [Value.jsonFields, List.lookup_cons, List.lookup_cons, ih]
      cases key == key' <;> rfl

theorem unique_jsonFields {d : Entries} (h : Dict.Unique d) : Dict.Unique (Value.jsonFields P d) := by
  rw [Dict.Unique, jsonFields_eq_map, List.map_map]
  exact h

theorem lookup_of_json {d e : Entries} (hd : Dict.Unique d) (he : Dict.Unique e)
    (h : (Value.dict d).json P = (Value.dict e).json P) (key : String) :
    (d.lookup key).map (Value.json P) = (e.lookup key).map (Value.json P) := by
  rw [← lookup_jsonFields, ← lookup_jsonFields]
  exact lookup_of_sortFields (unique_jsonFields hd) (unique_jsonFields he) (Json.obj.inj h) key

theorem str_of_json {s t : String} (h : (Value.str s).json P = (Value.str t).json P) : s = t :=
  String.toList_inj.mp (Json.str.inj h)

theorem int_of_json {n n' : Int} (h : (Value.ofInt n).json P = (Value.ofInt n').json P) : n = n' :=
  intText_injective (String.toList_inj.mp (Json.number.inj h))

theorem optional_of_json {α : Type} {f : α → Value} (hinj : ∀ a b, (f a).json P = (f b).json P → a = b)
    (hne : ∀ a, (f a).json P ≠ .null) {a b : Option α}
    (h : ((a.map f).getD .null).json P = ((b.map f).getD .null).json P) : a = b := by
  cases a with
  | none => cases b with
    | none => rfl
    | some b => exact absurd h.symm (hne b)
  | some a => cases b with
    | none => exact absurd h (hne a)
    | some b => exact congrArg some (hinj a b h)

/-! ## One key, one chunk -/

theorem sameMessage_of_json {m m' : ChatMessage} (h : m.asDict.json P = m'.asDict.json P) : SameMessage P m m' := by
  have hfield := lookup_of_json (by simp [Dict.Unique]) (by simp [Dict.Unique]) h
  refine ⟨?_, ?_, ?_, ?_, ?_⟩
  · exact str_of_json (Option.some.inj (hfield "role"))
  · exact String.ofList_injective (str_of_json (Option.some.inj (hfield "content")))
  · exact Option.some.inj (hfield "created_at")
  · exact optional_of_json (fun _ _ => int_of_json) (fun _ h => by cases h) (Option.some.inj (hfield "source_index"))
  · exact Int.ofNat.inj (int_of_json (Option.some.inj (hfield "part_index")))

theorem scope_of_json {scope scope' : List (String × String)} (hscope : Dict.Unique scope)
    (hscope' : Dict.Unique scope') (h : (entityScopeValue scope).json P = (entityScopeValue scope').json P) (key : String) :
    scope.lookup key = scope'.lookup key := by
  have hlookup : ∀ scope : List (String × String),
      (scope.map fun e => (e.1, Value.str e.2)).lookup key = (scope.lookup key).map Value.str := by
    intro scope
    induction scope with
    | nil => rfl
    | cons e scope ih =>
        obtain ⟨key', value⟩ := e
        rw [List.map_cons, List.lookup_cons, List.lookup_cons, ih]
        cases key == key' <;> rfl
  have hunique : ∀ {scope : List (String × String)}, Dict.Unique scope →
      Dict.Unique (scope.map fun e => (e.1, Value.str e.2)) := by
    intro scope hscope
    rw [Dict.Unique, List.map_map]
    exact hscope
  have hfield := lookup_of_json (hunique hscope) (hunique hscope') h key
  rw [hlookup, hlookup] at hfield
  cases hleft : scope.lookup key with
  | none => cases hright : scope'.lookup key with
    | none => rfl
    | some value' => rw [hleft, hright] at hfield; cases hfield
  | some value => cases hright : scope'.lookup key with
    | none => rw [hleft, hright] at hfield; cases hfield
    | some value' =>
        rw [hleft, hright] at hfield
        rw [str_of_json (Option.some.inj hfield)]

end

section
variable {κ ν : Type} [DecidableEq κ] {g g' : κ → Option (κ × ν)}

omit [DecidableEq κ] in
/-- The entries that a list of keys gives, each under its own key. -/
theorem keys_filterMap (hg : ∀ key e, g key = some e → e.1 = key) (keys : List κ) :
    ((keys.filterMap g).map Prod.fst).Sublist keys := by
  induction keys with
  | nil => exact .slnil
  | cons key keys ih =>
      cases hentry : g key with
      | none =>
          rw [List.filterMap_cons_none hentry]
          exact ih.cons key
      | some e =>
          rw [List.filterMap_cons_some hentry, List.map_cons, hg key e hentry]
          exact ih.cons_cons key

theorem lookup_filterMap_keys (hg : ∀ key e, g key = some e → e.1 = key) {keys : List κ} (hnodup : keys.Nodup)
    {key : κ} (hkey : key ∈ keys) : (keys.filterMap g).lookup key = (g key).map Prod.snd := by
  have hunique : Dict.Unique (keys.filterMap g) := hnodup.sublist (keys_filterMap hg keys)
  cases hentry : g key with
  | some e =>
      have hmem : (key, e.2) ∈ keys.filterMap g :=
        List.mem_filterMap.mpr ⟨key, hkey, by rw [hentry, ← hg key e hentry]⟩
      exact (Dict.mem_iff_lookup hunique).mp hmem
  | none =>
      rw [Option.map_none, Dict.lookup_eq_none_iff_keys]
      intro hmem
      obtain ⟨e, he, rfl⟩ := List.mem_map.mp hmem
      obtain ⟨key, _, hsome⟩ := List.mem_filterMap.mp he
      rw [hg key e hsome, hsome] at hentry
      cases hentry

theorem filterMap_eq_of_lookup (hg : ∀ key e, g key = some e → e.1 = key) (hg' : ∀ key e, g' key = some e → e.1 = key)
    {keys : List κ} (hnodup : keys.Nodup)
    (h : ∀ key, (keys.filterMap g).lookup key = (keys.filterMap g').lookup key) :
    keys.filterMap g = keys.filterMap g' := by
  refine List.filterMap_congr fun key hkey => ?_
  have hvalues := h key
  rw [lookup_filterMap_keys hg hnodup hkey, lookup_filterMap_keys hg' hnodup hkey] at hvalues
  cases hleft : g key with
  | none => cases hright : g' key with
    | none => rfl
    | some e' => rw [hleft, hright] at hvalues; cases hvalues
  | some e => cases hright : g' key with
    | none => rw [hleft, hright] at hvalues; cases hvalues
    | some e' =>
        rw [hleft, hright] at hvalues
        exact congrArg some (Prod.ext ((hg key e hleft).trans (hg' key e' hright).symm) (Option.some.inj hvalues))

end

section
variable {P : Platform} {sha256 : HexDigest} {options options' : ImportOptions}

/-- What `canonical_entity_scope` has for one key. -/
theorem canonicalEntry_key (entities : List (String × String)) (key : String) (e : String × String)
    (h : (match entities.lookup key with
      | some value => if strip value = "" then none else some (key, strip value)
      | none => none) = some e) : e.1 = key := by
  split at h
  · split at h
    · cases h
    · cases h
      rfl
  · cases h

theorem canonicalEntityScope_unique (entities : List (String × String)) :
    Dict.Unique (canonicalEntityScope entities) :=
  List.Nodup.sublist (keys_filterMap (canonicalEntry_key entities) _) (by decide)

theorem canonicalEntityScope_of_json {entities entities' : List (String × String)}
    (h : (entityScopeValue (canonicalEntityScope entities)).json P = (entityScopeValue (canonicalEntityScope entities')).json P) :
    canonicalEntityScope entities = canonicalEntityScope entities' :=
  filterMap_eq_of_lookup (canonicalEntry_key entities) (canonicalEntry_key entities') (by decide)
    (scope_of_json (canonicalEntityScope_unique entities) (canonicalEntityScope_unique entities') h)

theorem sameMessages_of_json {messages messages' : List ChatMessage}
    (h : (Value.list (messages.map ChatMessage.asDict)).json P = (Value.list (messages'.map ChatMessage.asDict)).json P) :
    List.Forall₂ (SameMessage P) messages messages' := by
  have hitems := Json.arr.inj h
  rw [jsonItems_eq_map, jsonItems_eq_map, List.map_map, List.map_map] at hitems
  induction messages generalizing messages' with
  | nil => cases messages' with
    | nil => exact .nil
    | cons m' messages' => cases hitems
  | cons m messages ih => cases messages' with
    | nil => cases hitems
    | cons m' messages' =>
        obtain ⟨hhead, htail⟩ := List.cons.inj hitems
        refine .cons (sameMessage_of_json hhead) (ih ?_ htail)
        rw [Value.json, Value.json, jsonItems_eq_map, jsonItems_eq_map, List.map_map, List.map_map, htail]

theorem ints_of_json {ns ns' : List Int}
    (h : (Value.list (ns.map Value.ofInt)).json P = (Value.list (ns'.map Value.ofInt)).json P) : ns = ns' := by
  have hitems := Json.arr.inj h
  rw [jsonItems_eq_map, jsonItems_eq_map, List.map_map, List.map_map] at hitems
  exact List.map_injective_iff.mpr (fun _ _ => int_of_json) hitems

theorem material_unique (material : KeyMaterial) (d : Entries) (h : material.value = .dict d) : Dict.Unique d := by
  cases h
  cases material.entityScope with
  | none => simp [Dict.Unique]
  | some scope => simp [Dict.Unique]

theorem sameMaterial_of_key (hsha : Function.Injective sha256.digest)
    (hfloat : ∀ m s, IsNumber (P.floatStr m (s + 1)).toList) {conversation conversation' : Conversation}
    {chunk chunk' : MessageChunk} (hversion : options.importKeySchemaVersion = currentImportKeySchemaVersion)
    (hversion' : options'.importKeySchemaVersion = currentImportKeySchemaVersion)
    (h : stableHash P sha256 (keyMaterial options conversation chunk).value =
      stableHash P sha256 (keyMaterial options' conversation' chunk').value) :
    SameMaterial P (keyMaterial options conversation chunk) (keyMaterial options' conversation' chunk') := by
  have hfield := lookup_of_json (material_unique _ _ rfl) (material_unique _ _ rfl) (json_of_stableHash hsha hfloat h)
  have hscope : (keyMaterial options conversation chunk).entityScope = some (canonicalEntityScope options.entities) :=
    if_pos hversion
  have hscope' :
      (keyMaterial options' conversation' chunk').entityScope = some (canonicalEntityScope options'.entities) :=
    if_pos hversion'
  have hstr : ∀ {s t : String}, (Value.str s).json P = (Value.str t).json P → s = t := str_of_json
  constructor
  · exact hstr (Option.some.inj (hfield "source_app"))
  · exact optional_of_json (fun _ _ => str_of_json) (fun _ h => by cases h) (Option.some.inj (hfield "source_url"))
  · exact hstr (Option.some.inj (hfield "conversation_id"))
  · exact hstr (Option.some.inj (hfield "conversation_title"))
  · exact ints_of_json (Option.some.inj (hfield "core_source_indices"))
  · exact sameMessages_of_json (Option.some.inj (hfield "messages"))
  · have hentity := hfield "entity_scope"
    rw [hscope, hscope'] at hentity
    rw [hscope, hscope', canonicalEntityScope_of_json (Option.some.inj hentity)]

/-! ## One id, one memory -/

theorem HexDigest.noColon (digest : HexDigest) (s : String) : ':' ∉ (digest.digest s).toList := by
  intro hc
  have hmem := List.all_eq_true.mp (digest.hex s) ':' hc
  revert hmem
  decide

theorem ProjectId.noColon (project : ProjectId) : ':' ∉ project.text.toList := by
  intro hc
  have hallowed := List.all_eq_true.mp project.allowed ':' hc
  revert hallowed
  decide

theorem sameMemory_of_id {uuid5 : String → String} (huuid : Function.Injective uuid5)
    (hsha : Function.Injective sha256.digest) (hfloat : ∀ m s, IsNumber (P.floatStr m (s + 1)).toList) (md5 : HexDigest)
    {project project' : ProjectId} {entities entities' : List (String × String)}
    {conversationId conversationId' content content' : String}
    (h : importVectorId P sha256 uuid5 project entities conversationId (md5.digest content) =
      importVectorId P sha256 uuid5 project' entities' conversationId' (md5.digest content')) :
    project.text = project'.text ∧ canonicalEntityScope entities = canonicalEntityScope entities' ∧
      conversationId = conversationId' ∧ md5.digest content = md5.digest content' := by
  have htext := congrArg String.toList (huuid h)
  simp only [String.toList_append, List.append_assoc] at htext
  have hcolon : ":".toList = [':'] := rfl
  rw [hcolon] at htext
  simp only [List.singleton_append] at htext
  obtain ⟨hproject, htail⟩ := first_mark project.noColon project'.noColon (List.append_cancel_left htext)
  obtain ⟨hscope, htail⟩ := first_mark (sha256.noColon _) (sha256.noColon _) htail
  obtain ⟨hconversation, hcontent⟩ := last_mark (md5.noColon _) (md5.noColon _) htail
  refine ⟨String.toList_inj.mp hproject, ?_, String.toList_inj.mp hconversation, String.toList_inj.mp hcontent⟩
  exact canonicalEntityScope_of_json (json_of_stableHash hsha hfloat (String.toList_inj.mp hscope))

end

/-- Chunks with one import key hold the same, and memories with one id are of one place and one content. -/
theorem import_identities (P : Platform) (hfloat : ∀ m s, IsNumber (P.floatStr m (s + 1)).toList) (I : Importer)
    (sha256 md5 : HexDigest) (uuid5 : String → String) (hsha : Function.Injective sha256.digest)
    (huuid : Function.Injective uuid5) :
    (∀ (options options' : ImportOptions) (conversation conversation' : Conversation) (chunk chunk' : MessageChunk),
      options.importKeySchemaVersion = currentImportKeySchemaVersion →
      options'.importKeySchemaVersion = currentImportKeySchemaVersion →
      messageChunkImportKey (I.hashed P sha256) options conversation chunk =
        messageChunkImportKey (I.hashed P sha256) options' conversation' chunk' →
      SameMaterial P (keyMaterial options conversation chunk) (keyMaterial options' conversation' chunk')) ∧
    ∀ (project project' : ProjectId) (entities entities' : List (String × String))
      (conversationId conversationId' content content' : String),
      importVectorId P sha256 uuid5 project entities conversationId (md5.digest content) =
        importVectorId P sha256 uuid5 project' entities' conversationId' (md5.digest content') →
      project.text = project'.text ∧ canonicalEntityScope entities = canonicalEntityScope entities' ∧
        conversationId = conversationId' ∧ md5.digest content = md5.digest content' :=
  ⟨fun _ _ _ _ _ _ hversion hversion' h => sameMaterial_of_key hsha hfloat hversion hversion' h,
    fun _ _ _ _ _ _ _ _ h => sameMemory_of_id huuid hsha hfloat md5 h⟩

/-! ## Two talks -/

/-- The code points of the text, each behind its own mark. -/
def codePoints (s : String) : String :=
  String.ofList (s.toList.flatMap fun c => Nat.toDigits 10 c.toNat ++ ['f'])

theorem codePoints_injective : Function.Injective codePoints := by
  intro s t h
  have hdigit : ∀ {n : Nat}, 'f' ∉ Nat.toDigits 10 n := fun hf => absurd (toDigits_digits hf) (by decide)
  have hlists : ∀ left right : List Char, (left.flatMap fun c => Nat.toDigits 10 c.toNat ++ ['f']) =
      (right.flatMap fun c => Nat.toDigits 10 c.toNat ++ ['f']) → left = right := by
    intro left
    induction left with
    | nil =>
        intro right h
        cases right with
        | nil => rfl
        | cons d ds => simp at h
    | cons c cs ih =>
        intro right h
        cases right with
        | nil => simp at h
        | cons d ds =>
            rw [List.flatMap_cons, List.flatMap_cons, List.append_assoc, List.append_assoc] at h
            obtain ⟨hchar, hrest⟩ := first_mark hdigit hdigit h
            rw [Char.toNat_inj.mp (toDigits_injective hchar), ih ds hrest]
  exact String.toList_inj.mp (hlists _ _ (String.ofList_injective h))

/-- A digest of any length. -/
def plainDigest : HexDigest where
  digest := codePoints
  hex s := by
    have hchars : ∀ c, c.isDigit = true → c ∈ hexDigits := by
      intro c hc
      have hrange : c.toNat < 58 := by
        rw [Char.isDigit, Bool.and_eq_true, decide_eq_true_eq, decide_eq_true_eq] at hc
        exact Nat.lt_succ_of_le (UInt32.le_iff_toNat_le.mp hc.2)
      have hall : ∀ n < 58, (Char.ofNat n).isDigit = true → Char.ofNat n ∈ hexDigits := by decide
      have hmem := hall c.toNat hrange
      rw [Char.ofNat_toNat] at hmem
      exact hmem hc
    rw [List.all_eq_true]
    intro c hc
    rw [codePoints, String.toList_ofList] at hc
    obtain ⟨d, _, hc⟩ := List.mem_flatMap.mp hc
    rw [decide_eq_true_eq]
    rcases List.mem_append.mp hc with hc | hc
    · exact hchars c (toDigits_digits hc)
    · rw [List.mem_singleton.mp hc]
      decide

/-- Floats are printed with an exponent. -/
def exponentPlatform : Platform := { Platform.ascii with floatStr := fun m s => intText m ++ "e-" ++ intText s }

theorem isNumber_exponent (m : Int) (s : Nat) : IsNumber (exponentPlatform.floatStr m (s + 1)).toList := by
  have htext : (exponentPlatform.floatStr m (s + 1)).toList =
      (intText m).toList ++ ('e' :: '-' :: (intText (s + 1 : Nat)).toList) := by
    change (intText m ++ "e-" ++ intText (s + 1 : Nat)).toList = _
    rw [String.toList_append, String.toList_append, List.append_assoc]
    rfl
  obtain ⟨hchars, first, rest, hfirst, hstart⟩ := isNumber_intText m
  rw [htext]
  refine ⟨fun c hc => ?_, first, rest ++ ('e' :: '-' :: (intText (s + 1 : Nat)).toList), by rw [hfirst]; rfl, hstart⟩
  rcases List.mem_append.mp hc with hc | hc
  · exact hchars c hc
  · rcases List.mem_cons.mp hc with rfl | hc
    · decide
    · rcases List.mem_cons.mp hc with rfl | hc
      · decide
      · exact (isNumber_intText _).chars c hc

def keyImporter : Importer where
  toChunker := plainChunker
  importKey _ := ""
  entityScopeHash _ := ""
  redact text := text
  isoDatetime _ := none

def keyOptions : ImportOptions where
  toChunkOptions := defaultChunkOptions
  entities := [("user_id", " ann ")]
  infer := true
  redactSecrets := false
  skipDuplicates := true
  maxSplitDepth := 2
  batchId := "batch"
  importKeySchemaVersion := 2

def greetingChunk : MessageChunk := ⟨greeting, 14, [0, 1], [0, 1], 0, 0, none⟩

def greetingNamed (title : String) : Conversation := ⟨"c:1", title, greeting, none, none, "greeting.json", "chat", none⟩

theorem greetings_apart :
    messageChunkImportKey (keyImporter.hashed exponentPlatform plainDigest) keyOptions (greetingNamed "Hi") greetingChunk ≠
      messageChunkImportKey (keyImporter.hashed exponentPlatform plainDigest) keyOptions (greetingNamed "Hi:") greetingChunk ∧
    importVectorId exponentPlatform plainDigest codePoints .default keyOptions.entities "c:1" (plainDigest.digest "tea") ≠
      importVectorId exponentPlatform plainDigest codePoints .default keyOptions.entities "c" (plainDigest.digest "tea") := by
  obtain ⟨hkeys, hids⟩ := import_identities exponentPlatform isNumber_exponent keyImporter plainDigest plainDigest
    codePoints codePoints_injective codePoints_injective
  constructor
  · intro h
    exact absurd (hkeys _ _ _ _ _ _ rfl rfl h).conversationTitle (by decide)
  · intro h
    exact absurd (hids _ _ _ _ _ _ _ _ h).2.2.1 (by decide)

end YiQiao
