import YiQiao.Import.Expand
import YiQiao.Import.Keys

/-!
# The version of import keys

The snapshot of an old job does not say under which version its chunks are keyed. The version is read off the keys that
are persisted: it is the one under which some root of the job is among them. But they are not only the job's own: what
other jobs of the project have split is there too.
-/

namespace YiQiao

open Lib Lib.Fallible

/-! ## Snapshots -/

def legacyImportKeySchemaVersion : Nat := 1

def supportedImportKeySchemaVersions : List Nat := [legacyImportKeySchemaVersion, currentImportKeySchemaVersion]

structure OptionsSnapshot extends ChunkOptions where
  entities : List (String × String)
  infer : Bool
  redactSecrets : Bool
  skipDuplicates : Bool
  maxSplitDepth : Nat
  batchId : String
  importKeySchemaVersion : Option Nat

inductive VersionError where
  /-- `ValueError`: "Unsupported import-key schema version: .." -/
  | unsupported (version : Nat)
  /-- `RuntimeError`: "persisted chunk keys match both v1 and v2 deterministic root keys." -/
  | both
  /-- `RuntimeError`: "persisted chunk keys match neither v1 nor v2 deterministic root keys." -/
  | neither
  deriving DecidableEq, Repr

/-- `__post_init__`. -/
def ChunkOptions.clamped (options : ChunkOptions) : ChunkOptions :=
  let target := max 4000 (min options.chunkTargetTokens 6000)
  { options with
    chunkTargetTokens := target
    chunkMaxTokens := max target (min options.chunkMaxTokens 6000)
    chunkOverlapTurns := min options.chunkOverlapTurns 2 }

structure PersistedOptions extends ImportOptions where
  importKeySchemaVersionMissing : Bool

def ImportOptions.withVersion (options : ImportOptions) (version : Nat) : ImportOptions :=
  { options with importKeySchemaVersion := version }

def OptionsSnapshot.options (snapshot : OptionsSnapshot) (version : Nat) : ImportOptions where
  toChunkOptions := snapshot.toChunkOptions.clamped
  entities := snapshot.entities
  infer := snapshot.infer
  redactSecrets := snapshot.redactSecrets
  skipDuplicates := snapshot.skipDuplicates
  maxSplitDepth := snapshot.maxSplitDepth
  batchId := snapshot.batchId
  importKeySchemaVersion := version

/-- `from_persisted_snapshot`. -/
def fromPersistedSnapshot (snapshot : OptionsSnapshot) : Except VersionError PersistedOptions :=
  let version := snapshot.importKeySchemaVersion.getD currentImportKeySchemaVersion
  if version ∈ supportedImportKeySchemaVersions then
    .ok ⟨snapshot.options version, snapshot.importKeySchemaVersion.isNone⟩
  else .error (.unsupported version)

/-! ## Persisted keys -/

def Database.ownRows (projectId jobId : String) (db : Database) : List ChunkRow :=
  db.chunks.filter fun row => row.projectId = projectId && row.jobId = jobId

/-- The keys of `load_persisted_chunk_statuses`. -/
def persistedKeys (projectId jobId : String) (db : Database) : List String :=
  (db.manifests.map ManifestRow.importKey).filter (db.splitHistory projectId) ++
    (db.ownRows projectId jobId).map ChunkRow.importKey

theorem splitHistory_manifest {db : Database} {projectId key : String} (h : db.splitHistory projectId key = true) :
    key ∈ db.manifests.map ManifestRow.importKey := by
  obtain ⟨row, hrow, hsplit⟩ := List.any_eq_true.mp h
  simp [ManifestRow.isAt] at hsplit
  exact List.mem_map.mpr ⟨row, hrow, hsplit.1.2⟩

theorem mem_persistedKeys {db : Database} {projectId jobId key : String} : key ∈ persistedKeys projectId jobId db ↔
    db.splitHistory projectId key = true ∨ ∃ row ∈ db.ownRows projectId jobId, row.importKey = key := by
  rw [persistedKeys, List.mem_append, List.mem_filter]
  constructor
  · rintro (h | h)
    · exact .inl h.2
    · exact .inr (List.mem_map.mp h)
  · rintro (h | h)
    · exact .inl ⟨splitHistory_manifest h, h⟩
    · exact .inr (List.mem_map.mpr h)

/-- The keys are those that have a status. -/
theorem mem_persistedKeys_iff_status {db : Database} {projectId jobId key : String} :
    key ∈ persistedKeys projectId jobId db ↔ (loadPersistedChunkStatuses projectId jobId db key).isSome = true := by
  have hown : (∃ row ∈ db.ownRows projectId jobId, row.importKey = key) ↔
      (db.chunks.find? fun row => row.projectId = projectId && row.isAt jobId key).isSome = true := by
    simp [Database.ownRows, ChunkRow.isAt, and_assoc]
  rw [mem_persistedKeys, hown, loadPersistedChunkStatuses]
  cases db.chunks.find? fun row => row.projectId = projectId && row.isAt jobId key with
  | some row =>
    simp
    split
    · rfl
    · rfl
  | none => simp

/-! ## The inferred version -/

section

variable (I : Importer) (initial : List (Conversation × List MessageChunk))

/-- The keys of the chunks that a run starts from. -/
def rootKeys (options : ImportOptions) : List String :=
  initial.flatMap fun item => item.2.map (messageChunkImportKey I options item.1)

def matchingVersions (options : ImportOptions) (keys : List String) : List Nat :=
  supportedImportKeySchemaVersions.filter fun version =>
    (rootKeys I initial (options.withVersion version)).any (· ∈ keys)

/-- `resolve_missing_import_key_schema_version`: whether the options are changed, and what they are then. -/
def resolveMissingImportKeySchemaVersion (options : PersistedOptions) (keys : List String) :
    Except VersionError (Bool × PersistedOptions) :=
  let resolved := fun version => (true, PersistedOptions.mk (options.toImportOptions.withVersion version) false)
  if options.importKeySchemaVersionMissing then
    if keys.isEmpty then .ok (resolved currentImportKeySchemaVersion)
    else match matchingVersions I initial options.toImportOptions keys with
      | [] => .error .neither
      | [version] => .ok (resolved version)
      | _ => .error .both
  else .ok (false, options)

/-- The version that a job goes on with. -/
def resumedVersion (snapshot : OptionsSnapshot) (keys : List String) : Except VersionError Nat := do
  let options ← fromPersistedSnapshot snapshot
  let resolved ← resolveMissingImportKeySchemaVersion I initial options keys
  pure resolved.2.importKeySchemaVersion

/-- The key is one of a chunk under the version. -/
def KeyedUnder (version : Nat) (key : String) : Prop :=
  ∃ (options : ImportOptions) (conversation : Conversation) (chunk : MessageChunk),
    options.importKeySchemaVersion = version ∧ key = messageChunkImportKey I options conversation chunk

end

section

variable {I : Importer} {initial : List (Conversation × List MessageChunk)} {keys : List String}

theorem rootKeys_keyedUnder {options : ImportOptions} {key : String} (h : key ∈ rootKeys I initial options) :
    KeyedUnder I options.importKeySchemaVersion key := by
  obtain ⟨item, -, hkey⟩ := List.mem_flatMap.mp h
  obtain ⟨chunk, -, rfl⟩ := List.mem_map.mp hkey
  exact ⟨options, item.1, chunk, rfl, rfl⟩

theorem filter_eq_singleton {α : Type} {p : α → Bool} {x : α} {xs : List α} (hnodup : xs.Nodup) :
    xs.filter p = [x] ↔ x ∈ xs ∧ p x = true ∧ ∀ y ∈ xs, y ≠ x → p y = false := by
  constructor
  · intro h
    have hmem (y : α) : y ∈ xs ∧ p y = true ↔ y = x := by rw [← List.mem_filter, h, List.mem_singleton]
    obtain ⟨hx, hp⟩ := (hmem x).mpr rfl
    refine ⟨hx, hp, fun y hy hne => ?_⟩
    exact Bool.eq_false_iff.mpr fun htrue => hne ((hmem y).mp ⟨hy, htrue⟩)
  · rintro ⟨hx, hp, hothers⟩
    apply List.perm_singleton.mp
    rw [List.perm_ext_iff_of_nodup (hnodup.filter p) (List.nodup_singleton x)]
    intro y
    rw [List.mem_filter, List.mem_singleton]
    constructor
    · rintro ⟨hy, htrue⟩
      by_contra hne
      rw [hothers y hy hne] at htrue
      cases htrue
    · rintro rfl
      exact ⟨hx, hp⟩

theorem matchingVersions_eq {options : ImportOptions} {version : Nat} :
    matchingVersions I initial options keys = [version] ↔ version ∈ supportedImportKeySchemaVersions ∧
      (∃ key ∈ rootKeys I initial (options.withVersion version), key ∈ keys) ∧
      ∀ other ∈ supportedImportKeySchemaVersions, other ≠ version →
        ∀ key ∈ rootKeys I initial (options.withVersion other), key ∉ keys := by
  rw [matchingVersions, filter_eq_singleton (by decide)]
  simp

theorem resumedVersion_unversioned {snapshot : OptionsSnapshot} (hmissing : snapshot.importKeySchemaVersion = none) :
    resumedVersion I initial snapshot keys =
      if keys.isEmpty then .ok currentImportKeySchemaVersion
      else match matchingVersions I initial (snapshot.options currentImportKeySchemaVersion) keys with
        | [] => .error .neither
        | [version] => .ok version
        | _ => .error .both := by
  have hrestored : fromPersistedSnapshot snapshot =
      .ok ⟨snapshot.options currentImportKeySchemaVersion, true⟩ := by
    simp [fromPersistedSnapshot, hmissing, supportedImportKeySchemaVersions]
  rw [resumedVersion, hrestored]
  change (resolveMissingImportKeySchemaVersion I initial _ keys >>= _) = _
  rw [resolveMissingImportKeySchemaVersion, if_pos rfl]
  split
  · rfl
  · cases matchingVersions I initial (snapshot.options currentImportKeySchemaVersion) keys with
    | nil => rfl
    | cons version more => cases more with
      | nil => rfl
      | cons second more => rfl

theorem resumedVersion_eq {snapshot : OptionsSnapshot} (hmissing : snapshot.importKeySchemaVersion = none)
    {version : Nat} : resumedVersion I initial snapshot keys = .ok version ↔
      if keys = [] then version = currentImportKeySchemaVersion
      else matchingVersions I initial (snapshot.options currentImportKeySchemaVersion) keys = [version] := by
  rw [resumedVersion_unversioned hmissing]
  cases keys with
  | nil => simp [eq_comm]
  | cons key keys =>
    simp only [List.isEmpty_cons, Bool.false_eq_true, if_false, reduceCtorEq]
    split
    · simp_all
    · simp_all
    · rename_i hmany
      simp
      exact hmany version

theorem resumedVersion_neither {snapshot : OptionsSnapshot} (hmissing : snapshot.importKeySchemaVersion = none)
    (hkeys : keys ≠ []) (hroots : ∀ version ∈ supportedImportKeySchemaVersions,
      ∀ key ∈ rootKeys I initial (snapshot.options version), key ∉ keys) :
    resumedVersion I initial snapshot keys = .error .neither := by
  have hmatching : matchingVersions I initial (snapshot.options currentImportKeySchemaVersion) keys = [] := by
    rw [matchingVersions, List.filter_eq_nil_iff]
    intro version hversion hany
    obtain ⟨key, hkey, hin⟩ := List.any_eq_true.mp hany
    exact hroots version hversion key hkey (of_decide_eq_true hin)
  rw [resumedVersion_unversioned hmissing, hmatching]
  simp [hkeys]

end

/-! ## Keys of two versions -/

section

variable {P : Platform} {sha256 : HexDigest} {I : Importer} {key : String}

/-- A key under the current version is one of a scope, a key under the legacy version is not. -/
theorem KeyedUnder.entityScope {version : Nat} (h : KeyedUnder (I.hashed P sha256) version key) :
    ∃ material : KeyMaterial, key = stableHash P sha256 material.value ∧
      (material.entityScope.isSome = true ↔ version = currentImportKeySchemaVersion) := by
  obtain ⟨options, conversation, chunk, rfl, rfl⟩ := h
  refine ⟨keyMaterial options conversation chunk, rfl, ?_⟩
  rw [keyMaterial]
  split
  · simpa
  · simpa

theorem lookup_entityScope (material : KeyMaterial) (d : Entries) (h : material.value = .dict d) :
    d.lookup "entity_scope" = material.entityScope.map entityScopeValue := by
  cases h
  cases material.entityScope with
  | none => rfl
  | some scope => rfl

theorem entityScope_of_json {material material' : KeyMaterial}
    (h : material.value.json P = material'.value.json P) :
    material.entityScope.isSome = material'.entityScope.isSome := by
  have hfield := lookup_of_json (material_unique _ _ rfl) (material_unique _ _ rfl) h "entity_scope"
  rw [lookup_entityScope material _ rfl, lookup_entityScope material' _ rfl] at hfield
  simpa using congrArg Option.isSome hfield

theorem KeyedUnder.version_eq (hsha : Function.Injective sha256.digest)
    (hfloat : ∀ m s, IsNumber (P.floatStr m (s + 1)).toList) {version version' : Nat}
    (hversion : version ∈ supportedImportKeySchemaVersions) (hversion' : version' ∈ supportedImportKeySchemaVersions)
    (h : KeyedUnder (I.hashed P sha256) version key) (h' : KeyedUnder (I.hashed P sha256) version' key) :
    version = version' := by
  obtain ⟨material, rfl, hscope⟩ := h.entityScope
  obtain ⟨material', hkey, hscope'⟩ := h'.entityScope
  rw [entityScope_of_json (json_of_stableHash hsha hfloat hkey), hscope'] at hscope
  simp [supportedImportKeySchemaVersions, legacyImportKeySchemaVersion, currentImportKeySchemaVersion] at *
  omega

end

/-! ## The version of a job -/

/-- No root under another version is in the history of the project, and if anything is recorded, a root under this version
is. -/
structure VersionShown (I : Importer) (projectId jobId : String) (db : Database) (snapshot : OptionsSnapshot)
    (initial : List (Conversation × List MessageChunk)) (version : Nat) : Prop where
  others : ∀ other ∈ supportedImportKeySchemaVersions, other ≠ version →
    ∀ key ∈ rootKeys I initial (snapshot.options other), db.splitHistory projectId key = false
  root : (db.ownRows projectId jobId = [] ∧ ∀ key, db.splitHistory projectId key = false) ∨
    ∃ key ∈ rootKeys I initial (snapshot.options version),
      db.splitHistory projectId key = true ∨ ∃ row ∈ db.ownRows projectId jobId, row.importKey = key

theorem persistedKeys_eq_nil {db : Database} {projectId jobId : String} : persistedKeys projectId jobId db = [] ↔
    db.ownRows projectId jobId = [] ∧ ∀ key, db.splitHistory projectId key = false := by
  simp only [List.eq_nil_iff_forall_not_mem, mem_persistedKeys, not_or, not_exists, not_and, Bool.not_eq_true]
  constructor
  · intro h
    exact ⟨fun row hrow => (h row.importKey).2 row hrow rfl, fun key => (h key).1⟩
  · rintro ⟨hrows, hhistory⟩ key
    exact ⟨hhistory key, fun row hrow => absurd hrow (hrows row)⟩

/-- A job whose chunks are keyed under one version goes on with that version exactly when the tables show it. -/
theorem resumed_version_iff (P : Platform) (hfloat : ∀ m s, IsNumber (P.floatStr m (s + 1)).toList) (I : Importer)
    (sha256 : HexDigest) (hsha : Function.Injective sha256.digest) (projectId jobId : String) (db : Database)
    (snapshot : OptionsSnapshot) (hmissing : snapshot.importKeySchemaVersion = none)
    (initial : List (Conversation × List MessageChunk)) (version : Nat)
    (hversion : version ∈ supportedImportKeySchemaVersions)
    (hkeyed : ∀ row ∈ db.ownRows projectId jobId, KeyedUnder (I.hashed P sha256) version row.importKey)
    (hnew : db.ownRows projectId jobId = [] → version = currentImportKeySchemaVersion) :
    resumedVersion (I.hashed P sha256) initial snapshot (persistedKeys projectId jobId db) = .ok version ↔
      VersionShown (I.hashed P sha256) projectId jobId db snapshot initial version := by
  have hother (other : Nat) (hsupported : other ∈ supportedImportKeySchemaVersions) (hne : other ≠ version)
      (key : String) (hkey : key ∈ rootKeys (I.hashed P sha256) initial (snapshot.options other)) :
      key ∈ persistedKeys projectId jobId db ↔ db.splitHistory projectId key = true := by
    rw [mem_persistedKeys, or_iff_left]
    rintro ⟨row, hrow, rfl⟩
    exact hne ((rootKeys_keyedUnder hkey).version_eq hsha hfloat hsupported hversion (hkeyed row hrow))
  rw [resumedVersion_eq hmissing]
  split
  · rename_i hnone
    obtain ⟨hrows, hhistory⟩ := persistedKeys_eq_nil.mp hnone
    constructor
    · intro _
      exact ⟨fun _ _ _ key _ => hhistory key, .inl ⟨hrows, hhistory⟩⟩
    · intro _
      exact hnew hrows
  · rename_i hsome
    rw [matchingVersions_eq]
    constructor
    · rintro ⟨-, ⟨key, hkey, hpersisted⟩, hothers⟩
      refine ⟨fun other hsupported hne key hkey => ?_, .inr ⟨key, hkey, mem_persistedKeys.mp hpersisted⟩⟩
      exact Bool.eq_false_iff.mpr fun hsplit => hothers other hsupported hne key hkey
        ((hother other hsupported hne key hkey).mpr hsplit)
    · rintro ⟨hothers, hroot⟩
      obtain ⟨key, hkey, hpersisted⟩ := hroot.resolve_left fun h => hsome (persistedKeys_eq_nil.mpr h)
      refine ⟨hversion, ⟨key, hkey, mem_persistedKeys.mpr hpersisted⟩, fun other hsupported hne key hkey hin => ?_⟩
      have hsplit := (hother other hsupported hne key hkey).mp hin
      rw [hothers other hsupported hne key hkey] at hsplit
      cases hsplit

/-! ## A project with a split chunk -/

def legacyJob : OptionsSnapshot where
  toChunkOptions := defaultChunkOptions
  entities := [("user_id", "ann")]
  infer := true
  redactSecrets := false
  skipDuplicates := true
  maxSplitDepth := 2
  batchId := "batch"
  importKeySchemaVersion := none

def legacyInitial : List (Conversation × List MessageChunk) := [(greetingNamed "Hi", [greetingChunk])]

def greetingKey (title : String) (version : Nat) : String :=
  messageChunkImportKey (keyImporter.hashed exponentPlatform plainDigest) (legacyJob.options version)
    (greetingNamed title) greetingChunk

/-- Another job has split the chunk of the key. -/
def splitElsewhere (key : String) : Database where
  jobs := []
  chunks := []
  manifests := [⟨"m1", "project", key, some "other", none, .split, 1, [], none⟩]
  errors := []
  hashes := []
  graphItems := []

/-- The job itself has recorded the chunk of the key. -/
def recordedHere (key : String) : Database :=
  { splitElsewhere key with
    chunks := [⟨"c1", "job", "project", key, "c:1", .failed, 1, 0, none, 0, [], [], none, none⟩]
    manifests := [] }

/-- The tables of a job that has failed to store its only chunk. -/
theorem legacy_job_resumed :
    resumedVersion (keyImporter.hashed exponentPlatform plainDigest) legacyInitial legacyJob
        (persistedKeys "project" "job" (recordedHere (greetingKey "Hi" 1))) = .ok 1 ↔
      VersionShown (keyImporter.hashed exponentPlatform plainDigest) "project" "job"
        (recordedHere (greetingKey "Hi" 1)) legacyJob legacyInitial 1 := by
  apply resumed_version_iff exponentPlatform isNumber_exponent keyImporter plainDigest codePoints_injective
  · rfl
  · simp [supportedImportKeySchemaVersions, legacyImportKeySchemaVersion]
  · intro row hrow
    obtain rfl := List.mem_singleton.mp (List.mem_filter.mp hrow).1
    exact ⟨legacyJob.options 1, greetingNamed "Hi", greetingChunk, rfl, rfl⟩
  · intro hnone
    simp [Database.ownRows, recordedHere] at hnone

theorem persistedKeys_splitElsewhere (key : String) :
    persistedKeys "project" "job" (splitElsewhere key) = [key] := by
  simp [persistedKeys, splitElsewhere, Database.splitHistory, Database.ownRows, ManifestRow.isAt]

theorem rootKeys_legacyInitial (version : Nat) :
    rootKeys (keyImporter.hashed exponentPlatform plainDigest) legacyInitial (legacyJob.options version) =
      [greetingKey "Hi" version] := rfl

theorem greetingKey_version {title title' : String} {version version' : Nat}
    (hversion : version ∈ supportedImportKeySchemaVersions) (hversion' : version' ∈ supportedImportKeySchemaVersions)
    (h : greetingKey title version = greetingKey title' version') : version = version' := by
  have hkeyed : KeyedUnder (keyImporter.hashed exponentPlatform plainDigest) version (greetingKey title version) :=
    ⟨legacyJob.options version, greetingNamed title, greetingChunk, rfl, rfl⟩
  have hkeyed' : KeyedUnder (keyImporter.hashed exponentPlatform plainDigest) version' (greetingKey title version) :=
    ⟨legacyJob.options version', greetingNamed title', greetingChunk, rfl, h⟩
  exact hkeyed.version_eq codePoints_injective isNumber_exponent hversion hversion' hkeyed'

theorem greetingKey_title {title title' : String}
    (h : greetingKey title currentImportKeySchemaVersion = greetingKey title' currentImportKeySchemaVersion) :
    title = title' := by
  have hoptions : (legacyJob.options currentImportKeySchemaVersion).importKeySchemaVersion =
      currentImportKeySchemaVersion := rfl
  have hsame : SameMaterial exponentPlatform _ _ :=
    @sameMaterial_of_key _ plainDigest _ _ codePoints_injective isNumber_exponent _ _ _ _ hoptions hoptions h
  exact hsame.conversationTitle

/-- A new job is refused for what another one has split, and taken for an old one if that has split the same chunk. -/
theorem history_misleads :
    (splitElsewhere (greetingKey "Bye" 2)).ownRows "project" "job" = [] ∧
    resumedVersion (keyImporter.hashed exponentPlatform plainDigest) legacyInitial legacyJob
      (persistedKeys "project" "job" (splitElsewhere (greetingKey "Bye" 2))) = .error .neither ∧
    (splitElsewhere (greetingKey "Hi" 1)).ownRows "project" "job" = [] ∧
    resumedVersion (keyImporter.hashed exponentPlatform plainDigest) legacyInitial legacyJob
      (persistedKeys "project" "job" (splitElsewhere (greetingKey "Hi" 1))) = .ok legacyImportKeySchemaVersion := by
  have hlegacy : legacyImportKeySchemaVersion ∈ supportedImportKeySchemaVersions := by simp [supportedImportKeySchemaVersions]
  have hcurrent : currentImportKeySchemaVersion ∈ supportedImportKeySchemaVersions := by simp [supportedImportKeySchemaVersions]
  refine ⟨rfl, ?_, rfl, ?_⟩
  · apply resumedVersion_neither rfl
    · simp [persistedKeys_splitElsewhere]
    · intro version hversion key hkey hin
      rw [rootKeys_legacyInitial, List.mem_singleton] at hkey
      rw [persistedKeys_splitElsewhere, List.mem_singleton, hkey] at hin
      obtain rfl := greetingKey_version hversion hcurrent hin
      exact absurd (greetingKey_title hin) (by simp)
  · rw [resumedVersion_eq rfl, persistedKeys_splitElsewhere, if_neg (List.cons_ne_nil _ _), matchingVersions_eq]
    refine ⟨hlegacy, ⟨greetingKey "Hi" 1, List.mem_singleton_self _, List.mem_singleton_self _⟩, ?_⟩
    intro other hother hne key hkey hin
    change key ∈ rootKeys (keyImporter.hashed exponentPlatform plainDigest) legacyInitial (legacyJob.options other) at hkey
    rw [rootKeys_legacyInitial, List.mem_singleton] at hkey
    rw [List.mem_singleton, hkey] at hin
    exact hne (greetingKey_version hother hlegacy hin)

end YiQiao
