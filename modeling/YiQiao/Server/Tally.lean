import YiQiao.Lib.Groups
import YiQiao.Lib.TopK
import YiQiao.Server.Ownership

/-!
# What the members of a project count

The listing and the entity pages read the first rows of the whole collection and keep those of the project. Their
numbers are right while no row of another project takes one of these places.
-/

namespace YiQiao

open Lib Fallible

variable {V S : Type}

/-! ## The listing -/

/-- `_RESERVED_PAYLOAD_KEYS`. -/
def reservedPayloadKeys : List String :=
  ["data", "user_id", "agent_id", "app_id", "run_id", "hash", "project_id", "created_at", "updated_at",
    "expiration_date", "categories", "category"]

/-- What `_serialize_memory` answers. -/
structure ListedMemory where
  id : String
  memory : Value
  projectId : Value
  userId : Value
  agentId : Value
  appId : Value
  runId : Value
  hash : Value
  expirationDate : Value
  categories : List String
  metadata : Entries
  createdAt : Value
  updatedAt : Value

def serializeMemory (W : Writer V S) (row : Row V) : ListedMemory where
  id := row.id
  memory := Payload.get row.payload "data"
  projectId := (Payload.get row.payload "project_id").orElse (.str defaultProjectId)
  userId := Payload.get row.payload "user_id"
  agentId := Payload.get row.payload "agent_id"
  appId := Payload.get row.payload "app_id"
  runId := Payload.get row.payload "run_id"
  hash := Payload.get row.payload "hash"
  expirationDate := Payload.get row.payload "expiration_date"
  categories := categoriesOf W row.payload []
  metadata := row.payload.filter fun e => e.1 ∉ reservedPayloadKeys
  createdAt := Payload.get row.payload "created_at"
  updatedAt := Payload.get row.payload "updated_at"

/-- `_payload_project_id(payload) == project_id`. -/
def rowOf (P : Platform) (project : ProjectId) (row : Row V) : Bool := row.payload.projectId P == project.text

def listAllMemories (W : Writer V S) (t : Table V) (project : ProjectId) (limit : Nat) : List ListedMemory :=
  ((t.rows.take limit).filter (rowOf W.platform project)).map (serializeMemory W)

/-- `ALL_MEMORIES_LIMIT`. -/
def allMemoriesLimit : Nat := 1000

/-- `get_all_memories` without identifiers. -/
def getAllMemories (W : Writer V S) (t : Table V) (project : ProjectId) (topK : Option Nat) : List ListedMemory :=
  listAllMemories W t project (topK.getD allMemoriesLimit)

/-! ## The entities -/

inductive EntityType where
  | user
  | agent
  | app
  | run
  deriving DecidableEq, Repr

namespace EntityType

def name : EntityType → String
  | user => "user"
  | agent => "agent"
  | app => "app"
  | run => "run"

/-- `TYPE_TO_FIELD`. -/
def field : EntityType → String
  | user => "user_id"
  | agent => "agent_id"
  | app => "app_id"
  | run => "run_id"

def all : List EntityType := [user, agent, app, run]

theorem mem_all (type : EntityType) : type ∈ all := by
  cases type <;> simp [all]

end EntityType

/-- A `datetime`, with an offset or without. -/
structure Stamp where
  aware : Bool
  instant : Int
  deriving DecidableEq, Repr

namespace Stamp

/-- `self < other`. -/
def before (self other : Stamp) : Except PyError Bool :=
  if self.aware = other.aware then .ok (self.instant < other.instant) else .error .typeError

/-- The given stamp where none is kept, or where it is better than the kept one. -/
def pick (better : Stamp → Stamp → Except PyError Bool) : Option Stamp → Option Stamp →
    Except PyError (Option Stamp)
  | none, kept => .ok kept
  | some given, none => .ok (some given)
  | some given, some kept => do
      let yes ← better given kept
      .ok (some (if yes then given else kept))

/-- `if created and (created_at is None or created < created_at): created_at = created`. -/
def earliest : Option Stamp → Option Stamp → Except PyError (Option Stamp) :=
  pick fun created createdAt => created.before createdAt

/-- `if updated and (updated_at is None or updated > updated_at): updated_at = updated`. -/
def latest : Option Stamp → Option Stamp → Except PyError (Option Stamp) :=
  pick fun updated updatedAt => updatedAt.before updated

end Stamp

/-- The counters of an entity. -/
structure Bucket where
  totalMemories : Nat
  createdAt : Option Stamp
  updatedAt : Option Stamp

namespace Bucket

def empty : Bucket := ⟨0, none, none⟩

/-- One memory with its two stamps. -/
def add (b : Bucket) (stamps : Option Stamp × Option Stamp) : Except PyError Bucket := do
  let createdAt ← Stamp.earliest stamps.1 b.createdAt
  let updatedAt ← Stamp.latest stamps.2 b.updatedAt
  .ok ⟨b.totalMemories + 1, createdAt, updatedAt⟩

end Bucket

section

variable (P : Platform) (fromIsoformat : String → Option Stamp)

/-- `_parse_timestamp`. -/
def parseTimestamp (value : Value) : Option Stamp :=
  if value.truthy then
    fromIsoformat (String.ofList ((value.pyStr P).toList.flatMap fun c => if c = 'Z' then "+00:00".toList else [c]))
  else none

/-- `created` and `updated` of a payload. -/
def stampsOf (payload : Payload) : Option Stamp × Option Stamp :=
  let created := parseTimestamp P fromIsoformat (Payload.get payload "created_at")
  (created, (parseTimestamp P fromIsoformat (Payload.get payload "updated_at")).or created)

/-- `_iter_payloads`. -/
def iterPayloads (t : Table V) (project : ProjectId) : List Payload :=
  ((t.rows.take payloadScanLimit).map Row.payload).filter (entityOwns project)

/-- A row of `request_logs`. -/
structure RequestLog where
  authType : String
  operation : String
  projectId : Option String
  identifier : EntityType → Option String

/-- The requests about an entity in a project. -/
def totalRequests (logs : List RequestLog) (project : ProjectId) (type : EntityType) (id : String) : Nat :=
  logs.countP fun log =>
    ["api_key", "admin_api_key"].contains log.authType &&
      ["memory_write", "memory_search", "memory_read"].contains log.operation &&
      (log.projectId == some project.text || (project.text == defaultProjectId && log.projectId == none)) &&
      log.identifier type == some id

structure Entity where
  id : String
  type : EntityType
  totalMemories : Nat
  createdAt : Option Stamp
  updatedAt : Option Stamp

inductive EntityError where
  /-- uncaught: 500 -/
  | raised (e : PyError)
  /-- 404, "Entity not found." -/
  | notFound
  deriving DecidableEq, Repr

structure EntityDetail extends Entity where
  totalRequests : Nat

/-- A turn of the loop of `get_entity`. -/
def countPayload (type : EntityType) (id : String) (b : Bucket) (payload : Payload) : Except PyError Bucket :=
  if textOrEmpty P (Payload.get payload type.field) ≠ id then .ok b else b.add (stampsOf P fromIsoformat payload)

def getEntity (logs : List RequestLog) (t : Table V) (project : ProjectId) (type : EntityType) (id : String) :
    Except EntityError EntityDetail :=
  match (iterPayloads t project).foldlM (countPayload P fromIsoformat type id) Bucket.empty with
  | .error e => .error (.raised e)
  | .ok b =>
      let requests := totalRequests logs project type id
      if b.totalMemories = 0 ∧ requests = 0 then .error .notFound
      else .ok ⟨⟨id, type, b.totalMemories, b.createdAt, b.updatedAt⟩, requests⟩

/-- The buckets a payload counts in. -/
def identifiers (payload : Payload) : List ((EntityType × String) × Option Stamp × Option Stamp) :=
  EntityType.all.filterMap fun type =>
    let value := Payload.get payload type.field
    if value.truthy then some ((type, value.pyStr P), stampsOf P fromIsoformat payload) else none

/-- The order of the keys. -/
def entityBefore (a b : (EntityType × String) × Bucket) : Prop :=
  a.1.1.name < b.1.1.name ∨ a.1.1.name = b.1.1.name ∧ a.1.2 ≤ b.1.2

instance : DecidableRel entityBefore := fun a b =>
  inferInstanceAs (Decidable (a.1.1.name < b.1.1.name ∨ a.1.1.name = b.1.1.name ∧ a.1.2 ≤ b.1.2))

def listEntities (t : Table V) (project : ProjectId) : Except PyError (List Entity) := do
  let buckets ← (iterPayloads t project).foldlM
    (fun buckets payload => (identifiers P fromIsoformat payload).foldlM (addTo Bucket.add Bucket.empty) buckets) []
  .ok ((ranked entityBefore buckets).map fun e => ⟨e.1.2, e.1.1, e.2.totalMemories, e.2.createdAt, e.2.updatedAt⟩)

end

/-! ## Exact numbers -/

section

variable (P : Platform) (t : Table V) (project : ProjectId)

/-- The rows of the project. -/
def Table.projectRows : List (Row V) := t.rows.filter (rowOf P project)

/-- The payload carries the identifier. -/
def carries (type : EntityType) (id : String) (payload : Payload) : Bool :=
  (Payload.get payload type.field).truthy && (Payload.get payload type.field).pyStr P == id

/-- The project's memories with the identifier. -/
def Table.carriers (type : EntityType) (id : String) : List (Row V) :=
  (t.projectRows P project).filter fun row => carries P type id row.payload

/-- Each identifier of the project's memories is listed once, with their number. -/
structure ListedExactly (entities : List Entity) : Prop where
  once : (entities.map fun e => (e.type, e.id)).Nodup
  exact : ∀ type id n, (∃ e ∈ entities, e.type = type ∧ e.id = id ∧ e.totalMemories = n) ↔
    0 < n ∧ n = (t.carriers P project type id).length

/-- The answer has the number of the project's memories, and is 404 only where there are none. -/
def CountedExactly (type : EntityType) (id : String) : Except EntityError EntityDetail → Prop
  | .ok detail => detail.totalMemories = (t.carriers P project type id).length
  | .error e => e = .notFound ∧ t.carriers P project type id = []

end

/-- What the members of a project see of it is all there is. A path has no empty identifier. -/
structure Tallied (W : Writer V S) (fromIsoformat : String → Option Stamp) (logs : List RequestLog) (t : Table V)
    (project : ProjectId) (topK : Option Nat) : Prop where
  listing : ∃ chosen : List (Row V), chosen.Sublist (t.projectRows W.platform project) ∧
    chosen.length = min (topK.getD allMemoriesLimit) (t.projectRows W.platform project).length ∧
    getAllMemories W t project topK = chosen.map (serializeMemory W)
  entities : ∃ entities, listEntities W.platform fromIsoformat t project = .ok entities ∧
    ListedExactly W.platform t project entities
  detail : ∀ type id, id ≠ "" →
    CountedExactly W.platform t project type id (getEntity W.platform fromIsoformat logs t project type id)

/-- All the stamps have an offset, or none has. -/
def Uniform (stamps : List Stamp) : Prop := ∀ a ∈ stamps, ∀ b ∈ stamps, a.aware = b.aware

/-- The rows of other projects leave the project's rows their places, and the stamps of an identifier compare. -/
structure Countable (W : Writer V S) (fromIsoformat : String → Option Stamp) (t : Table V) (project : ProjectId)
    (topK : Option Nat) : Prop where
  listed : Unobstructed (rowOf W.platform project) (topK.getD allMemoriesLimit) t.rows
  scanned : ∀ type id, ∀ row ∈ t.carriers W.platform project type id,
    row ∈ t.rows.take payloadScanLimit ∧ entityOwns project row.payload = true
  created : ∀ type id, Uniform ((t.carriers W.platform project type id).filterMap fun row =>
    (stampsOf W.platform fromIsoformat row.payload).1)
  updated : ∀ type id, Uniform ((t.carriers W.platform project type id).filterMap fun row =>
    (stampsOf W.platform fromIsoformat row.payload).2)

/-! ## Stamps -/

section

variable {better : Stamp → Stamp → Except PyError Bool} {given kept r : Option Stamp}

/-- The kinds of stamps in a list. -/
def kinds (stamps : List Stamp) : List Bool := stamps.map Stamp.aware

theorem uniform_iff_kinds {stamps : List Stamp} :
    Uniform stamps ↔ ∀ a ∈ kinds stamps, ∀ b ∈ kinds stamps, a = b := by
  simp [Uniform, kinds]

theorem uniform_congr {l l' : List Stamp} (h : ∀ kind, kind ∈ kinds l ↔ kind ∈ kinds l') :
    Uniform l ↔ Uniform l' := by
  simp only [uniform_iff_kinds, h]

theorem uniform_pair {a b : Stamp} : Uniform [a, b] ↔ b.aware = a.aware := by
  constructor
  · intro h
    exact h b (by simp) a (by simp)
  · intro h
    simp [Uniform, h]

theorem Stamp.before_total {a b : Stamp} : (∃ less, a.before b = .ok less) ↔ a.aware = b.aware := by
  rw [Stamp.before]
  split <;> simp_all

theorem Stamp.pick_total (h : ∀ a b, (∃ yes, better a b = .ok yes) ↔ a.aware = b.aware) :
    (∃ r, pick better given kept = .ok r) ↔ Uniform (kept.toList ++ given.toList) := by
  cases given with
  | none => cases kept <;> simp [pick, Uniform]
  | some given => cases kept with
    | none => simp [pick, Uniform]
    | some kept =>
        have hsame : Uniform ((some kept).toList ++ (some given).toList) ↔ given.aware = kept.aware := uniform_pair
        rw [hsame, ← h, pick]
        simp only [bind_ok]
        constructor
        · rintro ⟨_, yes, hyes, _⟩
          exact ⟨yes, hyes⟩
        · rintro ⟨yes, hyes⟩
          exact ⟨_, yes, hyes, rfl⟩

theorem Stamp.kinds_pick (h : ∀ a b, (∃ yes, better a b = .ok yes) ↔ a.aware = b.aware)
    (hr : pick better given kept = .ok r) (kind : Bool) :
    kind ∈ kinds r.toList ↔ kind ∈ kinds (kept.toList ++ given.toList) := by
  cases given with
  | none =>
      cases hr
      simp
  | some given => cases kept with
    | none =>
        cases hr
        simp
    | some kept =>
        simp only [pick, bind_ok] at hr
        obtain ⟨yes, hyes, hr⟩ := hr
        cases hr
        have hsame := (h given kept).mp ⟨yes, hyes⟩
        cases yes <;> simp [kinds, hsame]

end

/-- The bucket after one more memory. -/
theorem Bucket.add_ok {b b' : Bucket} {stamps : Option Stamp × Option Stamp} (h : b.add stamps = .ok b') :
    b'.totalMemories = b.totalMemories + 1 ∧
      (∀ kind, kind ∈ kinds b'.createdAt.toList ↔ kind ∈ kinds (b.createdAt.toList ++ stamps.1.toList)) ∧
      ∀ kind, kind ∈ kinds b'.updatedAt.toList ↔ kind ∈ kinds (b.updatedAt.toList ++ stamps.2.toList) := by
  simp only [Bucket.add, bind_ok] at h
  obtain ⟨createdAt, hcreated, updatedAt, hupdated, hb⟩ := h
  cases hb
  refine ⟨rfl, Stamp.kinds_pick (fun _ _ => Stamp.before_total) hcreated, ?_⟩
  exact Stamp.kinds_pick (fun _ _ => Stamp.before_total.trans eq_comm) hupdated

theorem Bucket.add_total {b : Bucket} {stamps : Option Stamp × Option Stamp} : (∃ b', b.add stamps = .ok b') ↔
    Uniform (b.createdAt.toList ++ stamps.1.toList) ∧ Uniform (b.updatedAt.toList ++ stamps.2.toList) := by
  rw [← @Stamp.pick_total (fun created createdAt => created.before createdAt) _ _ fun _ _ => Stamp.before_total,
    ← @Stamp.pick_total (fun updated updatedAt => updatedAt.before updated) _ _
      fun _ _ => Stamp.before_total.trans eq_comm]
  simp only [Bucket.add, bind_ok]
  constructor
  · rintro ⟨_, createdAt, hcreated, updatedAt, hupdated, _⟩
    exact ⟨⟨createdAt, hcreated⟩, updatedAt, hupdated⟩
  · rintro ⟨⟨createdAt, hcreated⟩, updatedAt, hupdated⟩
    exact ⟨_, createdAt, hcreated, updatedAt, hupdated, rfl⟩

theorem uniform_append_left {l l' : List Stamp} (h : Uniform (l ++ l')) : Uniform l :=
  fun a ha b hb => h a (List.mem_append_left _ ha) b (List.mem_append_left _ hb)

/-- A bucket counts its memories. -/
theorem totalMemories_foldlM {stamps : List (Option Stamp × Option Stamp)} {b b' : Bucket}
    (h : stamps.foldlM Bucket.add b = .ok b') : b'.totalMemories = b.totalMemories + stamps.length := by
  induction stamps generalizing b with
  | nil =>
      rw [List.foldlM_nil, pure_ok] at h
      simp [h]
  | cons s stamps ih =>
      rw [List.foldlM_cons, bind_ok] at h
      obtain ⟨next, hadd, hrest⟩ := h
      rw [ih hrest, (Bucket.add_ok hadd).1, List.length_cons]
      omega

/-- It can be filled exactly when its stamps compare. -/
theorem foldlM_add_total {stamps : List (Option Stamp × Option Stamp)} {b : Bucket}
    (hcreated : Uniform b.createdAt.toList) (hupdated : Uniform b.updatedAt.toList) :
    (∃ b', stamps.foldlM Bucket.add b = .ok b') ↔
      Uniform (b.createdAt.toList ++ stamps.filterMap Prod.fst) ∧
      Uniform (b.updatedAt.toList ++ stamps.filterMap Prod.snd) := by
  induction stamps generalizing b with
  | nil => simp [hcreated, hupdated, pure, Except.pure]
  | cons s stamps ih =>
      have hfst : (s :: stamps).filterMap Prod.fst = s.1.toList ++ stamps.filterMap Prod.fst := by
        cases h : s.1 <;> simp [h]
      have hsnd : (s :: stamps).filterMap Prod.snd = s.2.toList ++ stamps.filterMap Prod.snd := by
        cases h : s.2 <;> simp [h]
      simp only [hfst, hsnd, ← List.append_assoc, List.foldlM_cons, bind_ok]
      have hnext : ∀ next, b.add s = .ok next → ((∃ b', stamps.foldlM Bucket.add next = .ok b') ↔
          Uniform (b.createdAt.toList ++ s.1.toList ++ stamps.filterMap Prod.fst) ∧
          Uniform (b.updatedAt.toList ++ s.2.toList ++ stamps.filterMap Prod.snd)) := by
        intro next hadd
        obtain ⟨hleft, hright⟩ := Bucket.add_total.mp ⟨next, hadd⟩
        obtain ⟨_, hkinds, hkinds'⟩ := Bucket.add_ok hadd
        rw [ih ((uniform_congr hkinds).mpr hleft) ((uniform_congr hkinds').mpr hright)]
        refine and_congr (uniform_congr fun kind => ?_) (uniform_congr fun kind => ?_)
        · have := hkinds kind
          simp only [kinds, List.map_append, List.mem_append] at this ⊢
          rw [this]
        · have := hkinds' kind
          simp only [kinds, List.map_append, List.mem_append] at this ⊢
          rw [this]
      constructor
      · rintro ⟨b', next, hadd, hrest⟩
        exact (hnext next hadd).mp ⟨b', hrest⟩
      · intro h
        obtain ⟨next, hadd⟩ := Bucket.add_total.mpr ⟨uniform_append_left h.1, uniform_append_left h.2⟩
        obtain ⟨b', hrest⟩ := (hnext next hadd).mpr h
        exact ⟨b', next, hadd, hrest⟩

/-! ## The rows that are read -/

section

variable {P : Platform} {fromIsoformat : String → Option Stamp} {t : Table V} {project : ProjectId}
  {type : EntityType} {id : String}

/-- The rows that the entity pages count for an identifier. -/
def Table.scannedRows (P : Platform) (t : Table V) (project : ProjectId) (type : EntityType) (id : String) :
    List (Row V) :=
  ((t.rows.take payloadScanLimit).filter fun row => entityOwns project row.payload).filter
    fun row => carries P type id row.payload

theorem mem_carriers {row : Row V} : row ∈ t.carriers P project type id ↔
    row ∈ t.rows ∧ rowOf P project row = true ∧ carries P type id row.payload = true := by
  simp only [Table.carriers, Table.projectRows, List.mem_filter, and_assoc]

theorem mem_scannedRows {row : Row V} : row ∈ t.scannedRows P project type id ↔
    row ∈ t.rows.take payloadScanLimit ∧ entityOwns project row.payload = true ∧
      carries P type id row.payload = true := by
  simp only [Table.scannedRows, List.mem_filter, and_assoc]

theorem scannedRows_sublist : (t.scannedRows P project type id).Sublist (t.carriers P project type id) := by
  have howned : ∀ row : Row V, entityOwns project row.payload = true → rowOf P project row = true := by
    intro row h
    simpa [rowOf] using projectId_of_entityOwns h
  refine List.Sublist.filter _ ?_
  refine (List.monotone_filter_right _ howned).trans ?_
  exact (List.take_sublist _ _).filter _

/-- All the carriers are scanned, or the number is too small. -/
theorem length_scannedRows : (t.scannedRows P project type id).length = (t.carriers P project type id).length ↔
    ∀ row ∈ t.carriers P project type id, row ∈ t.rows.take payloadScanLimit ∧
      entityOwns project row.payload = true := by
  constructor
  · intro h row hrow
    rw [← scannedRows_sublist.eq_of_length h] at hrow
    have hmem := mem_scannedRows.mp hrow
    exact ⟨hmem.1, hmem.2.1⟩
  · intro h
    have hnodup : (t.carriers P project type id).Nodup :=
      ((List.Nodup.of_map _ t.unique).filter _).filter _
    have hsub : t.carriers P project type id ⊆ t.scannedRows P project type id := by
      intro row hrow
      obtain ⟨hread, howned⟩ := h row hrow
      exact mem_scannedRows.mpr ⟨hread, howned, (mem_carriers.mp hrow).2.2⟩
    exact Nat.le_antisymm scannedRows_sublist.length_le (List.subperm_of_subset hnodup hsub).length_le

theorem iterPayloads_filter : (iterPayloads t project).filter (carries P type id) =
    (t.scannedRows P project type id).map Row.payload := by
  rw [iterPayloads, Table.scannedRows, List.filter_map, List.filter_map]
  rfl

/-- The stamps that a page compares for an identifier. -/
def scannedStamps (P : Platform) (fromIsoformat : String → Option Stamp) (t : Table V) (project : ProjectId)
    (type : EntityType) (id : String) : List (Option Stamp × Option Stamp) :=
  ((iterPayloads t project).filter (carries P type id)).map (stampsOf P fromIsoformat)

theorem length_scannedStamps : (scannedStamps P fromIsoformat t project type id).length =
    (t.scannedRows P project type id).length := by
  rw [scannedStamps, iterPayloads_filter, List.length_map, List.length_map]

/-! ## The pages -/

theorem carries_iff (hid : id ≠ "") {payload : Payload} :
    carries P type id payload = true ↔ textOrEmpty P (Payload.get payload type.field) = id := by
  rw [carries, textOrEmpty]
  cases (Payload.get payload type.field).truthy with
  | true => simp
  | false => simpa using hid.symm

theorem foldlM_countPayload (hid : id ≠ "") {payloads : List Payload} {b : Bucket} :
    payloads.foldlM (countPayload P fromIsoformat type id) b =
      ((payloads.filter (carries P type id)).map (stampsOf P fromIsoformat)).foldlM Bucket.add b := by
  induction payloads generalizing b with
  | nil => rfl
  | cons payload payloads ih =>
      rw [List.foldlM_cons, countPayload]
      by_cases hcarries : carries P type id payload = true
      · rw [List.filter_cons_of_pos hcarries, List.map_cons, List.foldlM_cons,
          if_neg (not_not.mpr ((carries_iff hid).mp hcarries))]
        simp only [ih]
      · rw [List.filter_cons_of_neg hcarries, if_pos fun h => hcarries ((carries_iff hid).mpr h)]
        exact ih

theorem ofKey_identifiers {payload : Payload} : ofKey (type, id) (identifiers P fromIsoformat payload) =
    if carries P type id payload then [stampsOf P fromIsoformat payload] else [] := by
  have hkey : ∀ types : List EntityType, types.Nodup → ofKey (type, id) (types.filterMap fun type =>
      let value := Payload.get payload type.field
      if value.truthy then some ((type, value.pyStr P), stampsOf P fromIsoformat payload) else none) =
      if type ∈ types ∧ carries P type id payload = true then [stampsOf P fromIsoformat payload] else [] := by
    intro types htypes
    induction types with
    | nil => simp [ofKey]
    | cons type' types ih =>
        obtain ⟨hnot, htypes⟩ := List.nodup_cons.mp htypes
        have hrest := ih htypes
        cases htruthy : (Payload.get payload type'.field).truthy with
        | false =>
            simp only [List.filterMap_cons, htruthy, Bool.false_eq_true, if_false, hrest, List.mem_cons]
            refine if_congr ?_ rfl rfl
            constructor
            · rintro ⟨hmem, hcarries⟩
              exact ⟨.inr hmem, hcarries⟩
            · rintro ⟨rfl | hmem, hcarries⟩
              · simp [carries, htruthy] at hcarries
              · exact ⟨hmem, hcarries⟩
        | true =>
            simp only [List.filterMap_cons, htruthy, if_true]
            by_cases hsame : (type', (Payload.get payload type'.field).pyStr P) = (type, id)
            · obtain ⟨rfl, rfl⟩ := Prod.mk.inj hsame
              rw [ofKey_cons_self, hrest]
              simp [hnot, carries, htruthy]
            · rw [ofKey_cons_of_ne hsame, hrest]
              refine if_congr ?_ rfl rfl
              constructor
              · rintro ⟨hmem, hcarries⟩
                exact ⟨List.mem_cons_of_mem _ hmem, hcarries⟩
              · rintro ⟨hmem, hcarries⟩
                refine ⟨(List.mem_cons.mp hmem).resolve_left fun h => hsame ?_, hcarries⟩
                subst h
                simp only [carries, Bool.and_eq_true, beq_iff_eq] at hcarries
                rw [hcarries.2]
  rw [identifiers, hkey EntityType.all (by decide)]
  simp [EntityType.mem_all]

/-- The events of all the payloads for one identifier. -/
theorem ofKey_flatMap {payloads : List Payload} :
    ofKey (type, id) (payloads.flatMap (identifiers P fromIsoformat)) =
      (payloads.filter (carries P type id)).map (stampsOf P fromIsoformat) := by
  induction payloads with
  | nil => rfl
  | cons payload payloads ih =>
      rw [List.flatMap_cons, ofKey_append, ofKey_identifiers, ih]
      by_cases hcarries : carries P type id payload = true
      · simp [hcarries]
      · simp [hcarries]

/-- The buckets of the entity list. -/
def entityBuckets (P : Platform) (fromIsoformat : String → Option Stamp) (t : Table V) (project : ProjectId) :
    Except PyError (List ((EntityType × String) × Bucket)) :=
  ((iterPayloads t project).flatMap (identifiers P fromIsoformat)).foldlM (addTo Bucket.add Bucket.empty) []

theorem listEntities_ok {entities : List Entity} : listEntities P fromIsoformat t project = .ok entities ↔
    ∃ buckets, entityBuckets P fromIsoformat t project = .ok buckets ∧
      (ranked entityBefore buckets).map
        (fun e => ⟨e.1.2, e.1.1, e.2.totalMemories, e.2.createdAt, e.2.updatedAt⟩) = entities := by
  rw [listEntities, entityBuckets, foldlM_flatMap]
  simp

/-- The list is answered exactly when the stamps of every identifier compare. -/
theorem entityBuckets_total : (∃ buckets, entityBuckets P fromIsoformat t project = .ok buckets) ↔
    ∀ type id, Uniform ((scannedStamps P fromIsoformat t project type id).filterMap Prod.fst) ∧
      Uniform ((scannedStamps P fromIsoformat t project type id).filterMap Prod.snd) := by
  rw [entityBuckets, groups_total, Prod.forall]
  refine forall_congr' fun type => forall_congr' fun id => ?_
  rw [ofKey_flatMap]
  exact @foldlM_add_total _ Bucket.empty (by simp [Uniform, Bucket.empty]) (by simp [Uniform, Bucket.empty])

/-- An identifier is listed with the number of the scanned rows that carry it. -/
theorem listed_iff {buckets : List ((EntityType × String) × Bucket)}
    (h : entityBuckets P fromIsoformat t project = .ok buckets) (n : Nat) :
    (∃ b, ((type, id), b) ∈ buckets ∧ b.totalMemories = n) ↔
      0 < n ∧ n = (t.scannedRows P project type id).length := by
  have htotal : ∀ b, (scannedStamps P fromIsoformat t project type id).foldlM Bucket.add Bucket.empty = .ok b →
      b.totalMemories = (t.scannedRows P project type id).length := by
    intro b hb
    rw [totalMemories_foldlM hb, length_scannedStamps]
    exact Nat.zero_add _
  have hempty : scannedStamps P fromIsoformat t project type id ≠ [] ↔
      0 < (t.scannedRows P project type id).length := by
    rw [← @length_scannedStamps V P fromIsoformat, List.length_pos_iff]
  constructor
  · rintro ⟨b, hmem, rfl⟩
    rw [mem_groups h, ofKey_flatMap] at hmem
    have hb := htotal b hmem.2
    exact ⟨hb ▸ hempty.mp hmem.1, hb⟩
  · rintro ⟨hpos, rfl⟩
    obtain ⟨b, hb⟩ := groups_total.mp ⟨buckets, h⟩ (type, id)
    refine ⟨b, (mem_groups h).mpr ⟨?_, hb⟩, ?_⟩
    · rw [ofKey_flatMap]
      exact hempty.mpr hpos
    · rw [ofKey_flatMap] at hb
      exact htotal b hb

/-- An entity page answers with the exact number exactly when the stamps compare and all the carriers are scanned. -/
theorem countedExactly_iff (hid : id ≠ "") (logs : List RequestLog) :
    CountedExactly P t project type id (getEntity P fromIsoformat logs t project type id) ↔
      (Uniform ((scannedStamps P fromIsoformat t project type id).filterMap Prod.fst) ∧
        Uniform ((scannedStamps P fromIsoformat t project type id).filterMap Prod.snd)) ∧
      (t.scannedRows P project type id).length = (t.carriers P project type id).length := by
  have hfold := @foldlM_add_total (scannedStamps P fromIsoformat t project type id) Bucket.empty
    (by simp [Uniform, Bucket.empty]) (by simp [Uniform, Bucket.empty])
  rw [show Bucket.empty.createdAt.toList = [] from rfl, show Bucket.empty.updatedAt.toList = [] from rfl,
    List.nil_append, List.nil_append] at hfold
  rw [← hfold, getEntity, foldlM_countPayload hid, ← scannedStamps]
  cases hb : (scannedStamps P fromIsoformat t project type id).foldlM Bucket.add Bucket.empty with
  | error e => simp [CountedExactly]
  | ok b =>
      have htotal : b.totalMemories = (t.scannedRows P project type id).length := by
        rw [totalMemories_foldlM hb, length_scannedStamps]
        exact Nat.zero_add _
      rw [← htotal, and_iff_right ⟨b, rfl⟩]
      dsimp only
      split
      · rename_i hnone
        rw [CountedExactly, hnone.1, @eq_comm Nat 0, List.length_eq_zero_iff, and_iff_right rfl]
      · exact Iff.rfl

theorem listedExactly_iff {buckets : List ((EntityType × String) × Bucket)}
    (h : entityBuckets P fromIsoformat t project = .ok buckets) :
    ListedExactly P t project ((ranked entityBefore buckets).map fun e =>
      ⟨e.1.2, e.1.1, e.2.totalMemories, e.2.createdAt, e.2.updatedAt⟩) ↔
      ∀ type id, (t.scannedRows P project type id).length = (t.carriers P project type id).length := by
  have hmem : ∀ type id n, (∃ e ∈ (ranked entityBefore buckets).map fun e : (EntityType × String) × Bucket =>
      (⟨e.1.2, e.1.1, e.2.totalMemories, e.2.createdAt, e.2.updatedAt⟩ : Entity),
      e.type = type ∧ e.id = id ∧ e.totalMemories = n) ↔
      0 < n ∧ n = (t.scannedRows P project type id).length := by
    intro type id n
    rw [← listed_iff h]
    constructor
    · rintro ⟨e, he, rfl, rfl, rfl⟩
      obtain ⟨⟨⟨type, id⟩, b⟩, hb, rfl⟩ := List.mem_map.mp he
      exact ⟨b, mem_ranked.mp hb, rfl⟩
    · rintro ⟨b, hb, rfl⟩
      exact ⟨_, List.mem_map_of_mem (mem_ranked.mpr hb), rfl, rfl, rfl⟩
  constructor
  · intro hexact type id
    have hn := hexact.exact type id
    simp only [hmem] at hn
    rcases Nat.eq_zero_or_pos (t.carriers P project type id).length with hzero | hpos
    · by_contra hne
      have hscanned := (hn (t.scannedRows P project type id).length).mp ⟨by omega, rfl⟩
      exact hne hscanned.2
    · exact ((hn _).mpr ⟨hpos, rfl⟩).2.symm
  · intro hsame
    refine ⟨?_, fun type id n => by rw [hmem, hsame]⟩
    rw [List.map_map]
    exact ((ranked_perm buckets).map Prod.fst).nodup_iff.mpr (groups_unique h)

theorem filterMap_scannedStamps
    (h : (t.scannedRows P project type id).length = (t.carriers P project type id).length)
    (f : Option Stamp × Option Stamp → Option Stamp) :
    (scannedStamps P fromIsoformat t project type id).filterMap f =
      (t.carriers P project type id).filterMap fun row => f (stampsOf P fromIsoformat row.payload) := by
  rw [scannedStamps, iterPayloads_filter, scannedRows_sublist.eq_of_length h, List.map_map, List.filterMap_map]
  rfl

end

/-! ## When the numbers are right -/

section

variable {W : Writer V S} {fromIsoformat : String → Option Stamp} {logs : List RequestLog} {t : Table V}
  {project : ProjectId} {topK : Option Nat}

theorem listing_iff : (∃ chosen : List (Row V), chosen.Sublist (t.projectRows W.platform project) ∧
    chosen.length = min (topK.getD allMemoriesLimit) (t.projectRows W.platform project).length ∧
    getAllMemories W t project topK = chosen.map (serializeMemory W)) ↔
      Unobstructed (rowOf W.platform project) (topK.getD allMemoriesLimit) t.rows := by
  rw [← length_filter_take_iff]
  constructor
  · rintro ⟨chosen, _, hlength, hlisted⟩
    have hsame := congrArg List.length hlisted
    rw [List.length_map, hlength, getAllMemories, listAllMemories, List.length_map] at hsame
    exact hsame
  · intro h
    exact ⟨_, (List.take_sublist _ _).filter _, h, rfl⟩

/-- The members of a project see all of it exactly when the rows of other projects leave its rows their places. -/
theorem tallied_iff : Tallied W fromIsoformat logs t project topK ↔ Countable W fromIsoformat t project topK := by
  constructor
  · intro h
    obtain ⟨entities, hentities, hexact⟩ := h.entities
    obtain ⟨buckets, hbuckets, rfl⟩ := listEntities_ok.mp hentities
    have hlength := (listedExactly_iff hbuckets).mp hexact
    have huniform := entityBuckets_total.mp ⟨buckets, hbuckets⟩
    refine ⟨listing_iff.mp h.listing, fun type id => length_scannedRows.mp (hlength type id), ?_, ?_⟩
    · intro type id
      rw [← filterMap_scannedStamps (hlength type id) Prod.fst]
      exact (huniform type id).1
    · intro type id
      rw [← filterMap_scannedStamps (hlength type id) Prod.snd]
      exact (huniform type id).2
  · intro h
    have hlength := fun type id => length_scannedRows.mpr (h.scanned type id)
    have huniform : ∀ type id,
        Uniform ((scannedStamps W.platform fromIsoformat t project type id).filterMap Prod.fst) ∧
        Uniform ((scannedStamps W.platform fromIsoformat t project type id).filterMap Prod.snd) := by
      intro type id
      rw [filterMap_scannedStamps (hlength type id), filterMap_scannedStamps (hlength type id)]
      exact ⟨h.created type id, h.updated type id⟩
    obtain ⟨buckets, hbuckets⟩ := entityBuckets_total.mpr huniform
    constructor
    · exact listing_iff.mpr h.listed
    · exact ⟨_, listEntities_ok.mpr ⟨buckets, hbuckets, rfl⟩, (listedExactly_iff hbuckets).mpr hlength⟩
    · intro type id hid
      exact (countedExactly_iff hid logs).mpr ⟨huniform type id, hlength type id⟩

end

/-- A memory of another project stands before the one of the default project. -/
def crowdedTable : Table Unit :=
  ⟨[⟨"m", none, [("project_id", .str "other")]⟩, ⟨"n", none, [("project_id", .str defaultProjectId)]⟩],
    by decide, by decide⟩

theorem crowded_listing_empty : ¬ ∀ (W : Writer Unit Nat) (fromIsoformat : String → Option Stamp)
    (logs : List RequestLog) (t : Table Unit) (project : ProjectId) (topK : Option Nat),
    Tallied W fromIsoformat logs t project topK := by
  intro h
  have htallied := h (.plain .ascii) (fun _ => none) [] crowdedTable .default (some 1)
  obtain ⟨chosen, _, hlength, hlisted⟩ := htallied.listing
  have hsame := congrArg List.length hlisted
  rw [List.length_map, hlength] at hsame
  revert hsame
  decide

end YiQiao
