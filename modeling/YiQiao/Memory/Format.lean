import YiQiao.Lib.Fallible
import YiQiao.Value

/-!
# Memory items

What a caller sees of a stored payload, and when a payload has expired.
-/

namespace YiQiao

/-! ## Expiration -/

/-- The calendar: `date.fromisoformat` as a day number, and today. -/
structure Calendar where
  parseDate : String → Option Nat
  today : Nat

/-- `_payload_is_expired`. -/
def Payload.isExpired (P : Platform) (calendar : Calendar) (payload : Payload) : Bool :=
  let expirationDate := Payload.get payload "expiration_date"
  expirationDate.truthy &&
    match calendar.parseDate (expirationDate.pyStr P) with
    | some day => decide (day < calendar.today)
    | none => false

/-! ## Formatting -/

def promotedPayloadKeys : List String :=
  ["user_id", "agent_id", "run_id", "actor_id", "role", "attributed_to", "expiration_date", "categories"]

def coreAndPromotedKeys : List String :=
  ["data", "hash", "created_at", "updated_at", "id", "text_lemmatized", "attributed_to"] ++
    promotedPayloadKeys

/-- A result of `search`; `metadata` is left out of the dictionary when it is empty. -/
structure MemoryItem (S : Type) where
  id : String
  memory : String
  hash : Option String
  createdAt : Option String
  updatedAt : Option String
  score : S
  promoted : Entries
  metadata : Entries

/-- A field declared `Optional[str]`. -/
def optionalText : Value → Except PyError (Option String)
  | .null => .ok none
  | .str s => .ok (some s)
  | _ => .error (.valueError "Input should be a valid string")

/-- A field declared `str`. -/
def requiredText : Value → Except PyError String
  | .str s => .ok s
  | _ => .error (.valueError "Input should be a valid string")

/-- `payload.get("data", "")`, a required text. -/
def dataText (payload : Payload) : Except PyError String :=
  match payload.lookup "data" with
  | none => .ok ""
  | some v => requiredText v

def formatItem {S : Type} (id : String) (score : S) (payload : Payload) :
    Except PyError (MemoryItem S) := do
  let memory ← dataText payload
  let hash ← optionalText (Payload.get payload "hash")
  let createdAt ← optionalText (Payload.get payload "created_at")
  let updatedAt ← optionalText (Payload.get payload "updated_at")
  pure {
    id := id
    memory := memory
    hash := hash
    createdAt := createdAt
    updatedAt := updatedAt
    score := score
    promoted := promotedPayloadKeys.filterMap fun key => (payload.lookup key).map (key, ·)
    metadata := payload.filter fun e => e.1 ∉ coreAndPromotedKeys }

/-- A payload that a search can show: it has a text, and its texts are texts. -/
def Payload.Showable (payload : Payload) : Prop :=
  (Payload.get payload "data").truthy = true ∧ ∃ item : MemoryItem Unit, formatItem "" () payload = .ok item

/-- Formatting fails for the payload's sake alone. -/
theorem formatItem_ok {S T : Type} {id : String} {score : S} {payload : Payload} {item : MemoryItem S}
    (h : formatItem id score payload = .ok item) (id' : String) (score' : T) :
    ∃ item', formatItem id' score' payload = .ok item' := by
  simp only [formatItem, Lib.Fallible.bind_ok, Lib.Fallible.pure_ok] at h ⊢
  obtain ⟨memory, hmemory, hash, hhash, created, hcreated, updated, hupdated, _⟩ := h
  exact ⟨_, memory, hmemory, hash, hhash, created, hcreated, updated, hupdated, rfl⟩

theorem formatItem_spec {S : Type} {id : String} {score : S} {payload : Payload} {item : MemoryItem S}
    (h : formatItem id score payload = .ok item) : item.id = id ∧ item.score = score := by
  simp only [formatItem, Lib.Fallible.bind_ok, Lib.Fallible.pure_ok] at h
  obtain ⟨_, _, _, _, _, _, _, _, rfl⟩ := h
  exact ⟨rfl, rfl⟩

end YiQiao
