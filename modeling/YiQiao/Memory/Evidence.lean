import YiQiao.Value
import YiQiao.Lib.Fallible
import Mathlib.Data.List.Infix

/-!
# The evidence of imported memories

The reply of a language model to an import is read field by field, and whatever does not fit is refused. A memory that
is let through has a text, a confidence and messages of the chunk that support it.
-/

namespace YiQiao

open Lib Lib.Fallible

/-! ## Replies -/

/-- A `float`. -/
inductive PyFloat where
  | nan
  | infinite (negative : Bool)
  | finite (q : ℚ)

/-- A JSON value as Python holds it. -/
inductive Reply where
  | null
  | bool (b : Bool)
  | int (n : Int)
  | float (x : PyFloat)
  | str (s : String)
  | list (items : List Reply)
  | dict (entries : List (String × Reply))

abbrev ReplyEntries := List (String × Reply)

/-- What reading a reply asks of Python. -/
structure ReplyReader where
  removeCodeBlocks : String → String
  /-- `json.loads`. -/
  loads : String → Option Reply
  extractJson : String → String
  /-- `float` of an integer, unless it overflows. -/
  floatOf : Int → Option PyFloat

/-- The ways a reply fails `_parse_extraction_response`. -/
inductive ReplyError where
  | empty
  | invalidJson (length : Nat)
  | notObject
  | missing
  | notList
  | noText (index : Nat)

def ReplyError.text : ReplyError → String
  | .empty => "LLM extraction returned an empty response."
  | .invalidJson length => s!"LLM extraction returned invalid JSON ({length} characters)."
  | .notObject => "LLM extraction response must be a JSON object."
  | .missing => "LLM extraction response is missing the 'memory' field."
  | .notList => "LLM extraction response field 'memory' must be a list."
  | .noText index => s!"LLM extraction memory at index {index} must contain string field 'text'."

def parseMemories (memories : List Reply) : Except ReplyError (List ReplyEntries) :=
  memories.zipIdx.mapM fun e => match e.1 with
    | .dict memory => match memory.lookup "text" with
      | some (.str _) => .ok memory
      | _ => .error (.noText e.2)
    | _ => .error (.noText e.2)

def parsePayload : Reply → Except ReplyError (List ReplyEntries)
  | .dict payload => match payload.lookup "memory" with
    | none => .error .missing
    | some (.list memories) => parseMemories memories
    | some _ => .error .notList
  | _ => .error .notObject

/-- `_parse_extraction_response`. -/
def parseExtractionResponse (R : ReplyReader) : Reply → Except ReplyError (List ReplyEntries)
  | .dict payload => parsePayload (.dict payload)
  | .str response =>
      if strip response = "" then .error .empty
      else
        let cleaned := R.removeCodeBlocks response
        match R.loads cleaned with
        | some payload => parsePayload payload
        | none => match R.loads (R.extractJson cleaned) with
          | some payload => parsePayload payload
          | none => .error (.invalidJson cleaned.length)
  | _ => .error .empty

/-! ## Sources -/

/-- A message of the chunk. -/
structure OperationMessage where
  role : String
  content : String
  sourceIndex : Int

/-- The part of a `MemoryOperationContext` that decides what a memory needs. -/
structure EvidenceRules where
  requireSourceMessageIndices : Bool
  coreSourceMessageIndices : Option (List Int)
  minConfidence : ℚ

inductive ImportFailure where
  | extraction (reason message : String)
  | valueError (message : String)
  | typeError
  | overflowError

/-- `_operation_core_source_indices`. -/
def operationCoreSourceIndices (rules : EvidenceRules) (sources : List OperationMessage) :
    Except ImportFailure (List Int × Bool) :=
  let available := sources.map OperationMessage.sourceIndex
  match rules.coreSourceMessageIndices with
  | none => .ok (available, false)
  | some configured =>
      if configured.any (· ∉ available) then
        .error (.valueError "core_source_message_indices contains an unavailable source index")
      else
        let core := available.filter (· ∈ configured)
        .ok (core, decide (core.length < available.length))

/-- `source_by_index`; of two messages with one index the later stands. -/
def sourceAt (sources : List OperationMessage) (index : Int) : Option OperationMessage :=
  sources.reverse.find? fun message => message.sourceIndex = index

/-! ## The checks of a memory -/

/-- `_ImportExtractionError`. -/
def extractionError (reason : String) (position : Nat) (what : String) : ImportFailure :=
  .extraction reason s!"Import extraction memory at index {position} {what}."

def refuse (bad : Bool) (reason : String) (position : Nat) (what : String) : Except ImportFailure Unit :=
  if bad then .error (extractionError reason position what) else .ok ()

/-- A text, a list or a dictionary with something in it. -/
def Reply.filled : Reply → Bool
  | .str s => s ≠ ""
  | .list items => !items.isEmpty
  | .dict entries => !entries.isEmpty
  | _ => false

/-- `_is_conflicted_memory`. -/
def isConflictedMemory (memory : ReplyEntries) : Bool :=
  (["conflict", "has_conflict", "conflicting", "conflict_detected"].any fun key => match memory.lookup key with
    | some (.bool true) => true
    | some value => value.filled
    | none => false) ||
  match memory.lookup "conflicts" with
    | some value => value.filled
    | none => false

def memoryText (position : Nat) (memory : ReplyEntries) : Except ImportFailure String :=
  match memory.lookup "text" with
  | some (.str text) => do
      refuse (strip text = "") "invalid_schema" position "has an invalid text field"
      pure text
  | _ => .error (extractionError "invalid_schema" position "has an invalid text field")

def Reply.isStr : Reply → Bool
  | .str _ => true
  | _ => false

def checkId (position : Nat) (memory : ReplyEntries) : Except ImportFailure Unit :=
  refuse ((memory.lookup "id").any fun value => !value.isStr) "invalid_schema" position "has an invalid id field"

/-- A list or a dictionary cannot be looked for in a set. -/
def checkAttributedTo (position : Nat) (memory : ReplyEntries) : Except ImportFailure Unit :=
  match memory.lookup "attributed_to" with
  | none => .ok ()
  | some (.list _) | some (.dict _) => .error .typeError
  | some (.str s) =>
      refuse (s ≠ "user" && s ≠ "assistant") "invalid_schema" position "has an invalid attributed_to field"
  | some _ => .error (extractionError "invalid_schema" position "has an invalid attributed_to field")

def checkLinkedMemoryIds (position : Nat) (memory : ReplyEntries) : Except ImportFailure Unit :=
  match memory.lookup "linked_memory_ids" with
  | none => .ok ()
  | some (.list items) => refuse (!items.all Reply.isStr) "invalid_schema" position "has invalid linked_memory_ids"
  | some _ => .error (extractionError "invalid_schema" position "has invalid linked_memory_ids")

def checkConfidence (rules : EvidenceRules) (position : Nat) : PyFloat → Except ImportFailure ℚ
  | .finite q => do
      refuse (q < 0 || 1 < q) "invalid_schema" position "has confidence outside 0.0 through 1.0"
      refuse (q < rules.minConfidence) "low_confidence" position "is below the confidence threshold"
      pure q
  | _ => .error (extractionError "invalid_schema" position "has confidence outside 0.0 through 1.0")

def memoryConfidence (R : ReplyReader) (rules : EvidenceRules) (position : Nat) (memory : ReplyEntries) :
    Except ImportFailure ℚ :=
  match memory.lookup "confidence" with
  | some (.int n) => match R.floatOf n with
    | some x => checkConfidence rules position x
    | none => .error .overflowError
  | some (.float x) => checkConfidence rules position x
  | _ => .error (extractionError "invalid_schema" position "is missing numeric confidence")

/-- The list a memory cites, as it stands. -/
def citedItems (rules : EvidenceRules) (position : Nat) (memory : ReplyEntries) : Except ImportFailure (List Reply) :=
  match memory.lookup "source_message_indices" with
  | none | some .null => do
      refuse rules.requireSourceMessageIndices "missing_evidence" position "is missing source evidence"
      pure []
  | some (.list items) => do
      refuse (rules.requireSourceMessageIndices && items.isEmpty) "missing_evidence" position
        "is missing source evidence"
      pure items
  | some _ => .error (extractionError "missing_evidence" position "is missing source evidence")

def citedIndex (position : Nat) : Reply → Except ImportFailure Int
  | .int n => .ok n
  | _ => .error (extractionError "invalid_schema" position "has non-integer source indices")

def usable (message : OperationMessage) : Bool := message.role ≠ "system" && strip message.content ≠ ""

def checkEvidence (sources : List OperationMessage) (position : Nat) (indices : List Int) : Except ImportFailure Unit := do
  refuse (!decide indices.Nodup) "invalid_schema" position "has duplicate source indices"
  refuse (indices.any fun index => (sourceAt sources index).isNone) "source_index_out_of_range" position
    "cites an unavailable source index"
  refuse (!indices.isEmpty && !(indices.filterMap (sourceAt sources)).any usable) "missing_evidence" position
    "cites no usable evidence"

/-- `dict(memory)` with its text, its confidence and its indices. -/
def normalizedMemory (memory : ReplyEntries) (text : String) (confidence : ℚ) (indices : List Int) : ReplyEntries :=
  Dict.update memory [("text", .str (strip text)), ("confidence", .float (.finite confidence)),
    ("source_message_indices", .list (indices.map .int))]

/-- One round of the loop; nothing is returned for a memory that only the overlap supports. -/
def validateMemory (R : ReplyReader) (rules : EvidenceRules) (sources : List OperationMessage) (core : List Int)
    (hasOverlap : Bool) (position : Nat) (memory : ReplyEntries) : Except ImportFailure (Option ReplyEntries) := do
  let text ← memoryText position memory
  checkId position memory
  checkAttributedTo position memory
  checkLinkedMemoryIds position memory
  refuse (isConflictedMemory memory) "conflict" position "contains unresolved conflict"
  let confidence ← memoryConfidence R rules position memory
  let items ← citedItems rules position memory
  let indices ← items.mapM (citedIndex position)
  checkEvidence sources position indices
  if hasOverlap && !indices.any (· ∈ core) then pure none
  else pure (some (normalizedMemory memory text confidence indices))

/-! ## The validation -/

/-- The reason that the text of an error stands for. -/
def ReplyError.reason (e : ReplyError) : String :=
  if "empty response".toList <:+: e.text.toLower.toList then "empty_response"
  else if "json".toList <:+: e.text.toLower.toList then "invalid_json"
  else "invalid_schema"

/-- The memories that stand, unless there are only some the overlap supports. -/
def keepSupported (checked : List (Option ReplyEntries)) : Except ImportFailure (List ReplyEntries) :=
  let memories := checked.filterMap id
  if memories.isEmpty && checked.any Option.isNone then
    .error (extractionError "missing_core_evidence" (checked.findIdx Option.isNone) "cites only overlap evidence")
  else .ok memories

/-- `_validate_import_extraction`. -/
def validateImportExtraction (R : ReplyReader) (response : Reply) (sources : List OperationMessage)
    (rules : EvidenceRules) : Except ImportFailure (List ReplyEntries) :=
  match parseExtractionResponse R response with
  | .error e =>
      let reason := e.reason
      .error (.extraction reason s!"Import extraction failed validation: {reason}")
  | .ok memories => do
      let (core, hasOverlap) ← operationCoreSourceIndices rules sources
      let checked ← memories.zipIdx.mapM fun e => validateMemory R rules sources core hasOverlap e.2 e.1
      keepSupported checked

/-! ## What is let through -/

/-- Some message of the chunk is not in its core. -/
def EvidenceRules.Overlaps (rules : EvidenceRules) (sources : List OperationMessage) : Prop :=
  ∃ configured, rules.coreSourceMessageIndices = some configured ∧
    ∃ message ∈ sources, message.sourceIndex ∉ configured

/-- The memory has a text and a confidence, and the messages it cites support it. -/
structure Grounded (rules : EvidenceRules) (sources : List OperationMessage) (memory : ReplyEntries) : Prop where
  text : ∃ text, memory.lookup "text" = some (.str text) ∧ strip text ≠ ""
  confidence : ∃ q, memory.lookup "confidence" = some (.float (.finite q)) ∧ 0 ≤ q ∧ rules.minConfidence ≤ q ∧ q ≤ 1
  evidence : ∃ indices : List Int, memory.lookup "source_message_indices" = some (.list (indices.map .int)) ∧
    (∀ index ∈ indices, ∃ message ∈ sources, message.sourceIndex = index) ∧
    (∃ message ∈ sources, message.sourceIndex ∈ indices ∧ message.role ≠ "system") ∧
    (rules.Overlaps sources → ∃ configured, rules.coreSourceMessageIndices = some configured ∧
      ∃ index ∈ indices, index ∈ configured)

section

variable {R : ReplyReader} {rules : EvidenceRules} {sources : List OperationMessage} {position : Nat}
  {memory : ReplyEntries}

@[simp] theorem refuse_ok {bad : Bool} {reason what : String} {u : Unit} :
    refuse bad reason position what = .ok u ↔ bad = false := by
  cases bad <;> simp [refuse]

theorem sourceAt_some {index : Int} {message : OperationMessage} (h : sourceAt sources index = some message) :
    message ∈ sources ∧ message.sourceIndex = index := by
  constructor
  · simpa using List.mem_of_find?_eq_some h
  · simpa using List.find?_some h

theorem memoryText_ok {text : String} (h : memoryText position memory = .ok text) : strip text ≠ "" := by
  unfold memoryText at h
  split at h
  · simp only [bind_ok, refuse_ok, pure_ok] at h
    obtain ⟨_, hfull, rfl⟩ := h
    simpa using hfull
  · cases h

theorem checkConfidence_ok {x : PyFloat} {q : ℚ} (h : checkConfidence rules position x = .ok q) :
    0 ≤ q ∧ rules.minConfidence ≤ q ∧ q ≤ 1 := by
  cases x with
  | nan => cases h
  | infinite negative => cases h
  | finite q' =>
    simp only [checkConfidence, bind_ok, refuse_ok, pure_ok, Bool.or_eq_false_iff, decide_eq_false_iff_not,
      not_lt] at h
    obtain ⟨_, ⟨hlow, hhigh⟩, _, hmin, rfl⟩ := h
    exact ⟨hlow, hmin, hhigh⟩

theorem memoryConfidence_ok {q : ℚ} (h : memoryConfidence R rules position memory = .ok q) :
    0 ≤ q ∧ rules.minConfidence ≤ q ∧ q ≤ 1 := by
  unfold memoryConfidence at h
  split at h
  · split at h
    · exact checkConfidence_ok h
    · cases h
  · exact checkConfidence_ok h
  · cases h

theorem citedItems_ne {items : List Reply} (hrequired : rules.requireSourceMessageIndices = true)
    (h : citedItems rules position memory = .ok items) : items ≠ [] := by
  unfold citedItems at h
  split at h
  · rw [hrequired] at h
    cases h
  · rw [hrequired] at h
    cases h
  · simp only [hrequired, Bool.true_and, bind_ok, refuse_ok, pure_ok] at h
    obtain ⟨_, hfull, rfl⟩ := h
    simpa using hfull
  · cases h

theorem checkEvidence_ok {indices : List Int} (hne : indices ≠ [])
    (h : checkEvidence sources position indices = .ok ()) :
    (∀ index ∈ indices, ∃ message ∈ sources, message.sourceIndex = index) ∧
      ∃ message ∈ sources, message.sourceIndex ∈ indices ∧ message.role ≠ "system" := by
  simp only [checkEvidence, bind_ok, refuse_ok] at h
  obtain ⟨_, _, _, hthere, husable⟩ := h
  constructor
  · intro index hindex
    have hsome : ¬ (sourceAt sources index).isNone := by
      intro hnone
      rw [List.any_eq_false] at hthere
      exact hthere index hindex hnone
    obtain ⟨message, hmessage⟩ := Option.ne_none_iff_exists'.mp (by simpa using hsome)
    exact ⟨message, sourceAt_some hmessage⟩
  · have hany : (indices.filterMap (sourceAt sources)).any usable = true := by
      simpa [hne] using husable
    obtain ⟨message, hmessage, husable⟩ := List.any_eq_true.mp hany
    obtain ⟨index, hindex, hat⟩ := List.mem_filterMap.mp hmessage
    obtain ⟨hmem, hsame⟩ := sourceAt_some hat
    simp only [usable, ne_eq, Bool.and_eq_true, decide_eq_true_eq] at husable
    exact ⟨message, hmem, hsame ▸ hindex, husable.1⟩

/-- The core is the part of the sources that is configured, and the overlap the rest of them. -/
theorem operationCoreSourceIndices_ok {core : List Int} {hasOverlap : Bool}
    (h : operationCoreSourceIndices rules sources = .ok (core, hasOverlap)) (hoverlaps : rules.Overlaps sources) :
    hasOverlap = true ∧ ∃ configured, rules.coreSourceMessageIndices = some configured ∧
      ∀ index ∈ core, index ∈ configured := by
  obtain ⟨configured, hconfigured, message, hmessage, hout⟩ := hoverlaps
  simp only [operationCoreSourceIndices, hconfigured] at h
  split at h
  · cases h
  · simp only [Except.ok.injEq, Prod.mk.injEq] at h
    obtain ⟨rfl, rfl⟩ := h
    constructor
    · rw [decide_eq_true_eq, List.length_filter_lt_length_iff_exists]
      exact ⟨message.sourceIndex, List.mem_map_of_mem hmessage, by simpa using hout⟩
    · refine ⟨configured, hconfigured, ?_⟩
      intro index hindex
      simpa using (List.mem_filter.mp hindex).2

theorem lookup_normalizedMemory (memory : ReplyEntries) (text : String) (confidence : ℚ) (indices : List Int)
    (key : String) :
    (normalizedMemory memory text confidence indices).lookup key =
      (List.lookup key [("text", .str (strip text)), ("confidence", .float (.finite confidence)),
        ("source_message_indices", .list (indices.map .int))]).or (memory.lookup key) :=
  Dict.lookup_update _ (by simp [Dict.Unique]) key

theorem citedIndex_ok {items : List Reply} {indices : List Int}
    (h : items.mapM (citedIndex position) = .ok indices) : items = indices.map .int := by
  rw [← List.map_id items]
  apply forall₂_map_eq (mapM_ok.mp h)
  intro item index hitem
  cases item with
  | int n =>
    cases hitem
    rfl
  | _ => cases hitem

/-- A memory that one round lets through is grounded. -/
theorem validateMemory_grounded {core : List Int} {hasOverlap : Bool} {memory' : ReplyEntries}
    (hrequired : rules.requireSourceMessageIndices = true)
    (hcore : operationCoreSourceIndices rules sources = .ok (core, hasOverlap))
    (h : validateMemory R rules sources core hasOverlap position memory = .ok (some memory')) :
    Grounded rules sources memory' := by
  simp only [validateMemory, bind_ok] at h
  obtain ⟨text, htext, _, _, _, _, _, _, _, _, q, hq, items, hitems, indices, hindices, _, hevidence, hlast⟩ := h
  have hne : indices ≠ [] := by
    intro hnone
    apply citedItems_ne hrequired hitems
    rw [citedIndex_ok hindices, hnone, List.map_nil]
  obtain ⟨hthere, husable⟩ := checkEvidence_ok hne hevidence
  split at hlast
  · cases hlast
  · rename_i hsupported
    cases hlast
    constructor
    · refine ⟨strip text, by simp [lookup_normalizedMemory], ?_⟩
      rw [strip_strip]
      exact memoryText_ok htext
    · exact ⟨q, by simp [lookup_normalizedMemory, List.lookup_cons], memoryConfidence_ok hq⟩
    · refine ⟨indices, by simp [lookup_normalizedMemory, List.lookup_cons], hthere, husable, ?_⟩
      intro hoverlaps
      obtain ⟨hoverlap, configured, hconfigured, hwithin⟩ := operationCoreSourceIndices_ok hcore hoverlaps
      refine ⟨configured, hconfigured, ?_⟩
      have hcited : indices.any (· ∈ core) = true := by
        simpa [hoverlap] using hsupported
      obtain ⟨index, hindex, hin⟩ := List.any_eq_true.mp hcited
      exact ⟨index, hindex, hwithin index (by simpa using hin)⟩

/-- Whatever the model replies, the memories of an import that asks for evidence have it. -/
theorem validateImportExtraction_grounded (R : ReplyReader) (response : Reply) (sources : List OperationMessage)
    (rules : EvidenceRules) (hrequired : rules.requireSourceMessageIndices = true) {memories : List ReplyEntries}
    (h : validateImportExtraction R response sources rules = .ok memories) :
    ∀ memory ∈ memories, Grounded rules sources memory := by
  unfold validateImportExtraction at h
  split at h
  · cases h
  · simp only [bind_ok, Prod.exists] at h
    obtain ⟨core, hasOverlap, hcore, checked, hchecked, hkept⟩ := h
    intro memory hmemory
    have hmem : some memory ∈ checked := by
      unfold keepSupported at hkept
      dsimp only at hkept
      split at hkept
      · cases hkept
      · cases hkept
        simpa using hmemory
    obtain ⟨_, _, hvalid⟩ := exists_left_of_mem (mapM_ok.mp hchecked) hmem
    exact validateMemory_grounded hrequired hcore hvalid

end

/-- A reader that knows no texts. -/
def ReplyReader.blind : ReplyReader := ⟨id, fun _ => none, id, fun n => some (.finite n)⟩

def memoryCiting (text : String) (indices : List Int) : Reply :=
  .dict [("text", .str text), ("confidence", .int 1), ("source_message_indices", .list (indices.map .int))]

/-- Of two memories the one that only the overlap supports is dropped. -/
theorem validateImportExtraction_core :
    ∃ memory, Grounded ⟨true, some [1], 1 / 2⟩ [⟨"user", "I lived in Bergen.", 0⟩, ⟨"user", "I live in Oslo.", 1⟩] memory ∧
      validateImportExtraction .blind
        (.dict [("memory", .list [memoryCiting "Lived in Bergen" [0], memoryCiting " Lives in Oslo" [0, 1]])])
        [⟨"user", "I lived in Bergen.", 0⟩, ⟨"user", "I live in Oslo.", 1⟩] ⟨true, some [1], 1 / 2⟩ = .ok [memory] := by
  refine ⟨[("text", .str "Lives in Oslo"), ("confidence", .float (.finite 1)),
    ("source_message_indices", .list [.int 0, .int 1])], ?_, ?reply⟩
  · exact validateImportExtraction_grounded _ _ _ _ rfl ?reply _ List.mem_cons_self
  · with_unfolding_all rfl

end YiQiao
