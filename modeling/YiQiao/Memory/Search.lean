import Mathlib.Data.Prod.Lex
import Mathlib.Data.String.Basic
import YiQiao.Filter.Correctness
import YiQiao.Memory.Format
import YiQiao.Store.PGVector

/-!
# Search

`Memory.search` over a PGVector store: dense candidates scored with keyword matches and entity
links, records that wait for their embedding found by their words, and the lexical scan that takes
over when the query cannot be embedded.
-/

namespace YiQiao

open Lib Filters

variable {V S : Type}

/-- What search asks of the language tools, of the distance and of floating-point functions. -/
structure Engine (V S : Type) where
  platform : Platform
  calendar : Calendar
  distance : V → V → S
  textRank : String → String → Option S
  lemmatize : String → String
  /-- `normalize_bm25` with the parameters of the query. -/
  normalizeBm25 : String → S → S
  lexicalScore : String → String → S
  extractEntities : String → List (String × String)
  normalizeEntityText : String → String
  entityBoostWeight : S
  /-- The least similarity of a linked entity. -/
  entityThreshold : S
  /-- `1.0 / (1.0 + 0.001 * ((num_linked - 1) ** 2))`. -/
  memoryCountWeight : Nat → S

/-- The embedding provider during one request; `none` where it fails. -/
structure Embedder (V : Type) where
  embed : String → Option V
  embedBatch : List String → Option (List V)

/-- The memory collection and the entity collection. -/
structure Stores (V : Type) where
  memories : Table V
  entities : Table V

structure SearchRequest (S : Type) where
  query : String
  filters : Entries
  topK : Int
  threshold : S
  rerank : Bool
  showExpired : Bool

/-! ## Scoring -/

variable [Score S]

def bm25Scores (E : Engine V S) (queryLemmatized : String) :
    Option (List (Hit V S)) → List (String × S)
  | none => []
  | some hits => hits.filterMap fun hit =>
      if 0 < hit.score then some (hit.row.id, E.normalizeBm25 queryLemmatized hit.score) else none

/-- The divisor of the combined score: the signals that are present. -/
def maxPossible (E : Engine V S) (bm25 boosts : List (String × S)) : S :=
  let base : S := if bm25.isEmpty then 1 else 1 + 1
  if boosts.isEmpty then base else base + E.entityBoostWeight

def combinedScore (E : Engine V S) (bm25 boosts : List (String × S)) (hit : Hit V S) : S :=
  let raw := hit.score + (bm25.lookup hit.row.id).getD 0 + (boosts.lookup hit.row.id).getD 0
  min (raw / maxPossible E bm25 boosts) 1

def scoreAndRank (E : Engine V S) (candidates : List (Hit V S)) (bm25 boosts : List (String × S))
    (threshold : S) (topK : Nat) : List (Hit V S) :=
  Lib.topK (fun a b => b.score ≤ a.score) topK
    ((candidates.filter fun hit => threshold ≤ hit.score).map fun hit =>
      { hit with score := combinedScore E bm25 boosts hit })

/-! ## Entity boosts -/

/-- The first entities of a query, one for each normalized text. -/
def dedupEntities (E : Engine V S) (entities : List (String × String)) : List String :=
  let step := fun (acc : List (String × String)) (e : String × String) =>
    let key := E.normalizeEntityText e.2
    if key = "" ∨ (acc.lookup key).isSome then acc else acc ++ [(key, e.2)]
  ((entities.take 8).foldl step []).map Prod.snd

/-- One linked memory. -/
def addBoost (boost : S) (boosts : List (String × S)) (key : String) : List (String × S) :=
  Dict.set key (max ((boosts.lookup key).getD 0) boost) boosts

/-- One matched entity: every memory it links is boosted. -/
def boostMatch (E : Engine V S) (boosts : List (String × S)) (hit : Hit V S) : List (String × S) :=
  if hit.score < E.entityThreshold then boosts
  else match hit.row.payload.lookup "linked_memory_ids" with
    | some (.list ids) =>
        let boost := hit.score * E.entityBoostWeight * E.memoryCountWeight (max ids.length 1)
        ((ids.filter Value.truthy).map (Value.pyStr E.platform)).foldl (addBoost boost) boosts
    | _ => boosts

/-- `filters` cut down to the identifiers that are set. -/
def sessionFilters (filters : Entries) : Entries :=
  filters.filter fun e => e.1 ∈ scopeIds && e.2.truthy

def computeEntityBoosts (E : Engine V S) (embedder : Embedder V) (entities : Table V)
    (queryEntities : List (String × String)) (filters : Entries) : List (String × S) :=
  let texts := dedupEntities E queryEntities
  match embedder.embedBatch texts with
  | none => []
  | some vectors =>
      if texts.isEmpty || vectors.length != texts.length then []
      else vectors.foldl (fun boosts vector =>
        match entities.search E.platform E.distance vector 500 (sessionFilters filters) with
        | .ok hits => hits.foldl (boostMatch E) boosts
        | .error _ => boosts) []

/-! ## Lexical search -/

def lexicalFallbackScanLimit : Nat := 100000

/-- The pool a ranked query fetches for scoring. -/
def internalLimit (limit : Nat) : Nat := max (limit * 4) 60

/-- `_LEXICAL_CJK_RUN.search(query)`. -/
def hasCjkRun (query : String) : Bool :=
  query.toList.any fun c => 0x3400 ≤ c.toNat && c.toNat ≤ 0x9fff

/-- The results kept of a candidate list: payloads without text are passed over. -/
def formatResults (hits : List (Hit V S)) : Except PyError (List (MemoryItem S)) :=
  (hits.filter fun hit => (Payload.get hit.row.payload "data").truthy).mapM fun hit =>
    formatItem hit.row.id hit.score hit.row.payload

/-- Hidden rows: expired, unless the request shows them. -/
def hidden (E : Engine V S) (showExpired : Bool) (payload : Payload) : Bool :=
  !showExpired && payload.isExpired E.platform E.calendar

def lexicalTextScore (E : Engine V S) (query : String) : Value → S
  | .str text => E.lexicalScore query text
  | _ => 0

/-- The order of lexical results: score, then the time of the last update, then the id. -/
def lexicalKey (E : Engine V S) (hit : Hit V S) : Sᵒᵈ ×ₗ (String ×ₗ String) :=
  let updatedAt := Payload.get hit.row.payload "updated_at"
  toLex (OrderDual.toDual hit.score,
    toLex (if updatedAt.truthy then updatedAt.pyStr E.platform else "", hit.row.id))

def lexicalResultsFromRows (E : Engine V S) (rows : List (Row V)) (query : String) (limit : Nat)
    (threshold : S) (showExpired : Bool) : Except PyError (List (MemoryItem S)) :=
  let scored : List (Hit V S) :=
    (rows.filter fun row => !hidden E showExpired row.payload).map fun row =>
      ⟨row, lexicalTextScore E query (Payload.get row.payload "data")⟩
  formatResults (Lib.topK (fun a b => lexicalKey E a ≤ lexicalKey E b) limit
    (scored.filter fun hit => max threshold 0 ≤ hit.score))

def searchWithoutEmbedding (E : Engine V S) (memories : Table V) (query : String) (filters : Entries)
    (limit : Nat) (threshold : S) (showExpired : Bool) : Except PyError (List (MemoryItem S)) := do
  let rows ← memories.list E.platform filters lexicalFallbackScanLimit
  lexicalResultsFromRows E rows query limit threshold showExpired

/-- `requested_status is not None and requested_status != "pending"`. -/
def excludesPending (filters : Entries) : Bool :=
  match filters.lookup "embedding_status" with
  | none => false
  | some .null => false
  | some (.str s) => s != "pending"
  | some _ => true

/-- The scan that supplements a dense search; its failures are swallowed. -/
def pendingScan (E : Engine V S) (memories : Table V) (query : String) (pendingFilters : Entries)
    (limit : Nat) (threshold : S) (showExpired : Bool) : List (MemoryItem S) :=
  match searchWithoutEmbedding E memories query pendingFilters limit threshold showExpired with
  | .ok items => items
  | .error _ => []

def pendingFilters (filters : Entries) : Entries := Dict.set "embedding_status" (.str "pending") filters

def searchPendingEmbeddings (E : Engine V S) (memories : Table V) (query : String) (filters : Entries)
    (limit : Nat) (threshold : S) (showExpired : Bool) : Except PyError (List (MemoryItem S)) :=
  if excludesPending filters then .ok []
  else if hasCjkRun query then
    .ok (pendingScan E memories query (pendingFilters filters) limit threshold showExpired)
  else match memories.keywordSearch E.platform E.textRank (E.lemmatize query) (internalLimit limit)
      (pendingFilters filters) with
    | some hits =>
        lexicalResultsFromRows E (hits.map Hit.row) query limit threshold showExpired
    | none => .ok (pendingScan E memories query (pendingFilters filters) limit threshold showExpired)

/-! ## Merging -/

/-- The better of two results of one memory keeps the place of the first. -/
def mergeItem (byId : List (String × MemoryItem S)) (item : MemoryItem S) :
    List (String × MemoryItem S) :=
  if item.id = "" then byId
  else match byId.lookup item.id with
    | none => byId ++ [(item.id, item)]
    | some existing => if existing.score < item.score then Dict.set item.id item byId else byId

def mergeMemorySearchResults (primary supplemental : List (MemoryItem S)) (limit : Nat) :
    List (MemoryItem S) :=
  Lib.topK (fun a b => b.score ≤ a.score) limit
    (((primary ++ supplemental).foldl mergeItem []).map Prod.snd)

/-! ## The search -/

/-- The results of the scored dense candidates. -/
def denseResults (E : Engine V S) (embedder : Embedder V) (stores : Stores V) (query : String)
    (vector : V) (filters : Entries) (limit : Nat) (threshold : S) (showExpired : Bool) :
    Except PyError (List (MemoryItem S)) := do
  let semantic ← stores.memories.search E.platform E.distance vector (internalLimit limit) filters
  let keyword := stores.memories.keywordSearch E.platform E.textRank (E.lemmatize query)
    (internalLimit limit) filters
  let bm25 := bm25Scores E (E.lemmatize query) keyword
  let boosts := computeEntityBoosts E embedder stores.entities (E.extractEntities query) filters
  let candidates := semantic.filter fun hit => !hidden E showExpired hit.row.payload
  formatResults (scoreAndRank E candidates bm25 boosts threshold limit)

/-- `Memory._search_vector_store`. -/
def searchVectorStore (E : Engine V S) (embedder : Embedder V) (stores : Stores V) (query : String)
    (filters : Entries) (limit : Nat) (threshold : S) (showExpired : Bool) :
    Except PyError (List (MemoryItem S)) :=
  match embedder.embed query with
  | none => searchWithoutEmbedding E stores.memories query filters limit threshold showExpired
  | some vector => do
      let primary ← denseResults E embedder stores query vector filters limit threshold showExpired
      let pending ← searchPendingEmbeddings E stores.memories query filters limit threshold showExpired
      pure (mergeMemorySearchResults primary pending limit)

/-- `_validate_search_params` and `_validate_and_trim_search_query`. -/
def validateSearch (request : SearchRequest S) : Except PyError String :=
  if request.threshold < 0 ∨ 1 < request.threshold then
    .error (.valueError "Invalid threshold. Must be between 0 and 1 (inclusive).")
  else if request.topK < 0 then
    .error (.valueError "Invalid top_k. Must be a non-negative integer.")
  else if strip request.query = "" then
    .error (.valueError "Invalid query: cannot be empty or whitespace-only.")
  else .ok (strip request.query)

/-- What a configured reranker makes of the results; `none` where it fails. -/
abbrev Reranker (S : Type) := String → List (MemoryItem S) → Nat → Option (List (MemoryItem S))

/-- `if rerank and self.reranker and original_memories`. -/
def applyReranker (reranker : Option (Reranker S)) (rerank : Bool) (query : String) (limit : Nat)
    (items : List (MemoryItem S)) : List (MemoryItem S) :=
  match reranker with
  | some r => if rerank && !items.isEmpty then (r query items limit).getD items else items
  | none => items

/-- `Memory.search`. -/
def search (E : Engine V S) (embedder : Embedder V) (reranker : Option (Reranker S))
    (stores : Stores V) (request : SearchRequest S) : Except PyError (List (MemoryItem S)) := do
  let query ← validateSearch request
  let validated ← validateFilters request.filters
  let effective ← effectiveFilters validated
  telemetryFilters effective
  let limit := request.topK.toNat
  let original ← searchVectorStore E embedder stores query effective limit request.threshold
    request.showExpired
  pure (applyReranker reranker request.rerank query limit original)

end YiQiao
