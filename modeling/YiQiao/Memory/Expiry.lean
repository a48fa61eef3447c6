import Mathlib.Tactic.NormNum
import YiQiao.Memory.SearchSpec
import YiQiao.Store.IdFilters

/-!
# Expired memories

Search drops expired rows after it fetched its candidates. What they leave behind is the room they
took in a page of limited size and the keyword matches that were counted before they were dropped;
where neither matters, a search answers as if the expired rows were not stored.
-/

namespace YiQiao

open Lib Filters

variable {V S : Type}

/-! ## The complete answers of the store -/

/-- The table with some rows left out. -/
def Table.restrict (t : Table V) (p : Row V → Bool) : Table V where
  rows := t.rows.filter p
  unique := t.unique.sublist (List.filter_sublist.map _)
  named := fun row hrow => t.named row (List.mem_of_mem_filter hrow)

/-- The answer of `search` without its limit. -/
def Table.ranking [Score S] (P : Platform) (distance : V → V → S) (t : Table V) (vector : V)
    (filters : Entries) : Except PyError (List (Hit V S)) := do
  let rows ← select P filters (t.rows.filter fun row => row.vector.isSome)
  let measured := rows.filterMap fun row => row.vector.map fun v => (row, distance v vector)
  pure ((ranked (fun a b => a.2 ≤ b.2) measured).map fun m => ⟨m.1, max 0 (1 - m.2)⟩)

/-- The answer of `keyword_search` without its limit. -/
def Table.keywordRanking [Score S] (P : Platform) (textRank : String → String → Option S) (t : Table V)
    (query : String) (filters : Entries) : Option (List (Hit V S)) :=
  match select P filters (t.rows.filter fun row => (textMatch P textRank query row).isSome) with
  | .error _ => none
  | .ok rows => some (ranked (fun a b => b.score ≤ a.score)
      (rows.filterMap fun row => (textMatch P textRank query row).map fun score => ⟨row, score⟩))

theorem Table.search_eq [Score S] (P : Platform) (distance : V → V → S) (t : Table V) (vector : V)
    (limit : Nat) (filters : Entries) : t.search P distance vector limit filters =
      (t.ranking P distance vector filters).map (List.take limit) := by
  unfold Table.search Table.ranking
  cases select P filters (t.rows.filter fun row => row.vector.isSome) with
  | error e => rfl
  | ok rows => simp [topK, List.map_take, bind, Except.bind, pure, Except.pure, Except.map]

theorem Table.keywordSearch_eq [Score S] (P : Platform) (textRank : String → String → Option S)
    (t : Table V) (query : String) (limit : Nat) (filters : Entries) :
    t.keywordSearch P textRank query limit filters =
      (t.keywordRanking P textRank query filters).map (List.take limit) := by
  unfold Table.keywordSearch Table.keywordRanking
  cases select P filters (t.rows.filter fun row => (textMatch P textRank query row).isSome) <;> rfl

theorem Table.list_eq (P : Platform) (t : Table V) (filters : Entries) (limit : Nat) :
    t.list P filters limit = (select P filters t.rows).map (List.take limit) := by
  unfold Table.list
  cases select P filters t.rows <;> rfl

/-! ## Leaving rows out -/

/-- No cast of the filters fails on the payload. -/
def CastSafe (P : Platform) (filters : Entries) (payload : Payload) : Prop :=
  ∀ conds, buildFilterConditions P filters = .ok conds →
    (Kleene.Expr.atomsList conds).any (Test.fails P payload) = false

section

variable {P : Platform} {filters : Entries} {p : Row V → Bool}

/-- Rows that cannot fail a query can be left out before it or after it. -/
theorem select_filter {rows : List (Row V)}
    (h : ∀ row ∈ rows, p row = false → CastSafe P filters row.payload) :
    Table.select P filters (rows.filter p) = (Table.select P filters rows).map (List.filter p) := by
  unfold Table.select
  cases hconds : buildFilterConditions P filters with
  | error e => rfl
  | ok conds =>
      have hany : ((rows.filter p).any fun row =>
          (Kleene.Expr.atomsList conds).any (Test.fails P row.payload)) =
          rows.any fun row => (Kleene.Expr.atomsList conds).any (Test.fails P row.payload) := by
        rw [Bool.eq_iff_iff]
        simp only [List.any_eq_true, List.mem_filter]
        constructor
        · rintro ⟨row, ⟨hrow, _⟩, hfail⟩
          exact ⟨row, hrow, hfail⟩
        · rintro ⟨row, hrow, hfail⟩
          refine ⟨row, ⟨hrow, ?_⟩, hfail⟩
          by_contra hp
          have hsafe := h row hrow (by simpa using hp) conds hconds
          rw [List.any_eq_false] at hsafe
          obtain ⟨t, ht, htf⟩ := hfail
          exact hsafe t ht htf
      simp only [bind, Except.bind, hany]
      split
      · rfl
      · simp [Except.map, pure, Except.pure, List.filter_filter, Bool.and_comm]

theorem filterMap_filter {α β : Type} {g : α → Option β} {p : α → Bool} {q : β → Bool}
    (h : ∀ a b, g a = some b → q b = p a) (l : List α) :
    (l.filter p).filterMap g = (l.filterMap g).filter q := by
  induction l with
  | nil => rfl
  | cons a l ih =>
      cases hg : g a with
      | none => by_cases hp : p a = true <;> simp [hg, hp, ih]
      | some b => by_cases hp : p a = true <;> simp [hg, hp, ih, h a b hg]

/-- A selection of some of the rows, with others left out. -/
theorem select_restrict {t : Table V} (q : Row V → Bool)
    (h : ∀ row ∈ t.rows, p row = false → CastSafe P filters row.payload) :
    Table.select P filters ((t.restrict p).rows.filter q) =
      (Table.select P filters (t.rows.filter q)).map (List.filter p) := by
  rw [Table.restrict, List.filter_comm]
  exact select_filter fun row hrow => h row (List.mem_of_mem_filter hrow)

/-- A statement that fails on some of the rows fails on all of them. -/
theorem select_error {rows : List (Row V)} {q : Row V → Bool} {e : PyError}
    (h : Table.select P filters (rows.filter q) = .error e) :
    ∃ e, Table.select P filters rows = .error e := by
  unfold Table.select at h ⊢
  cases hconds : buildFilterConditions P filters with
  | error e => exact ⟨e, rfl⟩
  | ok conds =>
      simp only [hconds, bind, Except.bind] at h ⊢
      split at h
      · rename_i hfail
        obtain ⟨row, hrow, hrowfail⟩ := List.any_eq_true.mp hfail
        rw [if_pos (List.any_eq_true.mpr ⟨row, List.mem_of_mem_filter hrow, hrowfail⟩)]
        exact ⟨_, rfl⟩
      · cases h

theorem list_of_keywordSearch_none [Score S] {textRank : String → String → Option S} {t : Table V}
    {query : String} {limit : Nat} (h : t.keywordSearch P textRank query limit filters = none)
    (scan : Nat) : ∃ e, t.list P filters scan = .error e := by
  unfold Table.keywordSearch at h
  split at h
  · rename_i hfail
    obtain ⟨e, he⟩ := select_error hfail
    exact ⟨e, by rw [Table.list_eq, he]; rfl⟩
  · cases h

instance distanceTotal [Score S] : Std.Total fun a b : Row V × S => a.2 ≤ b.2 :=
  ⟨fun a b => le_total a.2 b.2⟩

instance distanceTrans [Score S] : IsTrans (Row V × S) fun a b => a.2 ≤ b.2 :=
  ⟨fun _ _ _ => le_trans⟩

instance scoreTotal [Score S] : Std.Total fun a b : Hit V S => b.score ≤ a.score :=
  ⟨fun a b => le_total b.score a.score⟩

instance scoreTrans [Score S] : IsTrans (Hit V S) fun a b => b.score ≤ a.score :=
  ⟨fun _ _ _ h h' => le_trans h' h⟩

theorem ranking_restrict [Score S] {distance : V → V → S} {t : Table V} {vector : V}
    (h : ∀ row ∈ t.rows, p row = false → CastSafe P filters row.payload) :
    (t.restrict p).ranking P distance vector filters =
      (t.ranking P distance vector filters).map (List.filter fun hit => p hit.row) := by
  unfold Table.ranking
  rw [select_restrict _ h]
  cases Table.select P filters (t.rows.filter fun row => row.vector.isSome) with
  | error e => rfl
  | ok rows =>
      have hmeasured := filterMap_filter (p := p) (q := fun m : Row V × S => p m.1)
        (g := fun row => row.vector.map fun v => (row, distance v vector))
        (fun row m hm => by
          obtain ⟨v, _, rfl⟩ := Option.map_eq_some_iff.mp hm
          rfl) rows
      simp only [Except.map, bind, Except.bind, pure, Except.pure, hmeasured, ← filter_ranked,
        List.filter_map]
      rfl

theorem keywordRanking_restrict [Score S] {textRank : String → String → Option S} {t : Table V}
    {query : String} (h : ∀ row ∈ t.rows, p row = false → CastSafe P filters row.payload) :
    (t.restrict p).keywordRanking P textRank query filters =
      (t.keywordRanking P textRank query filters).map (List.filter fun hit => p hit.row) := by
  unfold Table.keywordRanking
  rw [select_restrict _ h]
  cases Table.select P filters (t.rows.filter fun row =>
      (Table.textMatch P textRank query row).isSome) with
  | error e => rfl
  | ok rows =>
      have hmatched := filterMap_filter (p := p) (q := fun hit : Hit V S => p hit.row)
        (g := fun row => (Table.textMatch P textRank query row).map fun score => (⟨row, score⟩ : Hit V S))
        (fun row hit hm => by
          obtain ⟨score, _, rfl⟩ := Option.map_eq_some_iff.mp hm
          rfl) rows
      simp only [Except.map, hmatched, ← filter_ranked, Option.map_some]

/-- Where no row that is left out obstructs the page, the page shows the others alike. -/
theorem search_restrict [Score S] {distance : V → V → S} {t : Table V} {vector : V} {limit : Nat}
    (h : ∀ row ∈ t.rows, p row = false → CastSafe P filters row.payload)
    (hpage : ∀ hits, t.ranking P distance vector filters = .ok hits →
      Unobstructed (fun hit => p hit.row) limit hits) :
    (t.restrict p).search P distance vector limit filters =
      (t.search P distance vector limit filters).map (List.filter fun hit => p hit.row) := by
  rw [Table.search_eq, Table.search_eq, ranking_restrict h]
  cases hhits : t.ranking P distance vector filters with
  | error e => rfl
  | ok hits => exact congrArg Except.ok (filter_take_iff.mpr (hpage hits hhits)).symm

theorem keywordSearch_restrict [Score S] {textRank : String → String → Option S} {t : Table V}
    {query : String} {limit : Nat}
    (h : ∀ row ∈ t.rows, p row = false → CastSafe P filters row.payload)
    (hpage : ∀ hits, t.keywordRanking P textRank query filters = some hits →
      Unobstructed (fun hit => p hit.row) limit hits) :
    (t.restrict p).keywordSearch P textRank query limit filters =
      (t.keywordSearch P textRank query limit filters).map (List.filter fun hit => p hit.row) := by
  rw [Table.keywordSearch_eq, Table.keywordSearch_eq, keywordRanking_restrict h]
  cases hhits : t.keywordRanking P textRank query filters with
  | none => rfl
  | some hits => exact congrArg some (filter_take_iff.mpr (hpage hits hhits)).symm

theorem list_restrict {t : Table V} {limit : Nat}
    (h : ∀ row ∈ t.rows, p row = false → CastSafe P filters row.payload)
    (hpage : ∀ rows, Table.select P filters t.rows = .ok rows → Unobstructed p limit rows) :
    (t.restrict p).list P filters limit = (t.list P filters limit).map (List.filter p) := by
  rw [Table.list_eq, Table.list_eq, Table.restrict, select_filter h]
  cases hrows : Table.select P filters t.rows with
  | error e => rfl
  | ok rows => exact congrArg Except.ok (filter_take_iff.mpr (hpage rows hrows)).symm

end

/-! ## Undisturbed searches -/

variable [Score S]

/-- The rows a search may show. -/
def Row.visible (E : Engine V S) (row : Row V) : Bool := !row.payload.isExpired E.platform E.calendar

/-- The store without its expired memories. -/
def Stores.unexpired (E : Engine V S) (stores : Stores V) : Stores V :=
  { stores with memories := stores.memories.restrict (Row.visible E) }

/-- The keyword matches fetched for a query hold a positive score of a visible row or of none. -/
def MatchesVisibly (E : Engine V S) (hits : List (Hit V S)) : Prop :=
  ∀ hit ∈ hits, 0 < hit.score → ∃ hit ∈ hits, 0 < hit.score ∧ hit.row.visible E = true

/-- In none of the store's answers to a search does an expired row hold a place that a visible row
is left out for, in none a cast fails on an expired row, and no keyword match is counted for expired
rows alone. -/
structure Undisturbed (E : Engine V S) (t : Table V) (vector : Option V) (query : String)
    (filters : Entries) (limit : Nat) : Prop where
  castable : ∀ row ∈ t.rows, row.visible E = false → CastSafe E.platform filters row.payload
  pendingCastable : vector.isSome = true → excludesPending filters = false →
    ∀ row ∈ t.rows, row.visible E = false → CastSafe E.platform (pendingFilters filters) row.payload
  fallback : vector = none → ∀ rows, Table.select E.platform filters t.rows = .ok rows →
    Unobstructed (Row.visible E) lexicalFallbackScanLimit rows
  dense : ∀ v, vector = some v → ∀ hits, t.ranking E.platform E.distance v filters = .ok hits →
    Unobstructed (fun hit => hit.row.visible E) (internalLimit limit) hits
  keyword : vector.isSome = true → ∀ hits,
    t.keywordRanking E.platform E.textRank (E.lemmatize query) filters = some hits →
      Unobstructed (fun hit => hit.row.visible E) (internalLimit limit) hits ∧
        MatchesVisibly E (hits.take (internalLimit limit))
  pending : vector.isSome = true → excludesPending filters = false → hasCjkRun query = false →
    ∀ hits, t.keywordRanking E.platform E.textRank (E.lemmatize query) (pendingFilters filters) =
      some hits → Unobstructed (fun hit => hit.row.visible E) (internalLimit limit) hits
  pendingScan : vector.isSome = true → excludesPending filters = false → hasCjkRun query = true →
    ∀ rows, Table.select E.platform (pendingFilters filters) t.rows = .ok rows →
      Unobstructed (Row.visible E) lexicalFallbackScanLimit rows

/-! ## The same answers -/

variable {E : Engine V S} {t : Table V} {query : String} {filters : Entries} {limit : Nat} {threshold : S}

omit [Score S] in
theorem hidden_eq (row : Row V) : hidden E false row.payload = !row.visible E := by
  simp [hidden, Row.visible]

theorem lexicalResultsFromRows_visible (rows : List (Row V)) :
    lexicalResultsFromRows E (rows.filter (Row.visible E)) query limit threshold false =
      lexicalResultsFromRows E rows query limit threshold false := by
  unfold lexicalResultsFromRows
  simp only [hidden_eq, Bool.not_not, List.filter_filter, Bool.and_self]

theorem searchWithoutEmbedding_restrict
    (hcast : ∀ row ∈ t.rows, row.visible E = false → CastSafe E.platform filters row.payload)
    (hpage : ∀ rows, Table.select E.platform filters t.rows = .ok rows →
      Unobstructed (Row.visible E) lexicalFallbackScanLimit rows) :
    searchWithoutEmbedding E (t.restrict (Row.visible E)) query filters limit threshold false =
      searchWithoutEmbedding E t query filters limit threshold false := by
  unfold searchWithoutEmbedding
  rw [list_restrict hcast hpage]
  cases t.list E.platform filters lexicalFallbackScanLimit with
  | error e => rfl
  | ok rows => exact lexicalResultsFromRows_visible rows

theorem searchPendingEmbeddings_restrict {v : V} (threshold : S)
    (h : Undisturbed E t (some v) query filters limit) :
    searchPendingEmbeddings E (t.restrict (Row.visible E)) query filters limit threshold false =
      searchPendingEmbeddings E t query filters limit threshold false := by
  unfold searchPendingEmbeddings
  by_cases hexcl : excludesPending filters = true
  · simp only [hexcl, ↓reduceIte]
  · rw [Bool.not_eq_true] at hexcl
    have hcast := h.pendingCastable rfl hexcl
    simp only [hexcl, Bool.false_eq_true, ↓reduceIte]
    by_cases hcjk : hasCjkRun query = true
    · simp only [hcjk, ↓reduceIte, pendingScan,
        searchWithoutEmbedding_restrict hcast (h.pendingScan rfl hexcl hcjk)]
    · rw [Bool.not_eq_true] at hcjk
      simp only [hcjk, Bool.false_eq_true, ↓reduceIte]
      have hkeyword := keywordSearch_restrict hcast (h.pending rfl hexcl hcjk)
      cases hhits : t.keywordSearch E.platform E.textRank (E.lemmatize query) (internalLimit limit)
          (pendingFilters filters) with
      | some hits =>
          rw [hhits] at hkeyword
          simp only [hkeyword, Option.map_some]
          rw [← lexicalResultsFromRows_visible (hits.map Hit.row), List.filter_map]
          rfl
      | none =>
          -- the statement that failed on the matching rows fails in the scan too
          rw [hhits] at hkeyword
          obtain ⟨e, he⟩ := list_of_keywordSearch_none hhits lexicalFallbackScanLimit
          obtain ⟨e', he'⟩ := list_of_keywordSearch_none hkeyword lexicalFallbackScanLimit
          simp only [hkeyword, Option.map_none, pendingScan, searchWithoutEmbedding, he, he']
          rfl

/-! ## Scores -/

theorem lookup_bm25Scores_visible {hits : List (Hit V S)} {id : String}
    (hsame : ∀ hit ∈ hits, hit.row.id = id → hit.row.visible E = true) :
    (bm25Scores E query (some (hits.filter fun hit => hit.row.visible E))).lookup id =
      (bm25Scores E query (some hits)).lookup id := by
  refine Dict.lookup_filterMap_filter fun hit hhit score he => hsame hit hhit ?_
  split at he
  · cases he
    rfl
  · cases he

theorem isEmpty_bm25Scores_visible {hits : List (Hit V S)} (h : MatchesVisibly E hits) :
    (bm25Scores E query (some (hits.filter fun hit => hit.row.visible E))).isEmpty =
      (bm25Scores E query (some hits)).isEmpty := by
  have hempty : ∀ l : List (Hit V S), (bm25Scores E query (some l)).isEmpty = true ↔
      ∀ hit ∈ l, ¬ 0 < hit.score := by
    intro l
    simp [bm25Scores, List.isEmpty_iff, List.filterMap_eq_nil_iff]
  rw [Bool.eq_iff_iff, hempty, hempty]
  constructor
  · intro hnone hit hhit hpos
    obtain ⟨hit', hhit', hpos', hvis⟩ := h hit hhit hpos
    exact hnone hit' (List.mem_filter.mpr ⟨hhit', hvis⟩) hpos'
  · exact fun hnone hit hhit => hnone hit (List.mem_of_mem_filter hhit)

/-- Two keyword matches that agree on the candidates, and on being there at all, score alike. -/
theorem scoreAndRank_congr {candidates : List (Hit V S)} {bm25 bm25' boosts : List (String × S)}
    (hlookup : ∀ hit ∈ candidates, bm25.lookup hit.row.id = bm25'.lookup hit.row.id)
    (hempty : bm25.isEmpty = bm25'.isEmpty) :
    scoreAndRank E candidates bm25 boosts threshold limit =
      scoreAndRank E candidates bm25' boosts threshold limit := by
  unfold scoreAndRank
  congr 1
  refine List.map_congr_left fun hit hhit => ?_
  have hmax : maxPossible E bm25 boosts = maxPossible E bm25' boosts := by
    unfold maxPossible
    rw [hempty]
  simp only [combinedScore, hlookup hit (List.mem_of_mem_filter hhit), hmax]

theorem denseResults_restrict {embedder : Embedder V} {stores : Stores V} {v : V}
    (h : Undisturbed E stores.memories (some v) query filters limit) :
    denseResults E embedder (stores.unexpired E) query v filters limit threshold false =
      denseResults E embedder stores query v filters limit threshold false := by
  unfold denseResults
  simp only [Stores.unexpired]
  rw [search_restrict h.castable (h.dense v rfl)]
  have hkeyword := keywordSearch_restrict h.castable fun hits hhits => (h.keyword rfl hits hhits).1
  rw [hkeyword]
  cases hsem : stores.memories.search E.platform E.distance v (internalLimit limit) filters with
  | error e => rfl
  | ok semantic =>
      simp only [Except.map, bind, Except.bind, hidden_eq, Bool.not_not, List.filter_filter,
        Bool.and_self]
      congr 1
      have hvisible : ∀ hit ∈ semantic.filter fun hit => hit.row.visible E,
          hit.row ∈ stores.memories.rows ∧ hit.row.visible E = true := by
        intro hit hhit
        obtain ⟨hmem, hvis⟩ := List.mem_filter.mp hhit
        exact ⟨(Table.mem_search hsem hmem).1, hvis⟩
      cases hkey : stores.memories.keywordSearch E.platform E.textRank (E.lemmatize query)
          (internalLimit limit) filters with
      | none => rfl
      | some hits =>
          have hmatches : MatchesVisibly E hits := by
            rw [Table.keywordSearch_eq] at hkey
            obtain ⟨all, hall, rfl⟩ := Option.map_eq_some_iff.mp hkey
            exact (h.keyword rfl all hall).2
          refine scoreAndRank_congr (fun hit hhit => ?_) (isEmpty_bm25Scores_visible hmatches)
          refine lookup_bm25Scores_visible fun hit' hhit' hid => ?_
          obtain ⟨hrow, hvis⟩ := hvisible hit hhit
          have hrow' := (Table.mem_keywordSearch hkey hhit').1
          rwa [List.inj_on_of_nodup_map stores.memories.unique hrow' hrow hid]

theorem searchVectorStore_unexpired {embedder : Embedder V} {stores : Stores V} (threshold : S)
    (h : Undisturbed E stores.memories (embedder.embed query) query filters limit) :
    searchVectorStore E embedder (stores.unexpired E) query filters limit threshold false =
      searchVectorStore E embedder stores query filters limit threshold false := by
  unfold searchVectorStore
  cases hembed : embedder.embed query with
  | none => exact searchWithoutEmbedding_restrict h.castable (h.fallback hembed)
  | some v =>
      rw [hembed] at h
      have hpending := searchPendingEmbeddings_restrict threshold h
      simp only [denseResults_restrict h]
      rw [Stores.unexpired, hpending]

/-- What the request asks of the store is undisturbed by expired rows. -/
def SearchRequest.Undisturbed (E : Engine V S) (embedder : Embedder V) (stores : Stores V)
    (request : SearchRequest S) : Prop :=
  ∀ query validated effective, validateSearch request = .ok query →
    validateFilters request.filters = .ok validated → effectiveFilters validated = .ok effective →
      YiQiao.Undisturbed E stores.memories (embedder.embed query) query effective request.topK.toNat

/-- An undisturbed search answers as if the expired rows were not stored. -/
theorem search_unexpired {embedder : Embedder V} {reranker : Option (Reranker S)} {stores : Stores V}
    {request : SearchRequest S} (hhide : request.showExpired = false)
    (h : request.Undisturbed E embedder stores) :
    search E embedder reranker stores request =
      search E embedder reranker (stores.unexpired E) request := by
  unfold search
  cases hquery : validateSearch request with
  | error e => rfl
  | ok query =>
      cases hvalid : validateFilters request.filters with
      | error e => rfl
      | ok validated =>
          cases heff : effectiveFilters validated with
          | error e => simp only [bind, Except.bind, heff]
          | ok effective =>
              have hsame := searchVectorStore_unexpired request.threshold
                (h query validated effective hquery hvalid heff)
              simp only [bind, Except.bind, heff, hhide, hsame]

/-! ## An expired match -/

/-- A quiet engine whose keyword search finds exact texts, at a time when every date has passed. -/
def matchingEngine : Engine Unit ℚ where
  platform := .ascii
  calendar := ⟨fun _ => some 0, 1⟩
  distance := fun _ _ => 0
  textRank := fun query text => if query = text then some 1 else none
  lemmatize := id
  normalizeBm25 := fun _ score => score
  lexicalScore := fun _ _ => 0
  extractEntities := fun _ => []
  normalizeEntityText := id
  entityBoostWeight := 0
  entityThreshold := 0
  memoryCountWeight := fun _ => 0

def currentMemory : Row Unit := ⟨"a", some (), [("user_id", .str "u"), ("data", .str "x")]⟩

def expiredMemory : Row Unit :=
  ⟨"b", none, [("user_id", .str "u"), ("data", .str "q"), ("text_lemmatized", .str "q"),
    ("expiration_date", .str "1970-01-01")]⟩

def expiringStores : Stores Unit where
  memories := ⟨[currentMemory, expiredMemory], by decide, by decide⟩
  entities := Table.empty

def constantEmbedder : Embedder Unit := ⟨fun _ => some (), fun _ => none⟩

/-- The embedding provider is down. -/
def silentEmbedder : Embedder Unit := ⟨fun _ => none, fun _ => none⟩

def userFilters : Entries := [("user_id", .str "u")]

def userRequest : SearchRequest ℚ := ⟨"q", userFilters, 10, 0, false, false⟩

theorem select_user (rows : List (Row Unit)) : Table.select .ascii userFilters rows =
    .ok (rows.filter fun row => idMatches .ascii row.payload "user_id" "u" && true) :=
  select_ids (by decide : ∀ e ∈ [("user_id", "u")], e.1 ≠ "$or" ∧ e.1 ≠ "$not") rows

theorem castSafe_user (payload : Payload) : CastSafe .ascii userFilters payload := by
  intro conds hconds
  rw [show userFilters = idFilters [("user_id", "u")] from rfl,
    buildFilterConditions_ids .ascii (by decide)] at hconds
  cases hconds
  rfl

/-- The expired row is hidden, and the scan that replaces the dense search reaches both rows. -/
theorem search_unexpired_down :
    search matchingEngine silentEmbedder none expiringStores userRequest =
      search matchingEngine silentEmbedder none (expiringStores.unexpired matchingEngine)
        userRequest := by
  refine search_unexpired rfl ?_
  intro query validated effective _ hvalid heff
  cases hvalid
  cases heff
  constructor
  · exact fun row _ _ => castSafe_user row.payload
  · exact fun h => nomatch h
  · intro _ rows hrows
    refine .inr ?_
    have hlen := (Table.select_sublist hrows).length_le
    rw [List.drop_eq_nil_of_le (hlen.trans (by decide))]
    simp
  · exact fun _ h => nomatch h
  · exact fun h => nomatch h
  · exact fun h => nomatch h
  · exact fun h => nomatch h

/-- The rows of `expiringStores`, with or without the expired one. -/
def CurrentRows (expired : Bool) (t : Table Unit) : Prop :=
  t.rows = currentMemory :: if expired then [expiredMemory] else []

section

variable {expired : Bool} {stores : Stores Unit} (h : CurrentRows expired stores.memories)

include h

theorem search_current : stores.memories.search .ascii matchingEngine.distance () 60 userFilters =
    .ok [⟨currentMemory, 1⟩] := by
  unfold Table.search
  rw [h, select_user]
  cases expired <;>
    simp [bind, Except.bind, pure, Except.pure, topK, ranked, currentMemory, expiredMemory, idMatches,
      Payload.text, Value.sqlText, matchingEngine]

theorem keywordSearch_current :
    stores.memories.keywordSearch .ascii matchingEngine.textRank "q" 60 userFilters =
      some (if expired then [⟨expiredMemory, (1 : ℚ)⟩] else []) := by
  unfold Table.keywordSearch
  rw [h, select_user]
  cases expired <;> rfl

theorem searchPendingEmbeddings_current :
    searchPendingEmbeddings matchingEngine stores.memories "q" userFilters 10 0 false = .ok [] := by
  have hselect : ∀ rows : List (Row Unit), Table.select .ascii (pendingFilters userFilters) rows =
      .ok (rows.filter fun row => idMatches .ascii row.payload "user_id" "u" &&
        (idMatches .ascii row.payload "embedding_status" "pending" && true)) :=
    select_ids (by decide : ∀ e ∈ [("user_id", "u"), ("embedding_status", "pending")],
      e.1 ≠ "$or" ∧ e.1 ≠ "$not")
  have hnone : stores.memories.keywordSearch matchingEngine.platform matchingEngine.textRank
      (matchingEngine.lemmatize "q") (internalLimit 10) (pendingFilters userFilters) = some [] := by
    change stores.memories.keywordSearch .ascii matchingEngine.textRank "q" 60 _ = _
    unfold Table.keywordSearch
    rw [h, hselect]
    cases expired <;> rfl
  have hexcl : excludesPending userFilters = false := rfl
  have hcjk : hasCjkRun "q" = false := by decide
  simp only [searchPendingEmbeddings, hexcl, hcjk, Bool.false_eq_true, ↓reduceIte, hnone]
  rfl

/-- The one result, whose score is halved when the expired row is there. -/
theorem denseResults_current :
    denseResults matchingEngine constantEmbedder stores "q" () userFilters 10 0 false =
      (formatItem "a" (if expired then (1 / 2 : ℚ) else 1) currentMemory.payload).map ([·]) := by
  have hbm25 : bm25Scores matchingEngine "q" (some (if expired then [⟨expiredMemory, 1⟩] else [])) =
      if expired then [("b", 1)] else [] := by
    cases expired <;> rfl
  have hscore : combinedScore matchingEngine (if expired then [("b", 1)] else []) []
      ⟨currentMemory, 1⟩ = if expired then 1 / 2 else 1 := by
    have hlookup : List.lookup "a" [("b", (1 : ℚ))] = none := rfl
    cases expired <;> norm_num [combinedScore, maxPossible, currentMemory, hlookup]
  have hrank : scoreAndRank matchingEngine [⟨currentMemory, 1⟩] (if expired then [("b", 1)] else []) []
      0 10 = [⟨currentMemory, if expired then 1 / 2 else 1⟩] := by
    rw [← hscore]
    rfl
  have hplatform : matchingEngine.platform = .ascii := rfl
  have hlimit : internalLimit 10 = 60 := rfl
  have hlemmatize : matchingEngine.lemmatize "q" = "q" := rfl
  unfold denseResults
  simp only [hplatform, hlimit, hlemmatize, search_current h, keywordSearch_current h, hbm25]
  change formatResults (scoreAndRank matchingEngine [⟨currentMemory, 1⟩]
    (if expired then [("b", 1)] else []) [] 0 10) = _
  rw [hrank]
  rfl

theorem search_currentRows :
    search matchingEngine constantEmbedder none stores userRequest =
      (formatItem "a" (if expired then (1 / 2 : ℚ) else 1) currentMemory.payload).map ([·]) := by
  have hvalidate : validateSearch userRequest = .ok "q" := by
    norm_num [validateSearch, userRequest]
    decide
  have hvector : searchVectorStore matchingEngine constantEmbedder stores "q" userFilters 10 0 false =
      (do
        let primary ← denseResults matchingEngine constantEmbedder stores "q" () userFilters 10 0 false
        let pending ← searchPendingEmbeddings matchingEngine stores.memories "q" userFilters 10 0 false
        pure (mergeMemorySearchResults primary pending 10)) := rfl
  unfold search
  rw [hvalidate]
  change (do
    let original ← searchVectorStore matchingEngine constantEmbedder stores "q" userFilters 10 0 false
    pure (applyReranker none false "q" 10 original)) = _
  rw [hvector, denseResults_current h, searchPendingEmbeddings_current h]
  rfl

end

/-- An expired row that matches the words of the query halves the score of the one visible result. -/
theorem expired_match_halves_score :
    (search matchingEngine constantEmbedder none expiringStores userRequest).map
      (List.map fun item => (item.id, item.score)) = .ok [("a", 1 / 2)] ∧
    (search matchingEngine constantEmbedder none (expiringStores.unexpired matchingEngine)
      userRequest).map (List.map fun item => (item.id, item.score)) = .ok [("a", 1)] := by
  have hboth : CurrentRows true expiringStores.memories := rfl
  have hone : CurrentRows false (expiringStores.unexpired matchingEngine).memories := rfl
  rw [search_currentRows hboth, search_currentRows hone]
  exact ⟨rfl, rfl⟩

end YiQiao
