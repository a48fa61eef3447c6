import YiQiao.Lib.Slices
import YiQiao.Server.Deduplicate

/-!
# The pages of the dashboard

`POST /memories/query` filters the memories of a project, counts their categories and returns one page. The counts are
of categories as they are spelled, and a chosen category is compared without blanks and case.
-/

namespace YiQiao

open Lib Fallible

variable {V : Type}

/-! ## Comparison -/

/-- The number Python compares. -/
def Value.numeric : Value → Option ℚ
  | .bool b => some (if b then 1 else 0)
  | .num mantissa scale => some (mantissa / 10 ^ scale)
  | _ => none

mutual
/-- `==`. -/
def Value.pyEq : Value → Value → Bool
  | .null, .null => true
  | .str s, .str t => s = t
  | .list xs, .list ys => Value.pyEqItems xs ys
  | .dict d, .dict e => d.length = e.length && Value.pyEqFields d e
  | v, w => match v.numeric, w.numeric with
    | some q, some r => q = r
    | _, _ => false

def Value.pyEqItems : List Value → List Value → Bool
  | [], [] => true
  | v :: vs, w :: ws => v.pyEq w && Value.pyEqItems vs ws
  | _, _ => false

def Value.pyEqFields : List (String × Value) → List (String × Value) → Bool
  | [], _ => true
  | (key, v) :: fields, e => (match e.lookup key with
    | some w => v.pyEq w
    | none => false) && Value.pyEqFields fields e
end

/-! ## Memories -/

/-- The keys of a payload that are no metadata. -/
def reservedKeys : List String :=
  ["data", "user_id", "agent_id", "app_id", "run_id", "hash", "project_id", "created_at", "updated_at",
    "expiration_date", "categories", "category", "metadata", "text_lemmatized"]

/-- A memory of the dashboard. -/
structure DashboardMemory extends ExportedMemory where
  metadata : Entries

/-- `_serialize`, with the metadata. -/
def serializeDashboard (P : Platform) (row : Row V) : DashboardMemory where
  toExportedMemory := serializeRow P row
  metadata := Dict.erase "category" (Dict.erase "categories"
    (Dict.update row.payload.nested (row.payload.filter fun e => e.1 ∉ reservedKeys)))

/-- What a query asks of dates beside their order. -/
structure QueryReader extends DashboardReader where
  /-- `_parse_datetime(value)[0]`. -/
  instant : String → Except PyError ℤ
  /-- `_parse_datetime(value, end_of_date=True)`. -/
  endInstant : String → Except PyError (ℤ × Bool)

/-! ## Queries -/

inductive OwnerField where
  | user
  | agent
  | app
  | run

inductive FilterField where
  | entity (kind : OwnerField)
  | memoryId
  | category
  | metadata (key : String)

structure MemoryFilter where
  field : FilterField
  value : Value
  given : value ≠ .null
  filled : ∀ s, value = .str s → strip s ≠ ""

structure MemoryQuery where
  page : Nat
  pageSize : Nat
  /-- `match == "all"`. -/
  matchAll : Bool
  filters : List MemoryFilter
  category : Option String
  startDate : Option String
  endDate : Option String
  paged : 0 < page ∧ 0 < pageSize ∧ pageSize ≤ 100
  few : filters.length ≤ 50
  chosen : ∀ c ∈ category, strip c = c ∧ c ≠ ""

namespace MemoryQuery

/-- `normalize_category`. -/
def normalizeCategory (name : String) : Option String := if strip name = "" then none else some (strip name)

/-- The query with a category; longer names are refused. -/
def choose (q : MemoryQuery) (name : String) : Option MemoryQuery :=
  if name.length ≤ 255 then
    some { q with
      category := normalizeCategory name
      chosen := by
        intro c hc
        unfold normalizeCategory at hc
        split at hc
        · cases hc
        · cases hc
          exact ⟨strip_strip name, by assumption⟩ }
  else none

/-- The query for another page. -/
def atPage (q : MemoryQuery) (i : Nat) : MemoryQuery :=
  { q with page := i + 1, paged := ⟨i.succ_pos, q.paged.2⟩ }

end MemoryQuery

/-- `_values_equal`. -/
def valuesEqual (R : QueryReader) : Value → Value → Bool
  | .str actual, .str expected => R.casefold (strip actual) = R.casefold (strip expected)
  | actual, expected => actual.pyEq expected

/-- `_metadata_value`. -/
def metadataValue (metadata : Entries) (path : String) : Option Value :=
  (path.splitOn ".").foldlM (fun current part =>
    if strip part = "" then none
    else match current with
      | .dict entries => entries.lookup (strip part)
      | _ => none) (.dict metadata)

def DashboardMemory.entity (m : DashboardMemory) : OwnerField → Value
  | .user => m.userId
  | .agent => m.agentId
  | .app => m.appId
  | .run => m.runId

/-- `_matches_filter`. -/
def matchesFilter (R : QueryReader) (m : DashboardMemory) (f : MemoryFilter) : Bool :=
  match f.field with
  | .entity kind => valuesEqual R (m.entity kind) f.value
  | .memoryId => valuesEqual R (.str m.id) f.value
  | .category => m.categories.any fun c => valuesEqual R (.str c) f.value
  | .metadata key => (metadataValue m.metadata key).any fun actual => valuesEqual R actual f.value

/-- A date that is given. -/
def givenDate (date : Option String) : Option String := date.filter (· ≠ "")

/-- A date that cannot be read is out of every range. -/
def unreadable : Except PyError Bool → Except PyError Bool
  | .error (.valueError _) | .error .typeError => .ok false
  | r => r

/-- `_in_date_range`. -/
def inDateRange (R : QueryReader) (q : MemoryQuery) (m : DashboardMemory) : Except PyError Bool :=
  if (givenDate q.startDate).isNone && (givenDate q.endDate).isNone then .ok true
  else if !m.createdAt.truthy then .ok false
  else unreadable (match m.createdAt with
    | .str text => do
        let created ← R.instant text
        let starts ← match givenDate q.startDate with
          | none => pure true
          | some date => (R.instant date).map fun start => decide (start ≤ created)
        if !starts then pure false
        else match givenDate q.endDate with
          | none => pure true
          | some date => (R.endInstant date).map fun bound =>
              if bound.2 then decide (created < bound.1) else decide (created ≤ bound.1)
    | _ => .error (.valueError "Date range boundaries must be ISO 8601 strings."))

/-- The memories in the range of dates. -/
def keepDated (dates : DashboardMemory → Except PyError Bool) :
    List DashboardMemory → Except PyError (List DashboardMemory)
  | [] => .ok []
  | m :: memories => do
      let dated ← dates m
      let rest ← keepDated dates memories
      pure (if dated then m :: rest else rest)

/-- The memories a query filters, before it looks at its category. -/
def selectMemories (R : QueryReader) (q : MemoryQuery) (memories : List DashboardMemory) :
    Except PyError (List DashboardMemory) := do
  let dated ← keepDated (inDateRange R q) memories
  if q.filters.isEmpty then pure dated
  else pure (dated.filter fun m =>
    if q.matchAll then q.filters.all (matchesFilter R m) else q.filters.any (matchesFilter R m))

structure CategoryFacet where
  name : String
  count : Nat
  deriving DecidableEq

structure QueryResponse where
  results : List DashboardMemory
  total : Nat
  totalPages : Nat
  facetTotal : Nat
  categories : List CategoryFacet

/-- The counts of the categories, the largest first. -/
def categoryFacets (R : QueryReader) (memories : List DashboardMemory) : List CategoryFacet :=
  let all := memories.flatMap fun m => m.categories
  ranked (fun a b => b.count < a.count ∨ b.count = a.count ∧ R.casefold a.name ≤ R.casefold b.name)
    ((firstsBy id all).map fun name => ⟨name, all.count name⟩)

/-- The memories of the chosen category. -/
def ofCategory (R : QueryReader) (category : Option String) (memories : List DashboardMemory) :
    List DashboardMemory :=
  match category with
  | none => memories
  | some name => memories.filter fun m => m.categories.any fun c => valuesEqual R (.str c) (.str name)

/-- The newest first. -/
def newestFirst (R : QueryReader) (memories : List DashboardMemory) : List DashboardMemory :=
  ranked (fun a b => ageKey R.toDashboardReader b.toExportedMemory ≤ ageKey R.toDashboardReader a.toExportedMemory)
    memories

/-- `_query_rows`. -/
def queryRows (R : QueryReader) (memories : List DashboardMemory) (q : MemoryQuery) : Except PyError QueryResponse := do
  let filtered ← selectMemories R q memories
  let sorted := newestFirst R (ofCategory R q.category filtered)
  pure {
    results := slice q.pageSize sorted (q.page - 1)
    total := sorted.length
    totalPages := if sorted.isEmpty then 0 else sliceCount q.pageSize sorted
    facetTotal := filtered.length
    categories := categoryFacets R filtered }

/-! ## The two laws -/

/-- The pages of a query are slices of one order of the memories it selects. -/
def Partitioned (R : QueryReader) (memories : List DashboardMemory) (q : MemoryQuery) : Prop :=
  ∀ filtered, selectMemories R q memories = .ok filtered →
    ∃ pages : List (List DashboardMemory), pages.flatten.Perm (ofCategory R q.category filtered) ∧
      ∀ i, ∃ response, queryRows R memories (q.atPage i) = .ok response ∧ response.totalPages = pages.length ∧
        response.total = pages.flatten.length ∧ response.results = pages[i]?.getD []

/-- Each facet counts what the query gives when its name is chosen. -/
def FacetsAgree (R : QueryReader) (memories : List DashboardMemory) (q : MemoryQuery) : Prop :=
  ∀ response, queryRows R memories q = .ok response → ∀ facet ∈ response.categories,
    ∀ chosen, q.choose facet.name = some chosen →
      ∃ response', queryRows R memories chosen = .ok response' ∧ response'.total = facet.count

/-- A memory with a spelling of a category that can be chosen has the category itself. -/
def SpelledAlike (R : QueryReader) (memories : List DashboardMemory) (q : MemoryQuery) : Prop :=
  ∀ filtered, selectMemories R q memories = .ok filtered →
    ∀ m ∈ filtered, ∀ name ∈ m.categories, name.length ≤ 255 → ∀ m' ∈ filtered, ∀ c ∈ m'.categories,
      R.casefold (strip c) = R.casefold (strip name) → name ∈ m'.categories

/-! ## Pages -/

section

variable {R : QueryReader} {memories filtered : List DashboardMemory} {q : MemoryQuery}

theorem queryRows_ok (h : selectMemories R q memories = .ok filtered) :
    queryRows R memories q = .ok {
      results := slice q.pageSize (newestFirst R (ofCategory R q.category filtered)) (q.page - 1)
      total := (newestFirst R (ofCategory R q.category filtered)).length
      totalPages := if (newestFirst R (ofCategory R q.category filtered)).isEmpty then 0
        else sliceCount q.pageSize (newestFirst R (ofCategory R q.category filtered))
      facetTotal := filtered.length
      categories := categoryFacets R filtered } := by
  rw [queryRows, h]
  rfl

theorem sliceCount_nil {α : Type} {k : Nat} (hk : 0 < k) : sliceCount k ([] : List α) = 0 := by
  simp [sliceCount, hk]

theorem query_partitioned (R : QueryReader) (memories : List DashboardMemory) (q : MemoryQuery) :
    Partitioned R memories q := by
  intro filtered hfiltered
  have hsize : 0 < q.pageSize := q.paged.2.1
  refine ⟨slices q.pageSize (newestFirst R (ofCategory R q.category filtered)), ?_, ?_⟩
  · rw [flatten_slices hsize]
    exact ranked_perm _
  · intro i
    refine ⟨_, queryRows_ok (q := q.atPage i) hfiltered, ?_, ?_, ?_⟩
    · rw [length_slices]
      change (if (newestFirst R (ofCategory R q.category filtered)).isEmpty then 0 else _) = _
      split
      · rename_i hempty
        rw [List.isEmpty_iff.mp hempty, sliceCount_nil hsize]
      · rfl
    · rw [flatten_slices hsize]
      rfl
    · by_cases hi : i < sliceCount q.pageSize (newestFirst R (ofCategory R q.category filtered))
      · simp [slices, MemoryQuery.atPage, hi]
      · simp [slices, MemoryQuery.atPage, hi, slice_eq_nil hsize (Nat.le_of_not_lt hi)]

/-! ## Facets -/

theorem countP_eq_iff {α : Type} {p p' : α → Bool} {l : List α} (h : ∀ a ∈ l, p a = true → p' a = true) :
    l.countP p' = l.countP p ↔ ∀ a ∈ l, p' a = true → p a = true := by
  induction l with
  | nil => simp
  | cons a l ih =>
    obtain ⟨ha, hl⟩ := List.forall_mem_cons.mp h
    have hle : l.countP p ≤ l.countP p' := List.countP_mono_left hl
    rw [List.countP_cons, List.countP_cons, List.forall_mem_cons, ← ih hl]
    by_cases hp : p a = true
    · simp [hp, ha hp]
    · by_cases hp' : p' a = true
      · simp only [hp, hp', ↓reduceIte, forall_const, Bool.false_eq_true, false_and, iff_false, add_zero]
        omega
      · simp [hp, hp']

theorem mem_categoryFacets {facet : CategoryFacet} :
    facet ∈ categoryFacets R filtered ↔ (∃ m ∈ filtered, facet.name ∈ m.categories) ∧
      facet.count = (filtered.flatMap fun m => m.categories).count facet.name := by
  rw [categoryFacets, mem_ranked, List.mem_map]
  constructor
  · rintro ⟨name, hname, rfl⟩
    have hmem := (firstsBy_sublist _).subset hname
    exact ⟨by simpa using hmem, rfl⟩
  · rintro ⟨hname, hcount⟩
    refine ⟨facet.name, ?_, ?_⟩
    · have hkey := @key_mem_firstsBy _ _ _ id _ facet.name (List.mem_flatMap.mpr hname)
      simpa using hkey
    · rw [← hcount]

theorem count_categories {name : String} (hnodup : ∀ m ∈ filtered, m.categories.Nodup) :
    (filtered.flatMap fun m => m.categories).count name = filtered.countP fun m => decide (name ∈ m.categories) := by
  induction filtered with
  | nil => rfl
  | cons m filtered ih =>
    obtain ⟨hm, hrest⟩ := List.forall_mem_cons.mp hnodup
    rw [List.flatMap_cons, List.count_append, ih hrest, List.countP_cons, hm.count]
    by_cases hname : name ∈ m.categories <;> simp [hname, Nat.add_comm]

theorem keepDated_subset {dates : DashboardMemory → Except PyError Bool}
    (h : keepDated dates memories = .ok filtered) : filtered ⊆ memories := by
  induction memories generalizing filtered with
  | nil =>
    cases h
    exact List.Subset.refl _
  | cons m memories ih =>
    simp only [keepDated, bind_ok, pure_ok] at h
    obtain ⟨dated, _, rest, hrest, rfl⟩ := h
    have hsubset := List.subset_cons_of_subset m (ih hrest)
    split
    · exact List.cons_subset.mpr ⟨List.mem_cons_self, hsubset⟩
    · exact hsubset

theorem selectMemories_subset (h : selectMemories R q memories = .ok filtered) : filtered ⊆ memories := by
  simp only [selectMemories, bind_ok] at h
  obtain ⟨dated, hdated, hfiltered⟩ := h
  split at hfiltered
  · cases hfiltered
    exact keepDated_subset hdated
  · cases hfiltered
    exact List.Subset.trans (List.filter_subset_self _) (keepDated_subset hdated)

theorem choose_eq {name : String} {chosen : MemoryQuery} (hname : strip name = name ∧ name ≠ "")
    (h : q.choose name = some chosen) :
    name.length ≤ 255 ∧ chosen.category = some name ∧
      ∀ memories, selectMemories R chosen memories = selectMemories R q memories := by
  unfold MemoryQuery.choose at h
  split at h
  · rename_i hlength
    cases h
    refine ⟨hlength, ?_, ?_⟩
    · simp [MemoryQuery.normalizeCategory, hname]
    · intro memories
      rfl
  · cases h

/-- The total of a chosen category counts the memories with a spelling of it. -/
theorem total_choose {name : String} {chosen : MemoryQuery} (hfiltered : selectMemories R q memories = .ok filtered)
    (hname : strip name = name ∧ name ≠ "") (h : q.choose name = some chosen) :
    ∃ response, queryRows R memories chosen = .ok response ∧
      response.total = filtered.countP fun m =>
        m.categories.any fun c => decide (R.casefold (strip c) = R.casefold (strip name)) := by
  obtain ⟨_, hcategory, hselect⟩ := choose_eq (R := R) hname h
  refine ⟨_, queryRows_ok ((hselect memories).trans hfiltered), ?_⟩
  rw [newestFirst, length_ranked, hcategory, List.countP_eq_length_filter]
  rfl

/-- The facets agree with the totals where each category has one spelling. -/
theorem facetsAgree_iff (htidy : ∀ m ∈ memories, m.Tidied) (hnodup : ∀ m ∈ memories, m.categories.Nodup) :
    FacetsAgree R memories q ↔ SpelledAlike R memories q := by
  have hcounts : ∀ filtered, selectMemories R q memories = .ok filtered → ∀ name,
      (filtered.countP fun m => m.categories.any fun c => decide (R.casefold (strip c) = R.casefold (strip name))) =
        (filtered.flatMap fun m => m.categories).count name ↔
      ∀ m ∈ filtered, ∀ c ∈ m.categories, R.casefold (strip c) = R.casefold (strip name) → name ∈ m.categories := by
    intro filtered hfiltered name
    rw [count_categories fun m hm => hnodup m (selectMemories_subset hfiltered hm), countP_eq_iff]
    · simp
    · intro m _ hm
      exact List.any_eq_true.mpr ⟨name, by simpa using hm, by simp⟩
  constructor
  · intro hagree filtered hfiltered m hm name hname hlength
    have htidied := htidy m (selectMemories_subset hfiltered hm) name hname
    have hchoose : (q.choose name).isSome := by simp [MemoryQuery.choose, hlength]
    obtain ⟨chosen, hchosen⟩ := Option.isSome_iff_exists.mp hchoose
    have hfacet : ⟨name, (filtered.flatMap fun m => m.categories).count name⟩ ∈ categoryFacets R filtered :=
      mem_categoryFacets.mpr ⟨⟨m, hm, hname⟩, rfl⟩
    obtain ⟨response, hresponse, htotal⟩ := hagree _ (queryRows_ok hfiltered) _ hfacet chosen hchosen
    obtain ⟨response', hresponse', htotal'⟩ := total_choose hfiltered htidied hchosen
    rw [hresponse'] at hresponse
    cases hresponse
    exact (hcounts filtered hfiltered name).mp (htotal' ▸ htotal)
  · intro halike response hresponse facet hfacet chosen hchosen
    cases hfiltered : selectMemories R q memories with
    | error e => simp [queryRows, hfiltered, bind, Except.bind] at hresponse
    | ok filtered =>
      rw [queryRows_ok hfiltered] at hresponse
      cases hresponse
      obtain ⟨⟨m, hm, hname⟩, hcount⟩ := mem_categoryFacets.mp hfacet
      have htidied := htidy m (selectMemories_subset hfiltered hm) facet.name hname
      obtain ⟨response', hresponse', htotal'⟩ := total_choose hfiltered htidied hchosen
      have hlength := (choose_eq (R := R) htidied hchosen).1
      refine ⟨response', hresponse', ?_⟩
      rw [htotal', hcount, hcounts filtered hfiltered]
      exact halike filtered hfiltered m hm facet.name hname hlength

theorem stored_facetsAgree_iff {P : Platform} {stored : List (Row V)} :
    FacetsAgree R (stored.map (serializeDashboard P)) q ↔ SpelledAlike R (stored.map (serializeDashboard P)) q := by
  apply facetsAgree_iff
  · intro m hm
    obtain ⟨row, _, rfl⟩ := List.mem_map.mp hm
    exact serializeRow_tidied row
  · intro m hm
    obtain ⟨row, _, rfl⟩ := List.mem_map.mp hm
    exact serializeRow_nodup row

end

/-- The pages of every query partition its memories; the facets agree where each category has one spelling. -/
theorem dashboard_query_iff (P : Platform) (R : QueryReader) (stored : List (Row V)) (q : MemoryQuery) :
    Partitioned R (stored.map (serializeDashboard P)) q ∧
      (FacetsAgree R (stored.map (serializeDashboard P)) q ↔ SpelledAlike R (stored.map (serializeDashboard P)) q) := by
  constructor
  · exact query_partitioned R _ q
  · exact stored_facetsAgree_iff

/-- A reader that lowers letters and knows no dates. -/
def QueryReader.plain : QueryReader where
  casefold := String.toLower
  timestamp := fun _ => none
  instant := fun _ => .error (.valueError "")
  endInstant := fun _ => .error (.valueError "")

/-- The first page of everything. -/
def MemoryQuery.everything : MemoryQuery where
  page := 1
  pageSize := 20
  matchAll := true
  filters := []
  category := none
  startDate := none
  endDate := none
  paged := by decide
  few := by decide
  chosen := by simp

/-- Two memories of one category that is spelled in two ways. -/
def twoSpellings : List (Row Unit) :=
  [⟨"1", none, [("data", .str "Flies on Friday"), ("categories", .list [.str "Travel"])]⟩,
    ⟨"2", none, [("data", .str "Prefers trains"), ("categories", .list [.str "travel"])]⟩]

theorem facets_disagree :
    ¬ FacetsAgree .plain (twoSpellings.map (serializeDashboard .ascii)) .everything := by
  rw [stored_facetsAgree_iff]
  intro halike
  have hmem := halike (twoSpellings.map (serializeDashboard .ascii)) rfl
    (serializeDashboard .ascii ⟨"1", none, [("data", .str "Flies on Friday"), ("categories", .list [.str "Travel"])]⟩)
    List.mem_cons_self "Travel" (by decide +kernel) (by decide)
    (serializeDashboard .ascii ⟨"2", none, [("data", .str "Prefers trains"), ("categories", .list [.str "travel"])]⟩)
    (List.mem_cons_of_mem _ List.mem_cons_self) "travel" (by decide +kernel) (by decide +kernel)
  revert hmem
  decide +kernel

end YiQiao
