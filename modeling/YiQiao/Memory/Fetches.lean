import Mathlib.Data.List.Dedup
import YiQiao.Memory.Expiry
import YiQiao.Memory.Finding

/-!
# What a limited listing reaches

`Memory.get_all` hides expired memories after it has fetched a limited number of rows. The lookups of hashes and
of import keys list a limited number of rows where the store has no lookup of its own.
-/

namespace YiQiao

open Lib Filters Fallible

variable {V S : Type}

/-! ## Listing -/

/-- The rows a listing shows. -/
def shown (E : Engine V S) (showExpired : Bool) (rows : List (Row V)) : List (Row V) :=
  rows.filter fun row => !hidden E showExpired row.payload

/-- How many rows `Memory.get_all` fetches. -/
def fetchLimit (limit : Nat) (showExpired : Bool) : Nat := if showExpired then limit else internalLimit limit

/-- The rows fetched hold enough to show, or there is nothing to show behind them; where nothing is asked for, they
hold nothing. -/
def FetchSuffices (E : Engine V S) (limit : Nat) (showExpired : Bool) (matching : List (Row V)) : Prop :=
  if limit = 0 then shown E showExpired (matching.take (fetchLimit 0 showExpired)) = []
  else limit ≤ (shown E showExpired (matching.take (fetchLimit limit showExpired))).length ∨
    shown E showExpired (matching.drop (fetchLimit limit showExpired)) = []

section

variable {E : Engine V S} {t : Table V} {filters effective : Entries} {limit : Nat} {showExpired : Bool}
  {matching : List (Row V)}

/-- One memory is formatted before the limit is looked at. -/
theorem formatUpTo_length {formatted : Nat} {rows : List (Row V)} {items : List (MemoryItem Unit)}
    (h : formatUpTo limit formatted rows = .ok items) : items.length = min (max 1 (limit - formatted)) rows.length := by
  induction rows generalizing formatted items with
  | nil =>
    cases h
    simp
  | cons row rows ih =>
    simp only [formatUpTo, bind_ok] at h
    obtain ⟨item, -, h⟩ := h
    split at h
    · cases h
      simp only [List.length_cons, List.length_nil]
      omega
    · simp only [bind_ok, pure_ok] at h
      obtain ⟨items, hitems, rfl⟩ := h
      have hrest := ih hitems
      simp only [List.length_cons]
      omega

theorem formatUpTo_total {formatted : Nat} {rows : List (Row V)} (h : ∀ row ∈ rows, row.payload.Formats) :
    ∃ items, formatUpTo limit formatted rows = .ok items := by
  induction rows generalizing formatted with
  | nil => exact ⟨[], rfl⟩
  | cons row rows ih =>
    obtain ⟨⟨item, hitem⟩, hrest⟩ := List.forall_mem_cons.mp h
    obtain ⟨item', hitem'⟩ := formatItem_ok hitem row.id ()
    obtain ⟨items, hitems⟩ := @ih (formatted + 1) hrest
    simp only [formatUpTo, hitem', bind, Except.bind, hitems]
    split
    · exact ⟨_, rfl⟩
    · exact ⟨_, rfl⟩

theorem getAll_eq (hfilters : validateFilters filters = .ok effective) (htelemetry : telemetryFilters effective = .ok ())
    (hselect : Table.select E.platform effective t.rows = .ok matching) :
    getAll E t filters limit showExpired =
      formatUpTo limit 0 (shown E showExpired (matching.take (fetchLimit limit showExpired))) := by
  rw [getAll, if_neg (by omega), hfilters]
  simp only [bind, Except.bind, htelemetry, Table.list, hselect, Int.toNat_natCast]
  rfl

theorem shown_split (n : Nat) : (shown E showExpired matching).length =
    (shown E showExpired (matching.take n)).length + (shown E showExpired (matching.drop n)).length := by
  rw [← List.length_append, shown, shown, shown, ← List.filter_append, List.take_append_drop]

/-- A listing answers as many memories as it is asked for, or all, exactly when the rows it fetches suffice. -/
theorem getAll_length_iff (E : Engine V S) (t : Table V) (limit : Nat) (showExpired : Bool)
    (hfilters : validateFilters filters = .ok effective) (htelemetry : telemetryFilters effective = .ok ())
    (hselect : Table.select E.platform effective t.rows = .ok matching) :
    ((∀ row ∈ matching, row.payload.Formats) → ∃ items, getAll E t filters limit showExpired = .ok items) ∧
    ∀ items, getAll E t filters limit showExpired = .ok items →
      (items.length = min limit (shown E showExpired matching).length ↔
        FetchSuffices E limit showExpired matching) := by
  rw [getAll_eq hfilters htelemetry hselect]
  constructor
  · intro hformats
    apply formatUpTo_total
    intro row hrow
    exact hformats row (List.mem_of_mem_take (List.mem_of_mem_filter hrow))
  · intro items hitems
    have hlength := formatUpTo_length hitems
    have hsplit := @shown_split _ _ E showExpired matching (fetchLimit limit showExpired)
    rw [Nat.sub_zero] at hlength
    unfold FetchSuffices
    split
    · rename_i hzero
      subst hzero
      rw [← List.length_eq_zero_iff]
      omega
    · rw [← List.length_eq_zero_iff]
      omega

end

/-- One row that is listed, asked for nothing. -/
theorem getAll_length_iff_none : ∃ items : List (MemoryItem Unit),
    getAll matchingEngine expiringStores.memories userFilters 1 false = .ok items ∧ items.length = 1 := by
  have hselect : Table.select .ascii userFilters expiringStores.memories.rows =
      .ok [currentMemory, expiredMemory] := select_user _
  obtain ⟨htotal, hlength⟩ := getAll_length_iff matchingEngine expiringStores.memories 1 false
    (show validateFilters userFilters = .ok userFilters from rfl) rfl hselect
  obtain ⟨items, hitems⟩ := htotal (by
    intro row hrow
    rcases List.mem_pair.mp hrow with rfl | rfl
    · exact ⟨_, rfl⟩
    · exact ⟨_, rfl⟩)
  refine ⟨items, hitems, ?_⟩
  rw [(hlength items hitems).mpr (.inl (by decide))]
  decide

/-- A listing that is asked for nothing answers one memory. -/
theorem getAll_of_none : ¬ ∀ (E : Engine Unit ℚ) (t : Table Unit) (filters effective : Entries) (limit : Nat)
    (showExpired : Bool) (matching : List (Row Unit)), validateFilters filters = .ok effective →
    telemetryFilters effective = .ok () → Table.select E.platform effective t.rows = .ok matching →
    ∀ items, getAll E t filters limit showExpired = .ok items →
      items.length = min limit (shown E showExpired matching).length := by
  intro h
  have hlisted : ∃ item, getAll matchingEngine expiringStores.memories userFilters (0 : Nat) false = .ok [item] := by
    rw [getAll_eq rfl rfl (select_user _)]
    exact ⟨_, rfl⟩
  obtain ⟨item, hitem⟩ := hlisted
  have hnone := h matchingEngine expiringStores.memories userFilters userFilters 0 false _ rfl rfl (select_user _) _ hitem
  rw [Nat.zero_min] at hnone
  cases hnone

/-! ## Looking values up by listing -/

/-- `_existing_payload_values` where the store has no lookup, or it fails: one listing of the candidates, or where
that fails one for each. -/
def listedPayloadValues (P : Platform) (t : Table V) (key : String) (values : List String) (filters : Entries) :
    List String :=
  let candidates := values.dedup
  let rows := match t.list P (Dict.set key (.list (candidates.map .str)) filters) candidates.length with
    | .ok rows => rows
    | .error _ => candidates.flatMap fun c =>
        match t.list P (Dict.set key (.str c) filters) 1 with
        | .ok rows => rows
        | .error _ => []
  candidates.filter fun c =>
    rows.any fun row => !row.payload.isEmpty && (Payload.get row.payload key).pyStr P == c

/-- Python cannot hash it. -/
def Value.unhashable : Value → Bool
  | .list _ => true
  | .dict _ => true
  | _ => false

/-- `_batch_existing_import_keys` where the store has no lookup. -/
def listedImportKeys (P : Platform) (t : Table V) (project : String) (values : List String) :
    Except PyError (List String) := do
  let keys := values.dedup
  if keys = [] then pure []
  else do
    let rows ← t.list P (idFilters [("project_id", project)]) (max 1000 (keys.length * 20))
    if rows.any fun row => (Payload.get row.payload "import_key").unhashable then .error .typeError
    else pure (keys.filter fun c => rows.any fun row => (Payload.get row.payload "import_key").isText c)

section

variable {P : Platform} {t : Table V} {ids : List (String × String)} {key : String} {values : List String}

theorem existingPayloadValues_ids (hkeys : ∀ e ∈ ids, e.1 ≠ "$or" ∧ e.1 ≠ "$not") :
    existingPayloadValues P t key values (idFilters ids) = values.filter fun c =>
      (t.rows.filter fun row => carriesIds P ids row.payload).any fun row => row.payload.text P key == some c := by
  rw [existingPayloadValues, select_ids hkeys]
  rfl

/-- A listing of candidates in a scope. -/
theorem list_candidates (hkeys : ∀ e ∈ ids, e.1 ≠ "$or" ∧ e.1 ≠ "$not") (hnew : key ∉ ids.map Prod.fst)
    (hkey : key ≠ "$or" ∧ key ≠ "$not") (texts : List String) (limit : Nat) :
    t.list P (Dict.set key (.list (texts.map .str)) (idFilters ids)) limit =
      .ok (((t.rows.filter fun row => carriesIds P ids row.payload).filter
        fun row => (row.payload.text P key).any texts.contains).take limit) := by
  have htexts : (texts.map Value.str).map (Value.pyStr P) = texts := by
    rw [List.map_map]
    exact List.map_id _
  have hlast : buildFilterConditions P [(key, .list (texts.map .str))] = .ok [.atom (.inList key texts)] := by
    simp [buildFilterConditions, buildEntry, hkey.1, hkey.2, buildField, htexts, bind, Except.bind, pure, Except.pure]
  have hbuild := buildFilterConditions_append_ok (buildFilterConditions_ids P hkeys) hlast
  rw [← keys_idFilters] at hnew
  have hsafe : (t.rows.any fun row => (Kleene.Expr.atomsList (ids.map (fun e => Kleene.Expr.atom (idTest e.1 e.2)) ++
      [.atom (.inList key texts)])).any (Test.fails P row.payload)) = false := by
    have hlist : ∀ payload, (Test.inList key texts).fails P payload = false := fun _ => rfl
    simp [Kleene.Expr.atomsList_append, atoms_ids, idTest_fails, Kleene.Expr.atomsList, Kleene.Expr.atoms, hlist]
  rw [Table.list, Table.select, Dict.set_of_notMem hnew, hbuild]
  simp only [bind, Except.bind, hsafe, Bool.false_eq_true, if_false, pure, Except.pure]
  rw [List.filter_filter]
  congr 2
  apply List.filter_congr
  intro row _
  rw [Bool.eq_iff_iff, selects_append, Bool.and_eq_true, selects_ids, and_comm, selects_iff]
  apply and_congr_left
  intro _
  simp only [Kleene.Expr.atomsList, Kleene.Expr.atoms, List.mem_singleton, forall_eq, Kleene.Expr.eval, Test.value]
  cases row.payload.text P key with
  | none => simp [Test.fails]
  | some text => simp [Test.fails]

/-- The rows in a scope. -/
def within (P : Platform) (ids : List (String × String)) (rows : List (Row V)) : List (Row V) :=
  rows.filter fun row => carriesIds P ids row.payload

/-- The rows in a scope that carry a candidate. -/
def carrying (P : Platform) (ids : List (String × String)) (key : String) (values : List String)
    (rows : List (Row V)) : List (Row V) :=
  (within P ids rows).filter fun row => (row.payload.text P key).any values.contains

/-- Every candidate that a row of the scope carries is carried by one of the first such rows, as many as there are
candidates. -/
def EachReached (P : Platform) (t : Table V) (ids : List (String × String)) (key : String) (values : List String) :
    Prop :=
  ∀ c ∈ values, (∃ row ∈ within P ids t.rows, row.payload.text P key = some c) →
    ∃ row ∈ (carrying P ids key values t.rows).take values.dedup.length, row.payload.text P key = some c

/-- What a listing of a project's import keys fetches. -/
def fetchedKeys (P : Platform) (t : Table V) (project : String) (values : List String) : List (Row V) :=
  (within P [("project_id", project)] t.rows).take (max 1000 (values.dedup.length * 20))

/-- Every import key that a row of the project carries is one of those fetched, which are no lists or objects. -/
def KeysReached (P : Platform) (t : Table V) (project : String) (values : List String) : Prop :=
  values = [] ∨
    (∀ row ∈ fetchedKeys P t project values, (Payload.get row.payload "import_key").unhashable = false) ∧
      ∀ c ∈ values, (∃ row ∈ within P [("project_id", project)] t.rows, row.payload.text P "import_key" = some c) →
        ∃ row ∈ fetchedKeys P t project values, (Payload.get row.payload "import_key").isText c = true

/-- The texts of a key in the store are what Python writes for its values. -/
def PlainTexts (P : Platform) (t : Table V) (key : String) : Prop :=
  ∀ row ∈ t.rows, ∀ text, row.payload.text P key = some text → (Payload.get row.payload key).pyStr P = text

theorem mem_existing_ids (hkeys : ∀ e ∈ ids, e.1 ≠ "$or" ∧ e.1 ≠ "$not") {c : String} :
    c ∈ existingPayloadValues P t key values (idFilters ids) ↔
      c ∈ values ∧ ∃ row ∈ within P ids t.rows, row.payload.text P key = some c := by
  rw [existingPayloadValues_ids hkeys, List.mem_filter, List.any_eq_true]
  simp only [beq_iff_eq]
  rfl

theorem text_ne_nil {payload : Payload} {c : String} (h : payload.text P key = some c) : payload.isEmpty = false := by
  cases payload with
  | nil => cases h
  | cons e payload => rfl

theorem mem_listed (hkeys : ∀ e ∈ ids, e.1 ≠ "$or" ∧ e.1 ≠ "$not") (hnew : key ∉ ids.map Prod.fst)
    (hkey : key ≠ "$or" ∧ key ≠ "$not") (hplain : PlainTexts P t key) {c : String} :
    c ∈ listedPayloadValues P t key values (idFilters ids) ↔
      c ∈ values ∧ ∃ row ∈ (carrying P ids key values t.rows).take values.dedup.length,
        row.payload.text P key = some c := by
  have hrows : (t.rows.filter fun row => carriesIds P ids row.payload).filter
      (fun row => (row.payload.text P key).any values.dedup.contains) = carrying P ids key values t.rows := by
    apply List.filter_congr
    intro row _
    cases row.payload.text P key with
    | none => rfl
    | some text => simp
  rw [listedPayloadValues]
  simp only [list_candidates hkeys hnew hkey, hrows, List.mem_filter, List.mem_dedup, List.any_eq_true,
    Bool.and_eq_true, beq_iff_eq]
  apply and_congr_right
  intro _
  constructor
  · rintro ⟨row, hrow, -, hstr⟩
    refine ⟨row, hrow, ?_⟩
    obtain ⟨hscope, htext⟩ := List.mem_filter.mp (List.mem_of_mem_take hrow)
    cases hlookup : row.payload.text P key with
    | none =>
      rw [hlookup] at htext
      cases htext
    | some text => rw [← hstr, hplain row (List.mem_of_mem_filter hscope) text hlookup]
  · rintro ⟨row, hrow, htext⟩
    have hstored := List.mem_of_mem_filter (List.mem_of_mem_filter (List.mem_of_mem_take hrow))
    exact ⟨row, hrow, by simp [text_ne_nil htext], hplain row hstored c htext⟩

theorem mem_listedImportKeys {project : String} {found : List String}
    (h : listedImportKeys P t project values = .ok found) {c : String} :
    c ∈ found ↔ c ∈ values ∧
      ∃ row ∈ fetchedKeys P t project values, (Payload.get row.payload "import_key").isText c = true := by
  rw [listedImportKeys] at h
  split at h
  · rename_i hnil
    cases h
    rw [List.dedup_eq_nil] at hnil
    simp [hnil]
  · rw [Table.list, select_ids (by simp)] at h
    simp only [bind, Except.bind, pure, Except.pure] at h
    split at h
    · cases h
    · cases h
      rw [List.mem_filter, List.mem_dedup, List.any_eq_true]
      rfl

theorem listedImportKeys_ok {project : String} :
    (∃ found, listedImportKeys P t project values = .ok found) ↔ values = [] ∨
      ∀ row ∈ fetchedKeys P t project values, (Payload.get row.payload "import_key").unhashable = false := by
  rw [listedImportKeys]
  split
  · rename_i hnil
    rw [List.dedup_eq_nil] at hnil
    simp [hnil, pure, Except.pure]
  · rename_i hne
    rw [List.dedup_eq_nil] at hne
    rw [Table.list, select_ids (by simp)]
    simp only [bind, Except.bind, pure, Except.pure]
    constructor
    · rintro ⟨found, hfound⟩
      split at hfound
      · cases hfound
      · rename_i hnone
        right
        intro row hrow
        apply Bool.eq_false_iff.mpr
        intro hbad
        exact hnone (List.any_eq_true.mpr ⟨row, hrow, hbad⟩)
    · rintro (hnil | hall)
      · exact absurd hnil hne
      · rw [if_neg]
        · exact ⟨_, rfl⟩
        · intro hany
          obtain ⟨row, hrow, hbad⟩ := List.any_eq_true.mp hany
          rw [hall row hrow] at hbad
          cases hbad

theorem isText_text {payload : Payload} {c : String} (h : (Payload.get payload key).isText c = true) :
    payload.text P key = some c := by
  rw [Payload.get] at h
  rw [Payload.text]
  cases hlookup : payload.lookup key with
  | none =>
    rw [hlookup] at h
    cases h
  | some v =>
    rw [hlookup] at h
    cases v with
    | str s =>
      have hs : s = c := by simpa [Value.isText] using h
      simp [Value.sqlText, hs]
    | _ => cases h

/-- The lookups by listing find what the exact lookup finds exactly when the listings reach it. -/
theorem listed_values_iff (P : Platform) (t : Table V) (scope : ScopeIds) (hashes : List String)
    (project : String) (keys : List String) (hplain : PlainTexts P t "hash") :
    ((∀ c, c ∈ listedPayloadValues P t "hash" hashes (scopeFilters scope) ↔
        c ∈ existingPayloadValues P t "hash" hashes (scopeFilters scope)) ↔
      EachReached P t (scope.filter fun e => e.1 ∈ sessionScopeKeys && e.2 ≠ "") "hash" hashes) ∧
    ((∃ found, listedImportKeys P t project keys = .ok found ∧
        ∀ c, c ∈ found ↔ c ∈ existingPayloadValues P t "import_key" keys (idFilters [("project_id", project)])) ↔
      KeysReached P t project keys) := by
  have hsub : ∀ row ∈ fetchedKeys P t project keys, row ∈ within P [("project_id", project)] t.rows :=
    fun row hrow => List.mem_of_mem_take hrow
  constructor
  · have hkeys := scopeFilters_keys scope
    have hnew : "hash" ∉ (scope.filter fun e => e.1 ∈ sessionScopeKeys && e.2 ≠ "").map Prod.fst := by
      intro hmem
      obtain ⟨e, he, hname⟩ := List.mem_map.mp hmem
      have hin := (List.mem_filter.mp he).2
      rw [hname] at hin
      simp [sessionScopeKeys] at hin
    have hlisted : ∀ c, _ := fun c => @mem_listed _ P t _ "hash" hashes hkeys hnew (by decide) hplain c
    have hexact : ∀ c, _ := fun c => @mem_existing_ids _ P t _ "hash" hashes hkeys c
    simp only [scopeFilters, hlisted, hexact]
    constructor
    · intro hsame c hc hcarried
      exact ((hsame c).mpr ⟨hc, hcarried⟩).2
    · intro hreached c
      constructor
      · rintro ⟨hc, row, hrow, htext⟩
        exact ⟨hc, row, List.mem_of_mem_filter (List.mem_of_mem_take hrow), htext⟩
      · rintro ⟨hc, hcarried⟩
        exact ⟨hc, hreached c hc hcarried⟩
  · have hexact : ∀ c, _ := fun c =>
      @mem_existing_ids _ P t [("project_id", project)] "import_key" keys (by simp) c
    constructor
    · rintro ⟨found, hfound, hsame⟩
      rcases listedImportKeys_ok.mp ⟨found, hfound⟩ with hnil | hhashable
      · exact .inl hnil
      · right
        refine ⟨hhashable, ?_⟩
        intro c hc hcarried
        exact ((mem_listedImportKeys hfound).mp ((hsame c).mpr ((hexact c).mpr ⟨hc, hcarried⟩))).2
    · intro hreached
      obtain ⟨found, hfound⟩ := listedImportKeys_ok.mpr (hreached.imp_right fun h => h.1)
      refine ⟨found, hfound, ?_⟩
      intro c
      rw [mem_listedImportKeys hfound, hexact]
      constructor
      · rintro ⟨hc, row, hrow, htext⟩
        exact ⟨hc, row, hsub row hrow, isText_text htext⟩
      · rintro ⟨hc, hcarried⟩
        rcases hreached with rfl | ⟨-, hreached⟩
        · cases hc
        · exact ⟨hc, hreached c hc hcarried⟩

end

/-! ## Two memories of one hash -/

def hashedRow (id hash : String) : Row Unit := ⟨id, some (), [("user_id", .str "u"), ("hash", .str hash)]⟩

/-- Two memories of one hash before one of another. -/
def twiceHashed : Table Unit := ⟨[hashedRow "a" "x", hashedRow "b" "x", hashedRow "c" "y"], by decide, by decide⟩

theorem twiceHashed_plain : PlainTexts .ascii twiceHashed "hash" := by
  intro row hrow text htext
  simp only [twiceHashed, List.mem_cons, List.not_mem_nil, or_false] at hrow
  rcases hrow with rfl | rfl | rfl
  all_goals
    cases htext
    rfl

/-- The hash that stands once is found alone, and the keys of a project without rows are found. -/
theorem listed_values_iff_once :
    (∀ c, c ∈ listedPayloadValues .ascii twiceHashed "hash" ["y"] (scopeFilters [("user_id", "u")]) ↔
      c ∈ existingPayloadValues .ascii twiceHashed "hash" ["y"] (scopeFilters [("user_id", "u")])) ∧
    ∃ found, listedImportKeys .ascii twiceHashed "p" ["k"] = .ok found ∧ ∀ c, c ∈ found ↔
      c ∈ existingPayloadValues .ascii twiceHashed "import_key" ["k"] (idFilters [("project_id", "p")]) := by
  obtain ⟨hhashes, hkeys⟩ := listed_values_iff .ascii twiceHashed [("user_id", "u")] ["y"] "p" ["k"] twiceHashed_plain
  constructor
  · rw [hhashes]
    intro c hc _
    rw [List.mem_singleton.mp hc]
    exact ⟨hashedRow "c" "y", List.mem_singleton_self _, rfl⟩
  · rw [hkeys]
    right
    have hnone : within Platform.ascii [("project_id", "p")] twiceHashed.rows = [] := by rfl
    rw [fetchedKeys, hnone]
    simp

/-- The listing of two hashes fetches the two memories of the first. -/
theorem listed_values_miss : ¬ ∀ (P : Platform) (t : Table Unit) (scope : ScopeIds) (hashes : List String),
    PlainTexts P t "hash" → ∀ c, c ∈ listedPayloadValues P t "hash" hashes (scopeFilters scope) ↔
      c ∈ existingPayloadValues P t "hash" hashes (scopeFilters scope) := by
  intro h
  have hsame := h .ascii twiceHashed [("user_id", "u")] ["x", "y"] twiceHashed_plain "y"
  have hscope : scopeFilters [("user_id", "u")] = idFilters [("user_id", "u")] := by rfl
  have hids : ∀ e ∈ [("user_id", "u")], e.1 ≠ "$or" ∧ e.1 ≠ "$not" := by decide
  rw [hscope, mem_existing_ids hids, mem_listed hids (by decide) (by decide) twiceHashed_plain] at hsame
  obtain ⟨-, row, hrow, htext⟩ := hsame.mpr ⟨by decide, hashedRow "c" "y", by simp [twiceHashed, within]; rfl, rfl⟩
  change row ∈ [hashedRow "a" "x", hashedRow "b" "x"] at hrow
  have htext' : row.payload.text .ascii "hash" = some "x" := by
    rcases List.mem_pair.mp hrow with rfl | rfl
    · rfl
    · rfl
  rw [htext'] at htext
  exact absurd htext (by decide)

end YiQiao
