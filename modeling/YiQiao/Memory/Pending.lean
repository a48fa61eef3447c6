import YiQiao.Memory.Finding
import YiQiao.Memory.Expiry
import YiQiao.Memory.Lexical
import YiQiao.Memory.Scope

/-!
# Two ways to the memories without an embedding

The keyword search of the store asks for every term of the query and answers a limited number of rows; the scan scores
every row by the terms it shares. They answer the same memories when the best ones of each are among the others.
-/

namespace YiQiao

open Lib Filters Fallible

variable {V S : Type} [Score S]

/-! ## The best rows of a list -/

section

variable (E : Engine V S) (query : String) (limit : Nat) (threshold : S) (showExpired : Bool)

/-- The rows that are shown and score well enough. -/
def scoredHits (rows : List (Row V)) : List (Hit V S) :=
  ((rows.filter fun row => !hidden E showExpired row.payload).map fun row =>
    (⟨row, lexicalTextScore E query (Payload.get row.payload "data")⟩ : Hit V S)).filter
      fun hit => max threshold 0 ≤ hit.score

/-- The best of them, as many as are asked for. -/
def bestHits (rows : List (Row V)) : List (Hit V S) :=
  topK (fun a b => lexicalKey E a ≤ lexicalKey E b) limit (scoredHits E query threshold showExpired rows)

/-- The rows with every term of the query that the keyword search answers. -/
def keywordRows (pending : List (Row V)) : List (Row V) :=
  (topK (fun a b : Hit V S => b.score ≤ a.score) (internalLimit limit) (pending.filterMap fun row =>
    (Table.textMatch E.platform E.textRank (E.lemmatize query) row).map fun score => ⟨row, score⟩)).map Hit.row

/-- What the keyword search assumes of PostgreSQL: a text matches a plain query when it has every lexeme of it. -/
def Conjunctive (lexemes : String → List String) : Prop :=
  ∀ words text, (E.textRank words text).isSome = true ↔ lexemes words ≠ [] ∧ ∀ w ∈ lexemes words, w ∈ lexemes text

/-- The lemmatized text of a row has every term of the query. -/
def HasEveryTerm (lexemes : String → List String) (row : Row V) : Prop :=
  ∃ text, row.payload.text E.platform "text_lemmatized" = some text ∧ lexemes (E.lemmatize query) ≠ [] ∧
    ∀ w ∈ lexemes (E.lemmatize query), w ∈ lexemes text

/-- The best pending memories have every term of the query and are among the first that do, and nothing better
stands behind the scan. -/
structure PendingReached (lexemes : String → List String) (pending : List (Row V)) : Prop where
  terms : ∀ hit ∈ bestHits E query limit threshold showExpired (pending.take lexicalFallbackScanLimit),
    HasEveryTerm E query lexemes hit.row
  first : ∀ hit ∈ bestHits E query limit threshold showExpired (pending.take lexicalFallbackScanLimit),
    hit.row ∈ keywordRows E query limit pending
  scanned : ∀ hit ∈ bestHits E query limit threshold showExpired (keywordRows E query limit pending),
    hit.row ∈ pending.take lexicalFallbackScanLimit

end

section

variable {E : Engine V S} {query : String} {limit : Nat} {threshold : S} {showExpired : Bool} {rows : List (Row V)}

theorem lexicalResultsFromRows_eq : lexicalResultsFromRows E rows query limit threshold showExpired =
    formatResults (bestHits E query limit threshold showExpired rows) := rfl

theorem mem_scoredHits {hit : Hit V S} : hit ∈ scoredHits E query threshold showExpired rows ↔
    hit.row ∈ rows ∧ hidden E showExpired hit.row.payload = false ∧
      hit.score = lexicalTextScore E query (Payload.get hit.row.payload "data") ∧ max threshold 0 ≤ hit.score := by
  obtain ⟨row, score⟩ := hit
  simp only [scoredHits, List.mem_filter, List.mem_map, Hit.mk.injEq, Bool.not_eq_eq_eq_not, Bool.not_true,
    decide_eq_true_eq]
  constructor
  · rintro ⟨⟨row', ⟨hrow, hvisible⟩, rfl, rfl⟩, hscore⟩
    exact ⟨hrow, hvisible, rfl, hscore⟩
  · rintro ⟨hrow, hvisible, rfl, hscore⟩
    exact ⟨⟨row, ⟨hrow, hvisible⟩, rfl, rfl⟩, hscore⟩

theorem scoredHits_nodup (h : rows.Nodup) : (scoredHits E query threshold showExpired rows).Nodup := by
  apply List.Nodup.filter
  apply List.Nodup.map _ (h.filter _)
  intro row row' hsame
  exact congrArg Hit.row hsame

/-- Rows that tie in the order of lexical results are one row. -/
theorem lexicalKey_inj {a b : Hit V S} (h : lexicalKey E a ≤ lexicalKey E b) (h' : lexicalKey E b ≤ lexicalKey E a) :
    a.row.id = b.row.id := by
  have hkey := le_antisymm h h'
  simp only [lexicalKey, EmbeddingLike.apply_eq_iff_eq, Prod.mk.injEq] at hkey
  exact hkey.2.2

instance lexicalTotal : Std.Total fun a b : Hit V S => lexicalKey E a ≤ lexicalKey E b :=
  ⟨fun _ _ => le_total _ _⟩

instance lexicalTrans : IsTrans (Hit V S) fun a b => lexicalKey E a ≤ lexicalKey E b := ⟨fun _ _ _ => le_trans⟩

omit [Score S] in
theorem hit_eq {a b : Hit V S} (hrow : a.row = b.row) (hscore : a.score = b.score) : a = b := by
  cases a
  cases b
  cases hrow
  cases hscore
  rfl

/-- Two lists of rows of one table have the same best hits exactly when the best of each are rows of the other. -/
theorem bestHits_eq_iff {t : Table V} {rows' : List (Row V)} (hrows : rows ⊆ t.rows) (hrows' : rows' ⊆ t.rows)
    (hnodup : rows.Nodup) (hnodup' : rows'.Nodup) :
    bestHits E query limit threshold showExpired rows = bestHits E query limit threshold showExpired rows' ↔
      (∀ hit ∈ bestHits E query limit threshold showExpired rows, hit.row ∈ rows') ∧
        ∀ hit ∈ bestHits E query limit threshold showExpired rows', hit.row ∈ rows := by
  have hties : ∀ a ∈ scoredHits E query threshold showExpired rows,
      ∀ b ∈ scoredHits E query threshold showExpired rows',
        lexicalKey E a ≤ lexicalKey E b → lexicalKey E b ≤ lexicalKey E a → a = b := by
    intro a ha b hb hle hle'
    obtain ⟨hrow, -, hscore, -⟩ := mem_scoredHits.mp ha
    obtain ⟨hrow', -, hscore', -⟩ := mem_scoredHits.mp hb
    have hsame := Table.eq_of_id (hrows hrow) (hrows' hrow') (lexicalKey_inj hle hle')
    exact hit_eq hsame (by rw [hscore, hscore', hsame])
  rw [bestHits, bestHits, topK_eq_iff (scoredHits_nodup hnodup) (scoredHits_nodup hnodup') hties]
  apply and_congr
  · apply forall₂_congr
    intro hit hhit
    obtain ⟨-, hrest⟩ := mem_scoredHits.mp (mem_of_mem_topK hhit)
    rw [mem_scoredHits]
    exact and_iff_left hrest
  · apply forall₂_congr
    intro hit hhit
    obtain ⟨-, hrest⟩ := mem_scoredHits.mp (mem_of_mem_topK hhit)
    rw [mem_scoredHits]
    exact and_iff_left hrest

omit [Score S] in
/-- Hits that can be shown are shown, one result for each. -/
theorem formatResults_showable {hits : List (Hit V S)} (h : ∀ hit ∈ hits, hit.row.payload.Showable) :
    ∃ items, formatResults hits = .ok items ∧ items.map MemoryItem.id = hits.map fun hit => hit.row.id := by
  induction hits with
  | nil => exact ⟨[], rfl, rfl⟩
  | cons hit hits ih =>
    obtain ⟨⟨hdata, item, hitem⟩, hrest⟩ := List.forall_mem_cons.mp h
    obtain ⟨items, hitems, hids⟩ := ih hrest
    obtain ⟨made, hmade⟩ := formatItem_ok hitem hit.row.id hit.score
    rw [formatResults] at hitems ⊢
    refine ⟨made :: items, ?_, ?_⟩
    · rw [List.filter_cons, if_pos hdata, List.mapM_cons, hmade, hitems]
      rfl
    · rw [List.map_cons, List.map_cons, hids, (formatItem_spec hmade).1]

theorem eq_of_map_eq {α β : Type} {f : α → β} {xs ys : List α} (hinj : ∀ a ∈ xs, ∀ b ∈ ys, f a = f b → a = b)
    (h : xs.map f = ys.map f) : xs = ys := by
  induction xs generalizing ys with
  | nil => simpa using h.symm
  | cons x xs ih =>
    cases ys with
    | nil => simp at h
    | cons y ys =>
      simp only [List.map_cons, List.cons.injEq] at h
      rw [hinj x List.mem_cons_self y List.mem_cons_self h.1,
        ih (fun a ha b hb => hinj a (List.mem_cons_of_mem _ ha) b (List.mem_cons_of_mem _ hb)) h.2]

/-- The statement that lists all rows does not fail on some of them. -/
theorem select_filter_ok {P : Platform} {filters : Entries} {out : List (Row V)}
    (h : Table.select P filters rows = .ok out) (q : Row V → Bool) :
    Table.select P filters (rows.filter q) = .ok (out.filter q) := by
  rw [select_filter, h]
  · rfl
  · intro row hrow _ conds hconds
    rw [Table.select, hconds] at h
    simp only [bind, Except.bind] at h
    split at h
    · cases h
    · rename_i hsafe
      apply Bool.eq_false_iff.mpr
      intro hfails
      exact hsafe (List.any_eq_true.mpr ⟨row, hrow, hfails⟩)

theorem keywordRows_subset {pending : List (Row V)} :
    ∀ row ∈ keywordRows E query limit pending, row ∈ pending ∧
      (Table.textMatch E.platform E.textRank (E.lemmatize query) row).isSome = true := by
  intro row hrow
  obtain ⟨hit, hhit, rfl⟩ := List.mem_map.mp hrow
  obtain ⟨row, hmem, hmatch⟩ := List.mem_filterMap.mp (mem_of_mem_topK hhit)
  obtain ⟨score, hscore, rfl⟩ := Option.map_eq_some_iff.mp hmatch
  exact ⟨hmem, by rw [hscore]; rfl⟩

theorem keywordRows_nodup {pending : List (Row V)} (h : pending.Nodup) : (keywordRows E query limit pending).Nodup := by
  apply topK_map_nodup
  rw [List.map_filterMap]
  apply h.filterMap
  intro row row' made hmade hmade'
  simp only [Option.map_map, Option.mem_def, Option.map_eq_some_iff, Function.comp] at hmade hmade'
  obtain ⟨_, _, rfl⟩ := hmade
  obtain ⟨_, _, hsame⟩ := hmade'
  exact hsame.symm

theorem keywordSearch_pending {t : Table V} {filters : Entries} {pending : List (Row V)}
    (hselect : Table.select E.platform filters t.rows = .ok pending) :
    ∃ hits, t.keywordSearch E.platform E.textRank (E.lemmatize query) (internalLimit limit) filters = some hits ∧
      hits.map Hit.row = keywordRows E query limit pending := by
  rw [Table.keywordSearch, select_filter_ok hselect]
  refine ⟨_, rfl, ?_⟩
  rw [keywordRows, @filterMap_filter _ _ _ _ fun _ => true]
  · rw [List.filter_true]
  · intro row hit hmade
    obtain ⟨_, hscore, -⟩ := Option.map_eq_some_iff.mp hmade
    rw [hscore]
    rfl

theorem hasEveryTerm_of_keyword {lexemes : String → List String} (hconj : Conjunctive E lexemes)
    {pending : List (Row V)} {row : Row V} (h : row ∈ keywordRows E query limit pending) :
    HasEveryTerm E query lexemes row := by
  have hmatch := (keywordRows_subset row h).2
  rw [Table.textMatch, Option.isSome_iff_exists] at hmatch
  obtain ⟨score, hscore⟩ := hmatch
  obtain ⟨text, htext, hrank⟩ := Option.bind_eq_some_iff.mp hscore
  obtain ⟨hne, hall⟩ := (hconj _ text).mp (by rw [hrank]; rfl)
  exact ⟨text, htext, hne, hall⟩

/-- The two ways answer the same exactly when the best hits of each are rows of the other. -/
theorem searchPending_eq_scan_iff {t : Table V} {filters : Entries} {pending : List (Row V)}
    (hasked : excludesPending filters = false)
    (hselect : Table.select E.platform (pendingFilters filters) t.rows = .ok pending)
    (hshow : ∀ row ∈ pending, row.payload.Showable) (hcjk : hasCjkRun query = false) :
    searchPendingEmbeddings E t query filters limit threshold showExpired =
        .ok (pendingScan E t query (pendingFilters filters) limit threshold showExpired) ↔
      (∀ hit ∈ bestHits E query limit threshold showExpired (keywordRows E query limit pending),
        hit.row ∈ pending.take lexicalFallbackScanLimit) ∧
      ∀ hit ∈ bestHits E query limit threshold showExpired (pending.take lexicalFallbackScanLimit),
        hit.row ∈ keywordRows E query limit pending := by
  obtain ⟨hits, hsearch, hrows⟩ := @keywordSearch_pending _ _ _ E query limit t _ _ hselect
  have hnodup : pending.Nodup := List.Nodup.of_map Row.id (t.unique.sublist ((Table.select_sublist hselect).map Row.id))
  have hstored : pending ⊆ t.rows := (Table.select_sublist hselect).subset
  have hkeyword : keywordRows E query limit pending ⊆ pending := fun row hrow => (keywordRows_subset row hrow).1
  have hshown : ∀ {rows : List (Row V)}, rows ⊆ pending →
      ∀ hit ∈ bestHits E query limit threshold showExpired rows, hit.row.payload.Showable :=
    fun hsub hit hhit => hshow _ (hsub (mem_scoredHits.mp (mem_of_mem_topK hhit)).1)
  obtain ⟨found, hfound, hfoundIds⟩ := formatResults_showable (hshown hkeyword)
  obtain ⟨listed, hlisted, hlistedIds⟩ := formatResults_showable (hshown (List.take_subset lexicalFallbackScanLimit _))
  have hscan : pendingScan E t query (pendingFilters filters) limit threshold showExpired = listed := by
    rw [pendingScan, searchWithoutEmbedding, Table.list, hselect]
    simp only [bind, Except.bind, pure, Except.pure, lexicalResultsFromRows_eq, hlisted]
  have hsame : found = listed ↔ bestHits E query limit threshold showExpired (keywordRows E query limit pending) =
      bestHits E query limit threshold showExpired (pending.take lexicalFallbackScanLimit) := by
    constructor
    · intro hitems
      rw [hitems, hlistedIds] at hfoundIds
      apply eq_of_map_eq _ hfoundIds.symm
      intro a ha b hb hid
      obtain ⟨hrow, -, hscore, -⟩ := mem_scoredHits.mp (mem_of_mem_topK ha)
      obtain ⟨hrow', -, hscore', -⟩ := mem_scoredHits.mp (mem_of_mem_topK hb)
      have heq := Table.eq_of_id (hstored (hkeyword hrow)) (hstored (List.mem_of_mem_take hrow')) hid
      exact hit_eq heq (by rw [hscore, hscore', heq])
    · intro hbest
      rw [hbest, hlisted] at hfound
      cases hfound
      rfl
  rw [searchPendingEmbeddings, if_neg (by simp [hasked]), if_neg (by simp [hcjk]), hsearch, hscan]
  simp only [hrows, lexicalResultsFromRows_eq, hfound, Except.ok.injEq, hsame]
  exact bestHits_eq_iff (List.Subset.trans hkeyword hstored) (List.Subset.trans (List.take_subset _ _) hstored)
    (keywordRows_nodup hnodup) (hnodup.sublist (List.take_sublist _ _))

/-- The keyword search and the scan answer the same memories exactly when the best ones have every term of the query
and are among the first that do. -/
theorem pending_paths_agree_iff (E : Engine V S) (lexemes : String → List String) (hconj : Conjunctive E lexemes)
    (t : Table V) {filters : Entries} {pending : List (Row V)} (query : String) (limit : Nat) (threshold : S)
    (showExpired : Bool) (hasked : excludesPending filters = false)
    (hselect : Table.select E.platform (pendingFilters filters) t.rows = .ok pending)
    (hshow : ∀ row ∈ pending, row.payload.Showable) :
    searchPendingEmbeddings E t query filters limit threshold showExpired =
        .ok (pendingScan E t query (pendingFilters filters) limit threshold showExpired) ↔
      hasCjkRun query = true ∨ PendingReached E query limit threshold showExpired lexemes pending := by
  cases hcjk : hasCjkRun query with
  | true => simp [searchPendingEmbeddings, hasked, hcjk]
  | false =>
    rw [searchPending_eq_scan_iff hasked hselect hshow hcjk]
    constructor
    · rintro ⟨hscanned, hfirst⟩
      exact .inr ⟨fun hit hhit => hasEveryTerm_of_keyword hconj (hfirst hit hhit), hfirst, hscanned⟩
    · rintro (hnever | ⟨-, hfirst, hscanned⟩)
      · cases hnever
      · exact ⟨hscanned, hfirst⟩

end

/-! ## One term of two -/

/-- Without `spaCy` a text is its own lemmatized text; ASCII letters are folded. -/
def asciiLexicalTools : LexicalTools ℚ where
  normalize := fun s => s.map Char.toLower
  number := fun n => n
  phraseScore := 98 / 100
  firstLineFactor := 85 / 100

def lexicalEngine : Engine Unit ℚ :=
  { matchingEngine with
    textRank := fun words text =>
      if splitWords words ≠ [] ∧ ∀ w ∈ splitWords words, w ∈ splitWords text then some 1 else none
    lexicalScore := lexicalScore asciiLexicalTools }

theorem lexicalEngine_conjunctive : Conjunctive lexicalEngine splitWords := by
  intro words text
  simp only [lexicalEngine]
  split
  · rename_i h
    simpa using h
  · rename_i h
    simpa using h

def pendingRow : Row Unit :=
  ⟨"a", none, [("user_id", .str "u"), ("data", .str "salary range"), ("text_lemmatized", .str "salary range"),
    ("embedding_status", .str "pending")]⟩

def pendingTable : Table Unit := ⟨[pendingRow], by decide, by decide⟩

theorem select_pending : Table.select Platform.ascii (pendingFilters userFilters) pendingTable.rows = .ok [pendingRow] :=
  select_ids (by decide : ∀ e ∈ [("user_id", "u"), ("embedding_status", "pending")], e.1 ≠ "$or" ∧ e.1 ≠ "$not") _

theorem pendingRow_showable : pendingRow.payload.Showable := ⟨by decide, _, rfl⟩

/-- A query of one term that the memory has. -/
theorem pending_paths_agree_iff_salary :
    searchPendingEmbeddings lexicalEngine pendingTable "salary" userFilters 10 (1 / 10) false =
      .ok (pendingScan lexicalEngine pendingTable "salary" (pendingFilters userFilters) 10 (1 / 10) false) := by
  apply (pending_paths_agree_iff lexicalEngine splitWords lexicalEngine_conjunctive pendingTable "salary" 10 (1 / 10)
    false rfl select_pending (by simpa using pendingRow_showable)).mpr
  right
  have hrows : keywordRows lexicalEngine "salary" 10 [pendingRow] = [pendingRow] := by
    have hmatch : Table.textMatch lexicalEngine.platform lexicalEngine.textRank (lexicalEngine.lemmatize "salary")
        pendingRow = some 1 := by decide +kernel
    simp [keywordRows, hmatch, topK, ranked, internalLimit]
  have hone : ∀ {hit : Hit Unit ℚ} {rows : List (Row Unit)}, rows = [pendingRow] →
      hit ∈ bestHits lexicalEngine "salary" 10 (1 / 10) false rows → hit.row = pendingRow := by
    rintro hit rows rfl hhit
    exact List.mem_singleton.mp (mem_scoredHits.mp (mem_of_mem_topK hhit)).1
  constructor
  · intro hit hhit
    rw [hone rfl hhit]
    exact ⟨"salary range", rfl, by decide +kernel, by decide +kernel⟩
  · intro hit hhit
    rw [hone rfl hhit, hrows]
    exact List.mem_singleton_self _
  · intro hit hhit
    rw [hone hrows hhit]
    exact List.mem_singleton_self _

/-- A memory with one term of two is found by the scan alone. -/
theorem pending_paths_differ : ¬ ∀ (E : Engine Unit ℚ) (lexemes : String → List String), Conjunctive E lexemes →
    ∀ (t : Table Unit) (filters : Entries) (pending : List (Row Unit)) (query : String) (limit : Nat) (threshold : ℚ)
      (showExpired : Bool), excludesPending filters = false →
      Table.select E.platform (pendingFilters filters) t.rows = .ok pending →
      (∀ row ∈ pending, row.payload.Showable) →
      searchPendingEmbeddings E t query filters limit threshold showExpired =
        .ok (pendingScan E t query (pendingFilters filters) limit threshold showExpired) := by
  intro h
  have hsame := h lexicalEngine splitWords lexicalEngine_conjunctive pendingTable userFilters [pendingRow] "vue salary"
    10 (1 / 10) false rfl select_pending (by simpa using pendingRow_showable)
  rw [searchPending_eq_scan_iff rfl select_pending (by simpa using pendingRow_showable) (by decide +kernel)] at hsame
  have hscore : max (1 / 10) 0 ≤ lexicalTextScore lexicalEngine "vue salary" (.str "salary range") := by decide +kernel
  have hbest : (⟨pendingRow, lexicalTextScore lexicalEngine "vue salary" (.str "salary range")⟩ : Hit Unit ℚ) ∈
      bestHits lexicalEngine "vue salary" 10 (1 / 10) false ([pendingRow].take lexicalFallbackScanLimit) := by
    apply mem_topK
    · apply (List.length_filter_le _ _).trans
      rw [List.length_map]
      exact (List.length_filter_le _ _).trans (by decide)
    · exact mem_scoredHits.mpr ⟨List.mem_singleton_self _, rfl, rfl, hscore⟩
  obtain ⟨text, htext, -, hall⟩ := hasEveryTerm_of_keyword lexicalEngine_conjunctive (hsame.2 _ hbest)
  cases htext
  exact absurd hall (by decide +kernel)

end YiQiao
