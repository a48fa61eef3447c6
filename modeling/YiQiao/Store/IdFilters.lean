import YiQiao.Store.PGVector

/-!
# Filters on identifiers

A filter that gives texts for keys never fails, and selects the rows that carry them.
-/

namespace YiQiao

open Lib Filters

variable {V : Type}

/-! ## Filters joined -/

theorem buildFilterConditions_append {P : Platform} {d e : Entries} {conds : List Cond}
    (h : buildFilterConditions P (d ++ e) = .ok conds) :
    ∃ cd ce, buildFilterConditions P d = .ok cd ∧ buildFilterConditions P e = .ok ce ∧
      conds = cd ++ ce := by
  induction d generalizing conds with
  | nil => exact ⟨[], conds, by rw [buildFilterConditions], h, rfl⟩
  | cons x d ih =>
      obtain ⟨key, value⟩ := x
      simp only [List.cons_append, buildFilterConditions, Fallible.bind_ok, Fallible.pure_ok] at h ⊢
      obtain ⟨cx, hx, rest, hrest, rfl⟩ := h
      obtain ⟨cd, ce, hd, he, rfl⟩ := ih hrest
      exact ⟨cx ++ cd, ce, ⟨cx, hx, cd, hd, rfl⟩, he, (List.append_assoc _ _ _).symm⟩

theorem selects_of_subset {P : Platform} {conds conds' : List Cond} {payload : Payload}
    (hsub : ∀ c ∈ conds', c ∈ conds) (h : selects P conds payload = true) :
    selects P conds' payload = true := by
  rw [selects_iff] at h ⊢
  refine ⟨fun t ht => h.1 t ?_, fun c hc => h.2 c (hsub c hc)⟩
  obtain ⟨c, hc, hct⟩ := Kleene.Expr.mem_atomsList.mp ht
  exact Kleene.Expr.mem_atomsList.mpr ⟨c, hsub c hc, hct⟩

theorem buildFilterConditions_append_ok {P : Platform} {d e : Entries} {cd ce : List Cond} (hd : buildFilterConditions P d = .ok cd)
    (he : buildFilterConditions P e = .ok ce) : buildFilterConditions P (d ++ e) = .ok (cd ++ ce) := by
  induction d generalizing cd with
  | nil =>
      rw [buildFilterConditions] at hd
      cases hd
      exact he
  | cons x d ih =>
      obtain ⟨key, value⟩ := x
      simp only [List.cons_append, buildFilterConditions, Fallible.bind_ok, Fallible.pure_ok] at hd ⊢
      obtain ⟨cx, hx, rest, hrest, rfl⟩ := hd
      exact ⟨cx, hx, rest ++ ce, ih hrest, (List.append_assoc _ _ _).symm⟩

theorem selects_append {P : Platform} {payload : Payload} {cd ce : List Cond} :
    selects P (cd ++ ce) payload = true ↔ selects P cd payload = true ∧ selects P ce payload = true := by
  constructor
  · intro h
    exact ⟨selects_of_subset (fun c hc => List.mem_append_left _ hc) h,
      selects_of_subset (fun c hc => List.mem_append_right _ hc) h⟩
  · rintro ⟨hd, he⟩
    rw [selects_iff] at hd he ⊢
    refine ⟨fun test htest => ?_, fun c hc => (List.mem_append.mp hc).elim (hd.2 c) (he.2 c)⟩
    obtain ⟨c, hc, hct⟩ := Kleene.Expr.mem_atomsList.mp htest
    rcases List.mem_append.mp hc with hc | hc
    · exact hd.1 test (Kleene.Expr.mem_atomsList.mpr ⟨c, hc, hct⟩)
    · exact he.1 test (Kleene.Expr.mem_atomsList.mpr ⟨c, hc, hct⟩)

/-! ## Identifiers -/

/-- A filter on identifiers. -/
def idFilters (ids : List (String × String)) : Entries := ids.map fun e => (e.1, .str e.2)

theorem lookup_idFilters (ids : List (String × String)) (key : String) :
    (idFilters ids).lookup key = (ids.lookup key).map .str := by
  induction ids with
  | nil => rfl
  | cons e ids ih =>
      rw [idFilters] at ih ⊢
      rw [List.map_cons, List.lookup_cons, List.lookup_cons, ih]
      cases key == e.1 <;> rfl

/-- The payload carries the identifier; the wildcard asks for any. -/
def idMatches (P : Platform) (payload : Payload) (key value : String) : Bool :=
  if value = "*" then (payload.lookup key).isSome else payload.text P key == some value

/-- The condition of one identifier. -/
def idTest (key value : String) : Test := if value = "*" then .hasKey key else .eq key value

theorem buildFilterConditions_ids (P : Platform) {ids : List (String × String)}
    (hkeys : ∀ e ∈ ids, e.1 ≠ "$or" ∧ e.1 ≠ "$not") :
    buildFilterConditions P (idFilters ids) = .ok (ids.map fun e => .atom (idTest e.1 e.2)) := by
  induction ids with
  | nil => simp [idFilters, buildFilterConditions]
  | cons e ids ih =>
      obtain ⟨key, value⟩ := e
      obtain ⟨hor, hnot⟩ := hkeys _ List.mem_cons_self
      have hrest := ih fun e he => hkeys e (List.mem_cons_of_mem _ he)
      rw [idFilters] at hrest
      rw [idFilters, List.map_cons, buildFilterConditions, hrest, buildEntry, if_neg hor, if_neg hnot]
      by_cases h : value = "*"
      · simp [buildField, Value.isStar, idTest, h, bind, Except.bind, pure, Except.pure]
      · simp [buildField, Value.isStar, Value.pyStr, idTest, h, bind, Except.bind, pure, Except.pure]

theorem idTest_value {P : Platform} {payload : Payload} {key value : String} :
    (idTest key value).value P payload = some true ↔ idMatches P payload key value = true := by
  unfold idTest idMatches
  by_cases h : value = "*"
  · simp [h, Test.value]
  · simp only [h, ↓reduceIte, Test.value]
    cases payload.text P key <;> simp

theorem atoms_ids (ids : List (String × String)) :
    Kleene.Expr.atomsList (ids.map fun e => Kleene.Expr.atom (idTest e.1 e.2)) =
      ids.map fun e => idTest e.1 e.2 := by
  induction ids with
  | nil => rfl
  | cons e ids ih => simp [Kleene.Expr.atomsList, Kleene.Expr.atoms, ih]

theorem idTest_fails {P : Platform} {payload : Payload} (key value : String) :
    (idTest key value).fails P payload = false := by
  unfold idTest
  split <;> rfl

theorem selects_ids {P : Platform} {payload : Payload} (ids : List (String × String)) :
    selects P (ids.map fun e => Kleene.Expr.atom (idTest e.1 e.2)) payload =
      ids.all fun e => idMatches P payload e.1 e.2 := by
  rw [Bool.eq_iff_iff, selects_iff, List.all_eq_true, atoms_ids]
  simp only [List.forall_mem_map, Kleene.Expr.eval, idTest_value, idTest_fails, implies_true, true_and]

/-- A filter on identifiers never fails, and selects the rows that carry them. -/
theorem select_ids {P : Platform} {ids : List (String × String)}
    (hkeys : ∀ e ∈ ids, e.1 ≠ "$or" ∧ e.1 ≠ "$not") (rows : List (Row V)) :
    Table.select P (idFilters ids) rows =
      .ok (rows.filter fun row => ids.all fun e => idMatches P row.payload e.1 e.2) := by
  have hsafe : (rows.any fun row => (ids.map fun e => idTest e.1 e.2).any
      (Test.fails P row.payload)) = false := by
    simp [idTest_fails]
  rw [Table.select, buildFilterConditions_ids P hkeys]
  simp only [bind, Except.bind, atoms_ids, hsafe, selects_ids, Bool.false_eq_true, ↓reduceIte]
  rfl

end YiQiao
