import Mathlib.Algebra.GroupWithZero.Nat
import Mathlib.Data.List.Forall2
import Mathlib.Data.List.Nodup

/-!
# Rows

A table as a list of rows: the rows a condition selects are changed or deleted, and counted.
-/

namespace YiQiao.Lib

variable {α : Type}

/-- `UPDATE .. WHERE`. -/
def updateRows (hit : α → Bool) (change : α → α) (rows : List α) : List α :=
  rows.map fun row => if hit row then change row else row

/-- `DELETE .. WHERE`. -/
def deleteRows (hit : α → Bool) (rows : List α) : List α := rows.filter fun row => !hit row

/-- The row count of a statement. -/
def hitRows (hit : α → Bool) (rows : List α) : Nat := rows.countP hit

variable {hit : α → Bool} {change : α → α} {rows : List α} {row : α}

theorem hitRows_eq_zero : hitRows hit rows = 0 ↔ ∀ row ∈ rows, hit row = false := by
  simp [hitRows, List.countP_eq_zero]

theorem updateRows_of_none (h : ∀ row ∈ rows, hit row = false) : updateRows hit change rows = rows := by
  rw [updateRows]
  refine (List.map_congr_left fun row hrow => ?_).trans (List.map_id _)
  rw [h row hrow]
  rfl

theorem deleteRows_of_none (h : ∀ row ∈ rows, hit row = false) : deleteRows hit rows = rows := by
  rw [deleteRows, List.filter_eq_self]
  intro row hrow
  rw [h row hrow]
  rfl

theorem mem_deleteRows : row ∈ deleteRows hit rows ↔ row ∈ rows ∧ hit row = false := by
  rw [deleteRows, List.mem_filter, Bool.not_eq_true']

theorem deleteRows_deleteRows {hit' : α → Bool} :
    deleteRows hit' (deleteRows hit rows) = deleteRows (fun row => hit row || hit' row) rows := by
  rw [deleteRows, deleteRows, deleteRows, List.filter_filter]
  refine List.filter_congr fun row _ => ?_
  rw [Bool.not_or, Bool.and_comm]

/-- Nothing of `ours` is left, and nothing of `theirs` went. -/
structure Swept (ours theirs : α → Prop) (before after : List α) : Prop where
  gone : ∀ row ∈ after, ¬ ours row
  kept : ∀ row ∈ before, theirs row → row ∈ after

theorem swept_deleteRows {ours theirs : α → Prop} : Swept ours theirs rows (deleteRows hit rows) ↔
    ∀ row ∈ rows, (ours row → hit row = true) ∧ (theirs row → hit row = false) := by
  constructor
  · intro h row hrow
    refine ⟨fun hours => ?_, fun htheirs => (mem_deleteRows.mp (h.kept row hrow htheirs)).2⟩
    by_contra hne
    exact h.gone row (mem_deleteRows.mpr ⟨hrow, by simpa using hne⟩) hours
  · intro h
    constructor
    · intro row hrow hours
      obtain ⟨hrow, hhit⟩ := mem_deleteRows.mp hrow
      rw [(h row hrow).1 hours] at hhit
      cases hhit
    · exact fun row hrow htheirs => mem_deleteRows.mpr ⟨hrow, (h row hrow).2 htheirs⟩

/-- A table that nothing is deleted from. -/
theorem swept_self {ours theirs : α → Prop} : Swept ours theirs rows rows ↔ ∀ row ∈ rows, ¬ ours row :=
  ⟨Swept.gone, fun h => ⟨h, fun _ hrow _ => hrow⟩⟩

theorem mem_updateRows : row ∈ updateRows hit change rows ↔
    row ∈ rows ∧ hit row = false ∨ ∃ old ∈ rows, hit old = true ∧ change old = row := by
  rw [updateRows, List.mem_map]
  constructor
  · rintro ⟨old, hold, rfl⟩
    cases hhit : hit old with
    | true => exact .inr ⟨old, hold, hhit, by simp⟩
    | false => exact .inl ⟨by simpa [hhit] using hold, by simp [hhit]⟩
  · rintro (⟨hrow, hhit⟩ | ⟨old, hold, hhit, rfl⟩)
    · exact ⟨row, hrow, by rw [hhit]; rfl⟩
    · exact ⟨old, hold, by rw [hhit]; rfl⟩

/-- A change that leaves a column leaves its values in place. -/
theorem updateRows_map {κ : Type} {key : α → κ} (h : ∀ row, key (change row) = key row) :
    (updateRows hit change rows).map key = rows.map key := by
  rw [updateRows, List.map_map]
  refine List.map_congr_left fun row _ => ?_
  rw [Function.comp]
  split
  · exact h row
  · rfl

theorem nodup_updateRows {κ : Type} {key : α → κ} (hkey : ∀ row, key (change row) = key row)
    (h : (rows.map key).Nodup) : ((updateRows hit change rows).map key).Nodup := by
  rw [updateRows_map hkey]
  exact h

/-- Rows that a change does not select, and does not put among the selected ones. -/
theorem filter_updateRows {p : α → Bool} (hp : ∀ row, p (change row) = p row)
    (h : ∀ row ∈ rows, hit row = true → p row = false) : (updateRows hit change rows).filter p = rows.filter p := by
  induction rows with
  | nil => rfl
  | cons row rows ih =>
      have hrest := ih fun row hrow => h row (List.mem_cons_of_mem _ hrow)
      rw [updateRows, List.map_cons]
      rw [updateRows] at hrest
      cases hhit : hit row with
      | true =>
          have hout := h row List.mem_cons_self hhit
          rw [if_pos rfl, List.filter_cons_of_neg (by rw [hp, hout]; exact Bool.false_ne_true),
            List.filter_cons_of_neg (by rw [hout]; exact Bool.false_ne_true), hrest]
      | false =>
          rw [if_neg Bool.false_ne_true, List.filter_cons, List.filter_cons, hrest]

/-- Looking a row up by columns that a change leaves. -/
theorem find?_updateRows {p : α → Bool} (h : ∀ row, p (change row) = p row) :
    (updateRows hit change rows).find? p =
      (rows.find? p).map fun row => if hit row then change row else row := by
  rw [updateRows, List.find?_map]
  congr 2
  funext row
  rw [Function.comp]
  split
  · exact h row
  · rfl

/-- A row that is found by a column is the only one with its value there. -/
theorem eq_of_key_eq {κ : Type} {key : α → κ} (h : (rows.map key).Nodup) {a b : α} (ha : a ∈ rows) (hb : b ∈ rows)
    (hkey : key a = key b) : a = b := List.inj_on_of_nodup_map h ha hb hkey

/-- A sum grows by no more than what one row may grow by, when only rows of one key are changed. -/
theorem sum_updateRows_le {κ : Type} {key : α → κ} {k : κ} {f : α → Nat} {c : Nat} (h : (rows.map key).Nodup)
    (hkey : ∀ row, hit row = true → key row = k) (hchange : ∀ row, f (change row) ≤ f row + c) :
    ((updateRows hit change rows).map f).sum ≤ (rows.map f).sum + c := by
  induction rows with
  | nil => exact Nat.zero_le _
  | cons row rows ih =>
    obtain ⟨hrow, hrows⟩ := List.nodup_cons.mp h
    simp only [updateRows, List.map_cons, List.sum_cons]
    cases hhit : hit row with
    | true =>
      -- the other rows have other keys
      have hnone : ∀ other ∈ rows, hit other = false := by
        intro other hother
        by_contra hne
        have hother' := hkey other (by simpa using hne)
        exact hrow (List.mem_map.mpr ⟨other, hother, hother'.trans (hkey row hhit).symm⟩)
      have hsame : updateRows hit change rows = rows := updateRows_of_none hnone
      rw [updateRows] at hsame
      rw [hsame]
      have := hchange row
      simp only [if_true]
      omega
    | false =>
      have := ih hrows
      rw [updateRows] at this
      simp only [Bool.false_eq_true, if_false]
      omega

theorem countP_eq_sum (p : α → Bool) (rows : List α) : rows.countP p = (rows.map fun row => (p row).toNat).sum := by
  induction rows with
  | nil => rfl
  | cons row rows ih =>
    rw [List.countP_cons, List.map_cons, List.sum_cons, ih, Nat.add_comm]
    cases p row with
    | true => rfl
    | false => rfl

/-- A count grows by one at most, when only rows of one key are changed. -/
theorem countP_updateRows_le {κ : Type} {key : α → κ} {k : κ} (p : α → Bool) (h : (rows.map key).Nodup)
    (hkey : ∀ row, hit row = true → key row = k) : (updateRows hit change rows).countP p ≤ rows.countP p + 1 := by
  rw [countP_eq_sum, countP_eq_sum]
  refine sum_updateRows_le h hkey fun row => ?_
  have := Bool.toNat_le (p (change row))
  omega

/-- Rows that are counted were counted before. -/
theorem countP_le_of_forall₂ {β : Type} {p : α → Bool} {q : β → Bool} {R : α → β → Prop} {xs : List α} {ys : List β}
    (h : List.Forall₂ R xs ys) (hR : ∀ x ∈ xs, ∀ y, R x y → q y = true → p x = true) : ys.countP q ≤ xs.countP p := by
  induction h with
  | nil => exact Nat.le_refl _
  | cons hxy _ ih =>
    rename_i x y xs ys _
    have hrest := ih fun x hx => hR x (List.mem_cons_of_mem _ hx)
    rw [List.countP_cons, List.countP_cons]
    have := hR x List.mem_cons_self y hxy
    split
    next hq =>
      rw [if_pos (this hq)]
      omega
    next => omega

end YiQiao.Lib
