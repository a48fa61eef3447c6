import Mathlib.Data.List.Nodup

/-!
# First occurrences

The elements of a list whose keys have not been seen before them, as a loop with a set of seen keys
keeps them.
-/

namespace YiQiao.Lib

variable {α κ : Type} [DecidableEq κ] {key : α → κ}

/-- The first element of every key. -/
def firstsBy (key : α → κ) : List α → List α
  | [] => []
  | a :: as => a :: (firstsBy key as).filter fun b => key b ≠ key a

theorem firstsBy_sublist (l : List α) : (firstsBy key l).Sublist l := by
  induction l with
  | nil => exact .slnil
  | cons a as ih => exact (List.filter_sublist.trans ih).cons_cons a

theorem firstsBy_nodup (l : List α) : ((firstsBy key l).map key).Nodup := by
  induction l with
  | nil => exact List.nodup_nil
  | cons a as ih =>
      rw [firstsBy, List.map_cons, List.nodup_cons]
      refine ⟨fun hmem => ?_, ih.sublist (List.filter_sublist.map key)⟩
      obtain ⟨b, hb, hkey⟩ := List.mem_map.mp hmem
      have hne := (List.mem_filter.mp hb).2
      simp [hkey] at hne

/-- Every key of the list stands among the first elements. -/
theorem key_mem_firstsBy {l : List α} {a : α} (h : a ∈ l) : key a ∈ (firstsBy key l).map key := by
  induction l with
  | nil => cases h
  | cons b bs ih =>
      rw [firstsBy, List.map_cons]
      by_cases hkey : key a = key b
      · exact hkey ▸ List.mem_cons_self
      · rcases List.mem_cons.mp h with rfl | h
        · exact absurd rfl hkey
        · obtain ⟨c, hc, hca⟩ := List.mem_map.mp (ih h)
          have hkeep : c ∈ (firstsBy key bs).filter fun b' => key b' ≠ key b :=
            List.mem_filter.mpr ⟨hc, by simpa [hca] using hkey⟩
          exact List.mem_cons_of_mem _ (List.mem_map.mpr ⟨c, hkeep, hca⟩)

/-- Where no key repeats, every element is a first. -/
theorem firstsBy_of_nodup {l : List α} (h : (l.map key).Nodup) : firstsBy key l = l := by
  induction l with
  | nil => rfl
  | cons a as ih =>
      rw [List.map_cons, List.nodup_cons] at h
      rw [firstsBy, ih h.2, List.filter_eq_self.mpr]
      intro b hb
      simpa using fun he : key b = key a => h.1 (he ▸ List.mem_map_of_mem hb)

theorem map_firstsBy {β : Type} (f : β → α) (l : List β) :
    (firstsBy (fun b => key (f b)) l).map f = firstsBy key (l.map f) := by
  induction l with
  | nil => rfl
  | cons b bs ih =>
      rw [firstsBy, List.map_cons, List.map_cons, firstsBy, ← ih, List.filter_map]
      rfl

theorem firstsBy_eq_nil {l : List α} : firstsBy key l = [] ↔ l = [] := by
  cases l <;> simp [firstsBy]

/-- The first elements are those with no element of their key before them. -/
theorem mem_firstsBy {l : List α} {a : α} :
    a ∈ firstsBy key l ↔ ∃ before after, l = before ++ a :: after ∧ ∀ b ∈ before, key b ≠ key a := by
  induction l with
  | nil => simp [firstsBy]
  | cons first rest ih =>
      rw [firstsBy, List.mem_cons, List.mem_filter, ih]
      constructor
      · rintro (rfl | ⟨⟨before, after, rfl, hbefore⟩, hne⟩)
        · exact ⟨[], rest, rfl, by simp⟩
        · refine ⟨first :: before, after, rfl, fun b hb => ?_⟩
          cases List.mem_cons.mp hb with
          | inl heq => exact heq ▸ fun h => by simp [h] at hne
          | inr hb => exact hbefore b hb
      · rintro ⟨before, after, hl, hbefore⟩
        cases before with
        | nil => exact .inl (List.cons.inj hl).1.symm
        | cons b before =>
            obtain ⟨rfl, rfl⟩ := List.cons.inj hl
            have hne := hbefore first List.mem_cons_self
            exact .inr ⟨⟨before, after, rfl, fun b hb => hbefore b (List.mem_cons_of_mem _ hb)⟩, by simpa using hne.symm⟩

end YiQiao.Lib
