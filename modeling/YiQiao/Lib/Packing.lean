import Mathlib.Algebra.GroupWithZero.Nat
import Mathlib.Data.List.Basic

/-!
# Packing

A list cut greedily into packs of bounded weight: a pack is closed before the element that would take it
over the limit. An element heavier than the limit is a pack of its own.
-/

namespace YiQiao.Lib

variable {α : Type}

/-- The packs of a list, of which the first has begun. -/
def packFrom (weight : α → Nat) (limit : Nat) : List α → List α → List (List α)
  | current, [] => if current = [] then [] else [current]
  | current, x :: xs =>
      if current ≠ [] ∧ limit < (current.map weight).sum + weight x then
        current :: packFrom weight limit [x] xs
      else packFrom weight limit (current ++ [x]) xs

def pack (weight : α → Nat) (limit : Nat) (xs : List α) : List (List α) := packFrom weight limit [] xs

variable {weight : α → Nat} {limit : Nat}

theorem packFrom_flatten (current xs : List α) : (packFrom weight limit current xs).flatten = current ++ xs := by
  induction xs generalizing current with
  | nil =>
      unfold packFrom
      split
      · rename_i h
        rw [h]
        rfl
      · simp
  | cons x xs ih =>
      unfold packFrom
      split
      · rw [List.flatten_cons, ih, List.singleton_append]
      · rw [ih, List.append_assoc, List.singleton_append]

/-- Nothing is lost, added or moved. -/
theorem pack_flatten (xs : List α) : (pack weight limit xs).flatten = xs := packFrom_flatten [] xs

theorem packFrom_ne {current xs p : List α} (h : p ∈ packFrom weight limit current xs) : p ≠ [] := by
  induction xs generalizing current with
  | nil =>
      unfold packFrom at h
      split at h
      · cases h
      · rename_i hne
        rw [List.mem_singleton.mp h]
        exact hne
  | cons x xs ih =>
      unfold packFrom at h
      split at h
      · rename_i hfull
        rcases List.mem_cons.mp h with rfl | h
        · exact hfull.1
        · exact ih h
      · exact ih h

theorem pack_ne {xs p : List α} (h : p ∈ pack weight limit xs) : p ≠ [] := packFrom_ne h

theorem packFrom_le {current xs p : List α} (hcurrent : (current.map weight).sum ≤ limit) (hxs : ∀ x ∈ xs, weight x ≤ limit)
    (h : p ∈ packFrom weight limit current xs) : (p.map weight).sum ≤ limit := by
  induction xs generalizing current with
  | nil =>
      unfold packFrom at h
      split at h
      · cases h
      · rwa [List.mem_singleton.mp h]
  | cons x xs ih =>
      obtain ⟨hx, hrest⟩ := List.forall_mem_cons.mp hxs
      unfold packFrom at h
      split at h
      · rcases List.mem_cons.mp h with rfl | h
        · exact hcurrent
        · exact ih (by simpa using hx) hrest h
      · rename_i hfits
        apply ih _ hrest h
        rw [not_and_or, not_not, Nat.not_lt] at hfits
        rcases hfits with rfl | hfits
        · simpa using hx
        · simpa using hfits

/-- Where every element keeps the limit, every pack does. -/
theorem pack_le {xs p : List α} (hxs : ∀ x ∈ xs, weight x ≤ limit) (h : p ∈ pack weight limit xs) :
    (p.map weight).sum ≤ limit := packFrom_le (Nat.zero_le _) hxs h

end YiQiao.Lib
