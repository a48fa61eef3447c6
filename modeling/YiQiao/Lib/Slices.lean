import Mathlib.Data.List.Basic

/-!
# Slices of a list

A list in slices of one length, the last of them shorter: together they are the list.
-/

namespace YiQiao.Lib

variable {α : Type}

/-- `l[i * k : (i + 1) * k]`. -/
def slice (k : Nat) (l : List α) (i : Nat) : List α := (l.drop (i * k)).take k

/-- How many slices a list has. -/
def sliceCount (k : Nat) (l : List α) : Nat := (l.length + k - 1) / k

def slices (k : Nat) (l : List α) : List (List α) := (List.range (sliceCount k l)).map (slice k l)

variable {k : Nat} {l : List α}

theorem length_le_sliceCount (hk : 0 < k) : l.length ≤ sliceCount k l * k := by
  have hdivided := Nat.div_add_mod (l.length + k - 1) k
  have hrest := Nat.mod_lt (l.length + k - 1) hk
  rw [sliceCount, Nat.mul_comm]
  omega

theorem flatten_range_slices (n : Nat) : ((List.range n).map (slice k l)).flatten = l.take (n * k) := by
  induction n with
  | zero => simp
  | succ n ih =>
    rw [List.range_succ, List.map_append, List.flatten_append, ih, Nat.succ_mul, List.take_add]
    simp [slice]

@[simp] theorem flatten_slices (hk : 0 < k) : (slices k l).flatten = l := by
  rw [slices, flatten_range_slices, List.take_of_length_le (length_le_sliceCount hk)]

@[simp] theorem length_slices : (slices k l).length = sliceCount k l := by simp [slices]

theorem slice_eq_nil {i : Nat} (hk : 0 < k) (hi : sliceCount k l ≤ i) : slice k l i = [] := by
  have hle : l.length ≤ i * k := Nat.le_trans (length_le_sliceCount hk) (Nat.mul_le_mul_right k hi)
  simp [slice, List.drop_eq_nil_of_le hle]

theorem subset_of_mem_slices {batch : List α} (h : batch ∈ slices k l) : batch ⊆ l := by
  obtain ⟨i, _, rfl⟩ := List.mem_map.mp h
  intro a ha
  exact List.mem_of_mem_drop (List.mem_of_mem_take ha)

end YiQiao.Lib
