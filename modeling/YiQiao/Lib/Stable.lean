import Mathlib.Order.Defs.LinearOrder
import YiQiao.Lib.TopK

/-!
# Stable sorting by a key

Sorting keeps elements of one key in their order. A list that is sorted is found again after it was sorted the other
way, and its end are the elements with the largest keys, where no key stands on both sides of the cut.
-/

namespace YiQiao.Lib

variable {α κ : Type} [LinearOrder κ] {key : α → κ} {l l' : List α} {k : Nat}

/-- The last elements. -/
def latest (k : Nat) (l : List α) : List α := l.drop (l.length - k)

/-- The elements with the smaller keys first. -/
def ascending (key : α → κ) (l : List α) : List α := ranked (fun a b => key a ≤ key b) l

def descending (key : α → κ) (l : List α) : List α := ranked (fun a b => key b ≤ key a) l

instance ascendingTotal : Std.Total fun a b : α => key a ≤ key b := ⟨fun a b => le_total (key a) (key b)⟩

instance ascendingTrans : IsTrans α fun a b => key a ≤ key b := ⟨fun _ _ _ => le_trans⟩

instance descendingTotal : Std.Total fun a b : α => key b ≤ key a := ⟨fun a b => le_total (key b) (key a)⟩

instance descendingTrans : IsTrans α fun a b => key b ≤ key a := ⟨fun _ _ _ h h' => le_trans h' h⟩

theorem head_le_of_mem {a b : α} (hl : (a :: l).Pairwise fun a b => key a ≤ key b) (hb : b ∈ a :: l) :
    key a ≤ key b := by
  rcases List.mem_cons.mp hb with rfl | hb
  · exact le_rfl
  · exact List.rel_of_pairwise_cons hl hb

/-- Two sorted lists are one list where the elements of each key are. -/
theorem eq_of_sorted_classes (hl : l.Pairwise fun a b => key a ≤ key b) (hl' : l'.Pairwise fun a b => key a ≤ key b)
    (h : ∀ k, l.filter (fun a => key a = k) = l'.filter fun a => key a = k) : l = l' := by
  have hmem : ∀ a, a ∈ l ↔ a ∈ l' := by
    intro a
    have hclass := congrArg (a ∈ ·) (h (key a))
    simpa using hclass
  induction l generalizing l' with
  | nil =>
    cases l' with
    | nil => rfl
    | cons b l' => exact absurd ((hmem b).mpr List.mem_cons_self) (by simp)
  | cons a l ih =>
    cases l' with
    | nil => exact absurd ((hmem a).mp List.mem_cons_self) (by simp)
    | cons b l' =>
      have hkey : key a = key b := by
        apply le_antisymm
        · exact head_le_of_mem hl ((hmem b).mpr List.mem_cons_self)
        · exact head_le_of_mem hl' ((hmem a).mp List.mem_cons_self)
      have hclass := h (key a)
      rw [List.filter_cons_of_pos (by simp), List.filter_cons_of_pos (by simp [hkey])] at hclass
      obtain ⟨rfl, hrest⟩ := List.cons.inj hclass
      have hclasses : ∀ k, l.filter (fun c => key c = k) = l'.filter fun c => key c = k := by
        intro k
        by_cases hk : key a = k
        · rw [← hk]
          exact hrest
        · simpa [hk] using h k
      rw [ih (List.Pairwise.of_cons hl) (List.Pairwise.of_cons hl') hclasses]
      intro c
      have hclass := congrArg (c ∈ ·) (hclasses (key c))
      simpa using hclass

/-- Elements of one key are not moved. -/
theorem ranked_class {r : α → α → Prop} [DecidableRel r] [IsTrans α r] [Std.Total r] (k : κ)
    (hr : ∀ a b, key a = key b → r a b) :
    (ranked r l).filter (fun a => key a = k) = l.filter fun a => key a = k := by
  rw [filter_ranked]
  apply List.Pairwise.insertionSort_eq
  apply List.pairwise_of_forall_mem_list
  intro a ha b hb
  apply hr
  rw [of_decide_eq_true (List.mem_filter.mp ha).2, of_decide_eq_true (List.mem_filter.mp hb).2]

/-- A sorted list is found again. -/
theorem ascending_descending (hl : l.Pairwise fun a b => key a ≤ key b) : ascending key (descending key l) = l := by
  have hsorted : (ascending key (descending key l)).Pairwise fun a b => key a ≤ key b := List.pairwise_insertionSort _ _
  apply eq_of_sorted_classes hsorted hl
  intro k
  unfold ascending descending
  rw [ranked_class k fun a b h => h.le, ranked_class k fun a b h => h.ge]

/-- Elements that go behind all others are passed by. -/
theorem ranked_append {r : α → α → Prop} [DecidableRel r] (h : ∀ a ∈ l, ∀ b ∈ l', ¬ r a b) :
    ranked r (l ++ l') = ranked r l' ++ ranked r l := by
  have hinsert : ∀ (a : α) (front back : List α), (∀ b ∈ front, ¬ r a b) →
      (front ++ back).orderedInsert r a = front ++ back.orderedInsert r a := by
    intro a front back hfront
    induction front with
    | nil => rfl
    | cons b front ih =>
      obtain ⟨hb, hrest⟩ := List.forall_mem_cons.mp hfront
      rw [List.cons_append, List.orderedInsert_of_not_le r _ hb, ih hrest, List.cons_append]
  induction l with
  | nil => simp [ranked]
  | cons a l ih =>
    obtain ⟨ha, hrest⟩ := List.forall_mem_cons.mp h
    have hih := ih hrest
    unfold ranked at hih ⊢
    rw [List.cons_append, List.insertionSort_cons, hih, List.insertionSort_cons]
    apply hinsert
    intro b hb
    exact ha b ((List.mem_insertionSort r).mp hb)

/-- The largest keys of a sorted list stand at its end, where no key is cut. -/
theorem topK_perm_latest (h : ∀ a ∈ l.take (l.length - k), ∀ b ∈ latest k l, key a < key b) :
    (topK (fun a b => key b ≤ key a) k l).Perm (latest k l) := by
  by_cases hlong : l.length ≤ k
  · rw [topK_of_length_le hlong, latest, Nat.sub_eq_zero_of_le hlong]
    exact ranked_perm l
  · have hsplit : ranked (fun a b => key b ≤ key a) l =
        ranked (fun a b => key b ≤ key a) (latest k l) ++
          ranked (fun a b => key b ≤ key a) (l.take (l.length - k)) := by
      conv_lhs => rw [← List.take_append_drop (l.length - k) l]
      apply ranked_append
      intro a ha b hb
      exact not_le_of_gt (h a ha b hb)
    have hlength : (ranked (fun a b => key b ≤ key a) (latest k l)).length = k := by
      rw [length_ranked, latest, List.length_drop]
      omega
    rw [topK, hsplit, List.take_left' hlength]
    exact ranked_perm _

theorem latest_append (k : Nat) (l l' : List α) : latest k (latest k l ++ l') = latest k (l ++ l') := by
  unfold latest
  rw [List.length_append, List.length_append, List.length_drop, List.drop_append, List.drop_append, List.drop_drop,
    List.length_drop]
  congr 2
  · omega
  · omega

theorem latest_sublist (k : Nat) (l : List α) : (latest k l).Sublist l := List.drop_sublist _ _

theorem length_latest_le (k : Nat) (l : List α) : (latest k l).length ≤ k := by
  rw [latest, List.length_drop]
  omega

end YiQiao.Lib
