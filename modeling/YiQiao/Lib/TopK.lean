import Mathlib.Data.List.Sort

/-!
# Ranked selections

`ranked r l` sorts stably, so elements that tie keep their order, and `topK` keeps the first `k` of
them. Dropping elements commutes with the sorting, and with the cut while the cut is not reached.
-/

namespace YiQiao.Lib

variable {α β : Type} (r : α → α → Prop) [DecidableRel r]

/-- Stable sorting. -/
def ranked (l : List α) : List α := l.insertionSort r

def topK (k : Nat) (l : List α) : List α := (ranked r l).take k

variable {r}

@[simp] theorem mem_ranked {l : List α} {a : α} : a ∈ ranked r l ↔ a ∈ l := List.mem_insertionSort r

@[simp] theorem length_ranked (l : List α) : (ranked r l).length = l.length :=
  List.length_insertionSort r l

theorem ranked_perm (l : List α) : (ranked r l).Perm l := List.perm_insertionSort r l

theorem mem_of_mem_topK {k : Nat} {l : List α} {a : α} (h : a ∈ topK r k l) : a ∈ l :=
  mem_ranked.mp (List.mem_of_mem_take h)

theorem length_topK_le (k : Nat) (l : List α) : (topK r k l).length ≤ k := List.length_take_le k _

theorem topK_subperm (k : Nat) (l : List α) : (topK r k l).Subperm l :=
  (List.take_sublist k _).subperm.trans (ranked_perm l).subperm

theorem topK_map_nodup {k : Nat} {l : List α} {f : α → β} (h : (l.map f).Nodup) :
    ((topK r k l).map f).Nodup := by
  unfold topK
  rw [List.map_take]
  exact (((ranked_perm l).map f).nodup_iff.mpr h).sublist (List.take_sublist _ _)

/-- A cut that is not reached cuts nothing. -/
theorem topK_of_length_le {k : Nat} {l : List α} (h : l.length ≤ k) : topK r k l = ranked r l :=
  List.take_of_length_le (by rwa [length_ranked])

theorem filter_orderedInsert [IsTrans α r] [Std.Total r] (p : α → Bool) (a : α) {l : List α}
    (hl : l.Pairwise r) :
    (l.orderedInsert r a).filter p =
      if p a then (l.filter p).orderedInsert r a else l.filter p := by
  induction l with
  | nil => cases h : p a <;> simp [h]
  | cons b l ih =>
      obtain ⟨hb, hl⟩ := List.pairwise_cons.mp hl
      by_cases hab : r a b
      · rw [List.orderedInsert_cons_of_le r l hab, List.filter_cons]
        split
        · -- everything kept from `b :: l` is above `a`
          have hall : ∀ c ∈ (b :: l).filter p, r a c := by
            intro c hc
            rcases List.mem_cons.mp (List.mem_of_mem_filter hc) with rfl | hc
            · exact hab
            · exact Trans.trans hab (hb c hc)
          cases hf : (b :: l).filter p with
          | nil => rfl
          | cons c cs =>
              rw [List.orderedInsert_cons_of_le r cs (hall c (by rw [hf]; exact List.mem_cons_self))]
        · rfl
      · rw [List.orderedInsert_of_not_le r l hab, List.filter_cons, List.filter_cons, ih hl]
        by_cases hpa : p a
        · by_cases hpb : p b
          · simp [hpa, hpb, List.orderedInsert_of_not_le r _ hab]
          · simp [hpa, hpb]
        · by_cases hpb : p b
          · simp [hpa, hpb]
          · simp [hpa, hpb]

/-- Dropping elements commutes with sorting. -/
theorem filter_ranked [IsTrans α r] [Std.Total r] (p : α → Bool) (l : List α) :
    (ranked r l).filter p = ranked r (l.filter p) := by
  induction l with
  | nil => rfl
  | cons a l ih =>
      unfold ranked at ih ⊢
      rw [List.insertionSort_cons, filter_orderedInsert p a (List.pairwise_insertionSort r l), ih,
        List.filter_cons]
      split
      · rw [List.insertionSort_cons]
      · rfl

/-- Dropping elements after a cut that was not reached is dropping them before. -/
theorem filter_topK [IsTrans α r] [Std.Total r] (p : α → Bool) {k : Nat} {l : List α}
    (h : l.length ≤ k ∨ ∀ a ∈ l, p a = true) : (topK r k l).filter p = topK r k (l.filter p) := by
  rcases h with h | h
  · rw [topK_of_length_le h, filter_ranked,
      topK_of_length_le ((List.length_filter_le p l).trans h)]
  · rw [List.filter_eq_self.mpr h, List.filter_eq_self.mpr fun a ha => h a (mem_of_mem_topK ha)]

/-! ## Cuts that dropped elements do not disturb -/

/-- No dropped element stands before the cut while a kept one stands behind it. -/
def Unobstructed (p : α → Bool) (k : Nat) (l : List α) : Prop :=
  (∀ a ∈ l.take k, p a = true) ∨ ∀ a ∈ l.drop k, p a = false

/-- Dropping after a cut is dropping before it, exactly when the cut is unobstructed. -/
theorem filter_take_iff {p : α → Bool} {k : Nat} {l : List α} :
    (l.take k).filter p = (l.filter p).take k ↔ Unobstructed p k l := by
  have hsplit : l.filter p = (l.take k).filter p ++ (l.drop k).filter p := by
    rw [← List.filter_append, List.take_append_drop]
  constructor
  · intro h
    by_cases hall : ∀ a ∈ l.take k, p a = true
    · exact .inl hall
    · right
      have hlt : ((l.take k).filter p).length < k := by
        refine lt_of_lt_of_le ?_ (List.length_take_le k l)
        refine lt_of_le_of_ne (List.length_filter_le _ _) fun he => hall fun a ha => ?_
        exact List.filter_eq_self.mp (List.filter_sublist.eq_of_length he) a ha
      rw [hsplit, List.take_append, List.take_of_length_le hlt.le, List.self_eq_append_right,
        List.take_eq_nil_iff] at h
      rcases h with h | h
      · omega
      · exact fun a ha => by simpa using List.filter_eq_nil_iff.mp h a ha
  · rintro (hall | hnone)
    · rw [hsplit, List.filter_eq_self.mpr hall]
      by_cases hk : k ≤ l.length
      · rw [List.take_append_of_le_length (by rw [List.length_take]; omega), List.take_take, min_self]
      · rw [List.drop_eq_nil_of_le (by omega), List.filter_nil, List.append_nil, List.take_take,
          min_self]
    · have hnil : (l.drop k).filter p = [] := List.filter_eq_nil_iff.mpr (by simpa using hnone)
      rw [hsplit, hnil, List.append_nil]
      exact (List.take_of_length_le
        ((List.length_filter_le _ _).trans (List.length_take_le k l))).symm

/-- A cut with as many kept elements as there can be is unobstructed. -/
theorem length_filter_take_iff {p : α → Bool} {k : Nat} {l : List α} :
    ((l.take k).filter p).length = min k (l.filter p).length ↔ Unobstructed p k l := by
  rw [← filter_take_iff]
  constructor
  · intro h
    have hprefix : (l.take k).filter p <+: l.filter p := by
      refine ⟨(l.drop k).filter p, ?_⟩
      rw [← List.filter_append, List.take_append_drop]
    rw [List.prefix_iff_eq_take.mp hprefix, h, ← List.take_take, List.take_length]
  · intro h
    rw [h, List.length_take]

theorem map_ranked {s : β → β → Prop} [DecidableRel s] (f : α → β) (l : List α)
    (h : ∀ a ∈ l, ∀ b ∈ l, r a b ↔ s (f a) (f b)) : (ranked r l).map f = ranked s (l.map f) :=
  List.map_insertionSort r s f l h

/-! ## Two lists of the same best elements -/

section

variable [IsTrans α r] [Std.Total r] {xs ys : List α} {k : Nat}

/-- Elements behind the cut can be left out. -/
theorem topK_filter (p : α → Bool) (h : ∀ a ∈ topK r k xs, p a = true) : topK r k (xs.filter p) = topK r k xs := by
  rw [topK, ← filter_ranked]
  exact (filter_take_iff.mpr (.inl h)).symm.trans (List.filter_eq_self.mpr h)

/-- Sorting forgets the order where no two elements tie. -/
theorem ranked_eq_of_perm (h : xs.Perm ys) (hties : ∀ a ∈ xs, ∀ b ∈ ys, r a b → r b a → a = b) :
    ranked r xs = ranked r ys := by
  apply List.Perm.eq_of_pairwise _ (List.pairwise_insertionSort r xs) (List.pairwise_insertionSort r ys)
  · exact (ranked_perm xs).trans (h.trans (ranked_perm ys).symm)
  · intro a b ha hb
    exact hties a (mem_ranked.mp ha) b (mem_ranked.mp hb)

/-- Where no two elements tie, two lists have the same best elements exactly when the best of each stand in the
other. -/
theorem topK_eq_iff (hxs : xs.Nodup) (hys : ys.Nodup) (hties : ∀ a ∈ xs, ∀ b ∈ ys, r a b → r b a → a = b) :
    topK r k xs = topK r k ys ↔ (∀ a ∈ topK r k xs, a ∈ ys) ∧ ∀ b ∈ topK r k ys, b ∈ xs := by
  classical
  constructor
  · intro h
    constructor
    · intro a ha
      rw [h] at ha
      exact mem_of_mem_topK ha
    · intro b hb
      rw [← h] at hb
      exact mem_of_mem_topK hb
  · rintro ⟨hx, hy⟩
    have hboth : (xs.filter (· ∈ ys)).Perm (ys.filter (· ∈ xs)) := by
      rw [List.perm_ext_iff_of_nodup (hxs.filter _) (hys.filter _)]
      intro a
      simp [and_comm]
    have hsame : ranked r (xs.filter (· ∈ ys)) = ranked r (ys.filter (· ∈ xs)) := by
      apply ranked_eq_of_perm hboth
      intro a ha b hb
      exact hties a (List.mem_of_mem_filter ha) b (List.mem_of_mem_filter hb)
    calc topK r k xs = topK r k (xs.filter (· ∈ ys)) := (topK_filter _ (by simpa using hx)).symm
      _ = topK r k (ys.filter (· ∈ xs)) := by rw [topK, hsame, topK]
      _ = topK r k ys := topK_filter _ (by simpa using hy)

end

end YiQiao.Lib
