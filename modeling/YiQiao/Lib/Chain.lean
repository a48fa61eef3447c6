import Mathlib.Data.List.Chain
import Mathlib.Data.List.Nodup

/-!
# Following a partial map

The walk from an element along a partial map, up to where the map stops or comes back to an element of the walk.
-/

namespace YiQiao.Lib

variable {κ : Type} [DecidableEq κ]

/-- The elements of a list that were not seen shrink with every step. -/
theorem unseen_lt {all seen : List κ} {k : κ} (hk : k ∈ all) (hnew : k ∉ seen) :
    (all.filter (· ∉ k :: seen)).length < (all.filter (· ∉ seen)).length := by
  have hsub : (all.filter (· ∉ k :: seen)).Sublist (all.filter (· ∉ seen)) := by
    apply List.monotone_filter_right
    intro a ha
    simp only [decide_eq_true_eq, List.mem_cons, not_or] at ha ⊢
    exact ha.2
  apply lt_of_le_of_ne hsub.length_le
  intro hlength
  have hmem : k ∈ all.filter (· ∉ k :: seen) := by
    rw [hsub.eq_of_length hlength]
    simpa using ⟨hk, hnew⟩
  simp at hmem

/-- The walk from an element of the list, but for what was seen. -/
def follow (next : κ → Option κ) (all seen : List κ) (k : κ) : List κ :=
  if k ∈ all ∧ k ∉ seen then
    k :: match next k with
      | none => []
      | some k' => follow next all (k :: seen) k'
  else []
termination_by (all.filter (· ∉ seen)).length
decreasing_by exact unseen_lt (by simp_all) (by simp_all)

section

variable {next : κ → Option κ} {all seen : List κ} {k : κ}

theorem follow_of_seen (h : ¬ (k ∈ all ∧ k ∉ seen)) : follow next all seen k = [] := by
  rw [follow, if_neg h]

theorem follow_of_new (h : k ∈ all ∧ k ∉ seen) :
    follow next all seen k = k :: ((next k).map (follow next all (k :: seen))).getD [] := by
  rw [follow, if_pos h]
  cases next k <;> rfl

theorem mem_follow {a : κ} (h : a ∈ follow next all seen k) : a ∈ all ∧ a ∉ seen := by
  induction seen, k using follow.induct all with
  | case1 seen k hnew ih =>
      rw [follow_of_new hnew, List.mem_cons] at h
      rcases h with rfl | h
      · exact hnew
      · cases hnext : next k with
        | none => simp [hnext] at h
        | some k' =>
            rw [hnext, Option.map_some, Option.getD_some] at h
            obtain ⟨hall, hseen⟩ := ih k' h
            exact ⟨hall, fun hmem => hseen (List.mem_cons_of_mem _ hmem)⟩
  | case2 seen k hseen => simp [follow_of_seen hseen] at h

theorem follow_nodup : (follow next all seen k).Nodup := by
  induction seen, k using follow.induct all with
  | case1 seen k hnew ih =>
      rw [follow_of_new hnew]
      cases next k with
      | none => simp
      | some k' =>
          rw [Option.map_some, Option.getD_some, List.nodup_cons]
          exact ⟨fun hmem => (mem_follow hmem).2 List.mem_cons_self, ih k'⟩
  | case2 seen k hseen => simp [follow_of_seen hseen]

theorem follow_head (h : k ∈ all ∧ k ∉ seen) : (follow next all seen k).head? = some k := by
  simp [follow_of_new h]

/-- Every element of the walk but the first is the next one of the element before it. -/
theorem follow_chain : (follow next all seen k).IsChain fun a b => next a = some b := by
  induction seen, k using follow.induct all with
  | case1 seen k hnew ih =>
      rw [follow_of_new hnew]
      cases hnext : next k with
      | none => simp
      | some k' =>
          rw [Option.map_some, Option.getD_some]
          have hrest := ih k'
          by_cases hnew' : k' ∈ all ∧ k' ∉ k :: seen
          · rw [follow_of_new hnew'] at hrest ⊢
            exact hrest.cons_cons hnext
          · simp [follow_of_seen hnew']
  | case2 seen k hseen => simp [follow_of_seen hseen]

end

end YiQiao.Lib
