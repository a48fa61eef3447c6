import Mathlib.Data.List.Nodup
import YiQiao.Lib.Groups

/-!
# Condensing groups

The elements of a list fall into groups. The head of each group takes what the group has, and the others go.
-/

namespace YiQiao.Lib

/-! ## Buckets -/

section

variable {κ α : Type} [DecidableEq κ] {key : κ} {events : List (κ × α)}

/-- The events of every key, in order. -/
def bucketed (events : List (κ × α)) : List (κ × List α) :=
  events.foldl (fun buckets e => Dict.set e.1 ((buckets.lookup e.1).getD [] ++ [e.2]) buckets) []

theorem foldlM_bucketed (buckets : List (κ × List α)) :
    events.foldlM (addTo (ε := Unit) (fun bucket a => .ok (bucket ++ [a])) []) buckets =
      .ok (events.foldl (fun buckets e => Dict.set e.1 ((buckets.lookup e.1).getD [] ++ [e.2]) buckets) buckets) := by
  induction events generalizing buckets with
  | nil => rfl
  | cons e events ih => exact ih _

theorem foldlM_snoc (as bucket : List α) :
    as.foldlM (fun bucket a => (.ok (bucket ++ [a]) : Except Unit (List α))) bucket = .ok (bucket ++ as) := by
  induction as generalizing bucket with
  | nil => rw [List.append_nil]; rfl
  | cons a as ih =>
      rw [List.foldlM_cons]
      exact (ih _).trans (by rw [List.append_assoc, List.singleton_append])

theorem mem_bucketed {bucket : List α} : (key, bucket) ∈ bucketed events ↔ bucket = ofKey key events ∧ bucket ≠ [] := by
  rw [bucketed, mem_groups (foldlM_bucketed []), foldlM_snoc, List.nil_append, Except.ok.injEq]
  constructor
  · rintro ⟨hne, rfl⟩
    exact ⟨rfl, hne⟩
  · rintro ⟨rfl, hne⟩
    exact ⟨hne, rfl⟩

theorem bucketed_unique (events : List (κ × α)) : Dict.Unique (bucketed events) := groups_unique (foldlM_bucketed [])

theorem mem_ofKey {a : α} : a ∈ ofKey key events ↔ (key, a) ∈ events := by
  simp [ofKey]

end

/-! ## Condensing -/

variable {α ι : Type} [DecidableEq ι] (id : α → ι) (merge : List α → α → α)

/-- The head of a group takes what the group has. -/
def settle (group : List α) (a : α) : α := if group.head?.map id = some (id a) then merge group a else a

def condenseGroup (l group : List α) : List α :=
  (l.map (settle id merge group)).filter fun a => id a ∉ group.tail.map id

def condense (l : List α) (groups : List (List α)) : List α := groups.foldl (condenseGroup id merge) l

/-- The elements that stand in a group, but not at its head. -/
def surplus (groups : List (List α)) : List ι := groups.flatMap fun group => group.tail.map id

variable {id merge} {l : List α} {group : List α} {groups : List (List α)} {a a' : α}

theorem id_settle (hmerge : ∀ group a, id (merge group a) = id a) (group : List α) (a : α) :
    id (settle id merge group a) = id a := by
  rw [settle]
  split
  · exact hmerge group a
  · rfl

theorem condense_eq (hmerge : ∀ group a, id (merge group a) = id a) (l : List α) (groups : List (List α)) :
    condense id merge l groups =
      (l.filter fun a => id a ∉ surplus id groups).map fun a => groups.foldl (fun a g => settle id merge g a) a := by
  rw [condense]
  induction groups generalizing l with
  | nil => simp [surplus]
  | cons group groups ih =>
      rw [List.foldl_cons, ih, condenseGroup, List.filter_filter, List.filter_map, List.map_map]
      congr 1
      refine List.filter_congr fun a _ => ?_
      rw [Function.comp_apply, id_settle hmerge, Bool.and_comm, ← Bool.decide_and, decide_eq_decide]
      rw [surplus, surplus, List.flatMap_cons, List.mem_append, not_or]

theorem foldl_settle_of_notMem (h : ∀ g ∈ groups, g.head?.map id ≠ some (id a)) :
    groups.foldl (fun a g => settle id merge g a) a = a := by
  induction groups with
  | nil => rfl
  | cons g groups ih =>
      rw [List.foldl_cons, settle, if_neg (h g List.mem_cons_self)]
      exact ih fun g' hg' => h g' (List.mem_cons_of_mem _ hg')

/-- The head of a group is merged with that group alone. -/
theorem foldl_settle_of_mem (hmerge : ∀ group a, id (merge group a) = id a)
    (hheads : groups.Pairwise fun g g' => g.head?.map id ≠ g'.head?.map id) (hgroup : group ∈ groups)
    (hhead : group.head?.map id = some (id a)) :
    groups.foldl (fun a g => settle id merge g a) a = merge group a := by
  induction groups with
  | nil => cases hgroup
  | cons g groups ih =>
      rw [List.pairwise_cons] at hheads
      rw [List.foldl_cons]
      rcases List.mem_cons.mp hgroup with rfl | hgroup
      · rw [settle, if_pos hhead]
        apply foldl_settle_of_notMem
        intro g' hg' hsame
        rw [hmerge] at hsame
        exact hheads.1 g' hg' (hhead.trans hsame.symm)
      · have hne : g.head?.map id ≠ some (id a) := by
          intro hsame
          exact hheads.1 group hgroup (hsame.trans hhead.symm)
        rw [settle, if_neg hne]
        exact ih hheads.2 hgroup

end YiQiao.Lib
