import Mathlib.Data.List.Nodup
import Mathlib.Logic.Function.Basic

/-!
# Writes to a store

A store maps keys to values, and a list of writes is carried out one after the other. What stands at a key afterwards
depends on the writes to that key alone.
-/

namespace YiQiao.Lib

variable {κ β γ : Type} [DecidableEq κ]

def write (d : κ → Option β) (l : List (κ × β)) : κ → Option β :=
  l.foldl (fun d p => Function.update d p.1 (some p.2)) d

section

variable {d : κ → Option β} {l l' : List (κ × β)} {k : κ} {b : β}

@[simp] theorem write_nil : write d [] = d := rfl

@[simp] theorem write_cons (p : κ × β) : write d (p :: l) = write (Function.update d p.1 (some p.2)) l := rfl

theorem write_append : write d (l ++ l') = write (write d l) l' := List.foldl_append

theorem write_of_notMem (h : k ∉ l.map Prod.fst) : write d l k = d k := by
  induction l generalizing d with
  | nil => rfl
  | cons p l ih =>
      rw [List.map_cons, List.mem_cons, not_or] at h
      rw [write_cons, ih h.2, Function.update_of_ne h.1]

/-- Where the writes to a key agree under a reading, the reading shows them. -/
theorem map_write_of_mem {f : β → γ} {c : γ} (hmem : k ∈ l.map Prod.fst)
    (hsame : ∀ p ∈ l, p.1 = k → f p.2 = c) : (write d l k).map f = some c := by
  induction l generalizing d with
  | nil => cases hmem
  | cons p l ih =>
      rw [write_cons]
      by_cases hrest : k ∈ l.map Prod.fst
      · exact ih hrest fun q hq => hsame q (List.mem_cons_of_mem _ hq)
      · have hk : p.1 = k := by
          rw [List.map_cons, List.mem_cons] at hmem
          exact (hmem.resolve_right hrest).symm
        rw [write_of_notMem hrest, ← hk, Function.update_self, Option.map_some,
          hsame p List.mem_cons_self hk]

theorem write_of_mem (hnodup : (l.map Prod.fst).Nodup) (h : (k, b) ∈ l) : write d l k = some b := by
  have hsame : ∀ p ∈ l, p.1 = k → id p.2 = b := by
    intro p hp hk
    have hpair : p = (k, b) := List.inj_on_of_nodup_map hnodup hp h hk
    rw [hpair]
    rfl
  simpa using @map_write_of_mem _ _ _ _ d l k id b (List.mem_map_of_mem h) hsame

/-- The order of the writes does not show where those to one key agree. -/
theorem map_write_perm {f : β → γ} (hperm : l.Perm l')
    (hsame : ∀ p ∈ l, ∀ q ∈ l, p.1 = q.1 → f p.2 = f q.2) (k : κ) :
    (write d l k).map f = (write d l' k).map f := by
  by_cases hmem : k ∈ l.map Prod.fst
  · obtain ⟨p, hp, rfl⟩ := List.mem_map.mp hmem
    rw [map_write_of_mem hmem fun q hq hk => hsame q hq p hp hk,
      map_write_of_mem ((hperm.map Prod.fst).mem_iff.mp hmem) fun q hq hk => hsame q (hperm.mem_iff.mpr hq) p hp hk]
  · rw [write_of_notMem hmem, write_of_notMem fun h => hmem ((hperm.map Prod.fst).mem_iff.mpr h)]

theorem write_perm (hperm : l.Perm l') (hsame : ∀ p ∈ l, ∀ q ∈ l, p.1 = q.1 → p.2 = q.2) : write d l = write d l' := by
  funext k
  have hread := @map_write_perm _ _ _ _ d l l' id hperm hsame k
  rwa [Option.map_id] at hread

theorem map_write (f : β → γ) :
    (write d l k).map f = write (fun k => (d k).map f) (l.map fun p => (p.1, f p.2)) k := by
  induction l generalizing d with
  | nil => rfl
  | cons p l ih =>
      rw [write_cons, ih, List.map_cons, write_cons]
      congr 1
      funext k'
      by_cases hk : k' = p.1
      · rw [hk, Function.update_self, Function.update_self, Option.map_some]
      · rw [Function.update_of_ne hk, Function.update_of_ne hk]

end

end YiQiao.Lib
