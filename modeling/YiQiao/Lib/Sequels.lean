import YiQiao.Lib.Requests

/-!
# What comes after

Properties of the elements of a list together with what comes after them, and of what is still to come where traces are
followed side by side.
-/

namespace YiQiao.Lib

variable {α : Type}

/-- Every element, with the list after it. -/
def EachThen (P : α → List α → Prop) : List α → Prop
  | [] => True
  | x :: rest => P x rest ∧ EachThen P rest

variable {P : α → List α → Prop} {xs ys : List α}

theorem EachThen.append (hgrow : ∀ x rest more, P x rest → P x (rest ++ more)) (hxs : EachThen P xs)
    (hys : EachThen P ys) : EachThen P (xs ++ ys) := by
  induction xs with
  | nil => exact hys
  | cons x xs ih => exact ⟨hgrow x xs ys hxs.1, ih hxs.2⟩

theorem eachThen_of_forall (h : ∀ x ∈ xs, ∀ rest, P x rest) : EachThen P xs := by
  induction xs with
  | nil => trivial
  | cons x xs ih =>
    obtain ⟨hx, hxs⟩ := List.forall_mem_cons.mp h
    exact ⟨hx xs, ih hxs⟩

/-- Elements before a list that are as they should be because of it. -/
theorem EachThen.before (hys : EachThen P ys) (h : ∀ x ∈ xs, ∀ rest, ys ⊆ rest → P x rest) : EachThen P (xs ++ ys) := by
  induction xs with
  | nil => exact hys
  | cons x xs ih =>
    obtain ⟨hx, hxs⟩ := List.forall_mem_cons.mp h
    exact ⟨hx _ (List.subset_append_right _ _), ih hxs⟩

/-! ## What is to come -/

variable {Q : α → Prop} {traces : List (List α)} {i : Nat} {x : α} {rest : List α}

/-- Such an element is in one of the traces. -/
def Ahead (Q : α → Prop) (traces : List (List α)) : Prop := ∃ trace ∈ traces, ∃ x ∈ trace, Q x

/-- What is ahead comes next in a trace, or is ahead after it. -/
theorem Ahead.step (h : Ahead Q traces) (hi : traces[i]? = some (x :: rest)) : Q x ∨ Ahead Q (traces.set i rest) := by
  obtain ⟨trace, htrace, y, hy, hQ⟩ := h
  obtain ⟨j, hj, rfl⟩ := List.getElem_of_mem htrace
  by_cases hij : i = j
  · subst hij
    rw [List.getElem?_eq_getElem hj, Option.some.injEq] at hi
    rw [hi] at hy
    rcases List.mem_cons.mp hy with rfl | hy
    · exact .inl hQ
    · exact .inr ⟨rest, List.mem_set hj rest, y, hy, hQ⟩
  · refine .inr ⟨traces[j], ?_, y, hy, hQ⟩
    have hset : (traces.set i rest)[j]? = some traces[j] := by
      rw [List.getElem?_set_ne hij, List.getElem?_eq_getElem hj]
    exact List.mem_of_getElem? hset

theorem ahead_of_rest (hi : traces[i]? = some (x :: rest)) (h : ∃ y ∈ rest, Q y) : Ahead Q (traces.set i rest) :=
  ⟨rest, List.mem_set (List.getElem?_eq_some_iff.mp hi).1 rest, h⟩

/-- What holds of a trace and of its rest holds of every trace after a step. -/
theorem forall_set_rest {R : List α → Prop} (h : ∀ trace ∈ traces, R trace) (hi : traces[i]? = some (x :: rest))
    (hrest : R (x :: rest) → R rest) : ∀ trace ∈ traces.set i rest, R trace := by
  intro trace htrace
  rcases List.mem_or_eq_of_mem_set htrace with htrace | rfl
  · exact h trace htrace
  · exact hrest (h _ (List.mem_of_getElem? hi))

theorem not_ahead_of_ended (h : ∀ trace ∈ traces, trace = []) : ¬ Ahead Q traces := by
  rintro ⟨trace, htrace, y, hy, -⟩
  rw [h trace htrace] at hy
  cases hy

end YiQiao.Lib
