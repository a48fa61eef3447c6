import Mathlib.Data.List.Basic

/-!
# Machines

A machine answers requests one after the other. A machine refines another one when, from tied states, both give the
same answer to every request that may be made, and the states stay tied.
-/

namespace YiQiao.Lib

variable {σ τ ρ α : Type}

/-- The answers to some requests, and the state after them. -/
def replies (step : σ → ρ → α × σ) : σ → List ρ → List α × σ
  | s, [] => ([], s)
  | s, r :: rs => ((step s r).1 :: (replies step (step s r).2 rs).1, (replies step (step s r).2 rs).2)

/-- Every request may be made where it is made. -/
def Allowed (step : τ → ρ → α × τ) (may : τ → ρ → Prop) : τ → List ρ → Prop
  | _, [] => True
  | t, r :: rs => may t r ∧ Allowed step may (step t r).2 rs

/-- The first machine does what the second one says. -/
def Refines (step : σ → ρ → α × σ) (spec : τ → ρ → α × τ) (may : τ → ρ → Prop) (R : σ → τ → Prop) : Prop :=
  ∀ s t r, R s t → may t r → (step s r).1 = (spec t r).1 ∧ R (step s r).2 (spec t r).2

variable {step : σ → ρ → α × σ} {spec : τ → ρ → α × τ} {may : τ → ρ → Prop} {R : σ → τ → Prop} {s : σ} {t : τ}
  {rs : List ρ}

theorem Refines.replies (h : Refines step spec may R) (hst : R s t) (hmay : Allowed spec may t rs) :
    (replies step s rs).1 = (Lib.replies spec t rs).1 ∧ R (Lib.replies step s rs).2 (Lib.replies spec t rs).2 := by
  induction rs generalizing s t with
  | nil => exact ⟨rfl, hst⟩
  | cons r rs ih =>
    obtain ⟨hr, hrs⟩ := hmay
    obtain ⟨hanswer, hnext⟩ := h s t r hst hr
    obtain ⟨hanswers, hlast⟩ := ih hnext hrs
    exact ⟨congrArg₂ List.cons hanswer hanswers, hlast⟩

end YiQiao.Lib
