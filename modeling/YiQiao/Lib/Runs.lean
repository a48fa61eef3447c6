import Mathlib.Data.Option.Basic
import Mathlib.Data.List.Basic
import Mathlib.Data.List.Induction

/-!
# Runs

The runs of a system whose steps may be impossible, and what holds along them.
-/

namespace YiQiao.Lib

variable {σ ε : Type}

/-- The state after some steps, where they can be taken. -/
def runFrom (step : σ → ε → Option σ) (s : σ) (steps : List ε) : Option σ := steps.foldlM step s

/-- Every step of a run is taken in a state where it may be. -/
def AlongRun (step : σ → ε → Option σ) (may : σ → ε → Prop) : σ → List ε → Prop
  | _, [] => True
  | s, e :: steps => may s e ∧ ∀ s', step s e = some s' → AlongRun step may s' steps

section

variable {step : σ → ε → Option σ} {may : σ → ε → Prop} {I : σ → Prop} {s s' next : σ} {e : ε} {steps rest : List ε}

@[simp]
theorem runFrom_nil : runFrom step s [] = some s := rfl

@[simp]
theorem runFrom_cons : runFrom step s (e :: steps) = (step s e).bind fun s' => runFrom step s' steps := rfl

theorem runFrom_append :
    runFrom step s (steps ++ rest) = (runFrom step s steps).bind fun s' => runFrom step s' rest := by
  induction steps generalizing s with
  | nil => rfl
  | cons e steps ih => cases h : step s e <;> simp [h, ih]

theorem AlongRun.cons (hmay : may s e) (hstep : step s e = some next) (hrest : AlongRun step may next steps) :
    AlongRun step may s (e :: steps) :=
  ⟨hmay, fun s' h => by
    cases hstep.symm.trans h
    exact hrest⟩

theorem alongRun_true : AlongRun step (fun _ _ => True) s steps := by
  induction steps generalizing s with
  | nil => trivial
  | cons e steps ih => exact ⟨trivial, fun s' _ => ih⟩

/-- What every step keeps that may be taken, a run of such steps keeps. -/
theorem runFrom_keeps (hkeeps : ∀ s e s', I s → may s e → step s e = some s' → I s') (hinit : I s)
    (hmay : AlongRun step may s steps) (hrun : runFrom step s steps = some s') : I s' := by
  induction steps generalizing s with
  | nil =>
      cases hrun
      exact hinit
  | cons e steps ih =>
      obtain ⟨next, hstep, hrun⟩ := Option.bind_eq_some_iff.mp hrun
      exact ih (hkeeps s e next hinit hmay.1 hstep) (hmay.2 next hstep) hrun

/-- Two conditions that agree where an invariant holds agree along a run, if the steps that meet one keep the invariant. -/
theorem alongRun_congr {may' : σ → ε → Prop} (hkeeps : ∀ s e s', I s → may s e → step s e = some s' → I s')
    (hiff : ∀ s e, I s → (may s e ↔ may' s e)) (hinit : I s) :
    AlongRun step may s steps ↔ AlongRun step may' s steps := by
  induction steps generalizing s with
  | nil => rfl
  | cons e steps ih =>
      constructor
      · rintro ⟨hmay, hrest⟩
        exact ⟨(hiff s e hinit).mp hmay, fun s' hs' => (ih (hkeeps s e s' hinit hmay hs')).mp (hrest s' hs')⟩
      · rintro ⟨hmay', hrest⟩
        have hmay := (hiff s e hinit).mpr hmay'
        exact ⟨hmay, fun s' hs' => (ih (hkeeps s e s' hinit hmay hs')).mpr (hrest s' hs')⟩

/-- What every step keeps, every run keeps. -/
theorem runFrom_invariant (hkeeps : ∀ s e s', I s → step s e = some s' → I s') (hinit : I s)
    (hrun : runFrom step s steps = some s') : I s' :=
  runFrom_keeps (fun s e s' hs _ => hkeeps s e s' hs) hinit alongRun_true hrun

/-! ## History -/

/-- Somewhere along the run such a step was taken in such a state. -/
def Happened (step : σ → ε → Option σ) (s : σ) (steps : List ε) (Q : ε → Prop) (P : σ → Prop) : Prop :=
  ∃ pre e post mid, steps = pre ++ e :: post ∧ Q e ∧ runFrom step s pre = some mid ∧ P mid

theorem Happened.snoc {Q : ε → Prop} {P : σ → Prop} (h : Happened step s steps Q P) :
    Happened step s (steps ++ [e]) Q P := by
  obtain ⟨pre, e', post, mid, rfl, hQ, hrun, hP⟩ := h
  exact ⟨pre, e', post ++ [e], mid, by simp, hQ, hrun, hP⟩

theorem Happened.last {Q : ε → Prop} {P : σ → Prop} (hrun : runFrom step s steps = some s') (hQ : Q e) (hP : P s') :
    Happened step s (steps ++ [e]) Q P :=
  ⟨steps, e, [], s', rfl, hQ, hrun, hP⟩

theorem Happened.mono {Q : ε → Prop} {P P' : σ → Prop} (h : Happened step s steps Q P) (hP : ∀ mid, P mid → P' mid) :
    Happened step s steps Q P' := by
  obtain ⟨pre, e', post, mid, hsteps, hQ, hrun, hmid⟩ := h
  exact ⟨pre, e', post, mid, hsteps, hQ, hrun, hP mid hmid⟩

/-- What every step keeps of a state and of the steps before it. -/
theorem runFrom_history {H : List ε → σ → Prop} (hinit : H [] s)
    (hkeeps : ∀ pre s₁ e s₂, runFrom step s pre = some s₁ → H pre s₁ → step s₁ e = some s₂ → H (pre ++ [e]) s₂)
    (hrun : runFrom step s steps = some s') : H steps s' := by
  induction steps using List.reverseRecOn generalizing s' with
  | nil =>
      cases hrun
      exact hinit
  | append_singleton steps e ih =>
      rw [runFrom_append] at hrun
      obtain ⟨mid, hmid, hstep⟩ := Option.bind_eq_some_iff.mp hrun
      simp only [runFrom_cons, runFrom_nil, Option.bind_fun_some] at hstep
      exact hkeeps steps mid e s' hmid (ih hmid) hstep

end

end YiQiao.Lib
