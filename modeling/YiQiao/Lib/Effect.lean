import Mathlib.Order.Defs.Unbundled

/-!
# Effects

Computations that read and write a state and may raise. What a computation wrote before it raised
stays written. `Within R x` says that `x` relates the state it starts from to the state it ends in,
whether it returns or raises; for a reflexive and transitive `R` it holds of a program once it holds
of its writes.
-/

namespace YiQiao.Lib

structure Effect (ε σ α : Type) where
  run : σ → Except ε α × σ

namespace Effect

variable {ε σ α β : Type}

instance : Monad (Effect ε σ) where
  pure a := ⟨fun s => (.ok a, s)⟩
  bind x f := ⟨fun s => match x.run s with
    | (.ok a, s') => (f a).run s'
    | (.error e, s') => (.error e, s')⟩

def read (f : σ → α) : Effect ε σ α := ⟨fun s => (.ok (f s), s)⟩

def modify (f : σ → σ) : Effect ε σ Unit := ⟨fun s => (.ok (), f s)⟩

def raise (e : ε) : Effect ε σ α := ⟨fun s => (.error e, s)⟩

/-- A computation that does not touch the state. -/
def lift (x : Except ε α) : Effect ε σ α := ⟨fun s => (x, s)⟩

/-- `try` around a computation, with what it raised as a value. -/
def attempt (x : Effect ε σ α) : Effect ε σ (Except ε α) :=
  ⟨fun s => (.ok (x.run s).1, (x.run s).2)⟩

/-- A `for` loop with an accumulator. -/
def loop (f : β → α → Effect ε σ β) : β → List α → Effect ε σ β
  | b, [] => pure b
  | b, a :: as => do loop f (← f b a) as

/-- A `for` loop. -/
def forEach (as : List α) (f : α → Effect ε σ Unit) : Effect ε σ Unit := loop (fun _ => f) () as

/-! ## Running -/

variable {x : Effect ε σ α} {f : α → Effect ε σ β} {s s' : σ}

@[simp] theorem run_pure (a : α) : (pure a : Effect ε σ α).run s = (.ok a, s) := rfl

theorem run_bind : (x >>= f).run s = match x.run s with
    | (.ok a, s') => (f a).run s'
    | (.error e, s') => (.error e, s') := rfl

@[simp] theorem run_read (g : σ → α) : (read g : Effect ε σ α).run s = (.ok (g s), s) := rfl

@[simp] theorem run_modify (g : σ → σ) : (modify g : Effect ε σ Unit).run s = (.ok (), g s) := rfl

@[simp] theorem run_raise (e : ε) : (raise e : Effect ε σ α).run s = (.error e, s) := rfl

@[simp] theorem run_lift (y : Except ε α) : (lift y : Effect ε σ α).run s = (y, s) := rfl

@[simp] theorem run_attempt : (attempt x).run s = (.ok (x.run s).1, (x.run s).2) := rfl

@[simp] theorem run_bind_pure (a : α) : ((pure a : Effect ε σ α) >>= f).run s = (f a).run s := rfl

@[simp] theorem run_bind_read (g : σ → α) :
    ((read g : Effect ε σ α) >>= f).run s = (f (g s)).run s := rfl

@[simp] theorem run_bind_modify (g : σ → σ) {f : Unit → Effect ε σ β} :
    ((modify g : Effect ε σ Unit) >>= f).run s = (f ()).run (g s) := rfl

@[simp] theorem run_bind_raise (e : ε) :
    ((raise e : Effect ε σ α) >>= f).run s = (.error e, s) := rfl

@[simp] theorem run_bind_attempt {g : Except ε α → Effect ε σ β} :
    (attempt x >>= g).run s = (g (x.run s).1).run (x.run s).2 := rfl

/-- What a sequence did when it returned. -/
theorem bind_ok {b : β} : (x >>= f).run s = (.ok b, s') ↔
    ∃ a s₁, x.run s = (.ok a, s₁) ∧ (f a).run s₁ = (.ok b, s') := by
  rw [run_bind]
  rcases x.run s with ⟨_ | a, s₁⟩
  · simp
  · constructor
    · intro h
      exact ⟨a, s₁, rfl, h⟩
    · rintro ⟨_, _, ⟨rfl, rfl⟩, h⟩
      exact h

theorem lift_ok {y : Except ε α} {a : α} :
    (lift y : Effect ε σ α).run s = (.ok a, s') ↔ y = .ok a ∧ s = s' := by
  rw [run_lift, Prod.mk.injEq]

theorem modify_ok {g : σ → σ} {u : Unit} :
    (modify g : Effect ε σ Unit).run s = (.ok u, s') ↔ g s = s' := by
  simp

theorem loop_cons (g : β → α → Effect ε σ β) (b : β) (a : α) (as : List α) :
    loop g b (a :: as) = g b a >>= fun b' => loop g b' as := rfl

/-- What one step keeps, a loop that returned keeps. The invariant knows the elements already done. -/
theorem loop_ok {as : List α} {g : β → α → Effect ε σ β} {I : List α → β → σ → Prop} {b b' : β}
    (h : (loop g b as).run s = (.ok b', s')) (h₀ : I [] b s)
    (step : ∀ done a rest c t c' t', as = done ++ a :: rest → I done c t →
      (g c a).run t = (.ok c', t') → I (done ++ [a]) c' t') : I as b' s' := by
  suffices ∀ done rest c t, as = done ++ rest → I done c t → (loop g c rest).run t = (.ok b', s') →
      I as b' s' from this [] as b s rfl h₀ h
  intro done rest
  induction rest generalizing done with
  | nil =>
      intro c t hxs hI ht
      cases ht
      rwa [hxs, List.append_nil]
  | cons a rest ih =>
      intro c t hxs hI ht
      rw [loop_cons, bind_ok] at ht
      obtain ⟨c', t', ha, ht⟩ := ht
      exact ih (done ++ [a]) c' t' (by simp [hxs]) (step done a rest c t c' t' hxs hI ha) ht

/-- A loop that returned over a first part goes on from there. -/
theorem loop_append {as as' : List α} {g : β → α → Effect ε σ β} {b c : β} {t : σ}
    (h : (loop g b as).run s = (.ok c, t)) : (loop g b (as ++ as')).run s = (loop g c as').run t := by
  induction as generalizing b s with
  | nil =>
      cases h
      rfl
  | cons a as ih =>
      rw [loop_cons, bind_ok] at h
      obtain ⟨b', s₁, hb, h⟩ := h
      rw [List.cons_append, loop_cons, run_bind, hb]
      exact ih h

/-- One more step of a loop that returned. -/
theorem loop_snoc {as : List α} {a : α} {g : β → α → Effect ε σ β} {b c c' : β} {t t' : σ}
    (h : (loop g b as).run s = (.ok c, t)) (ha : (g c a).run t = (.ok c', t')) :
    (loop g b (as ++ [a])).run s = (.ok c', t') := by
  rw [loop_append h, loop_cons, bind_ok]
  exact ⟨c', t', ha, rfl⟩

/-- A loop whose steps all return returns. -/
theorem loop_returns {as : List α} {g : β → α → Effect ε σ β} {I : List α → β → σ → Prop} {b : β}
    (h₀ : I [] b s)
    (step : ∀ done a rest c t, as = done ++ a :: rest → I done c t →
      ∃ c' t', (g c a).run t = (.ok c', t') ∧ I (done ++ [a]) c' t') :
    ∃ b' s', (loop g b as).run s = (.ok b', s') ∧ I as b' s' := by
  suffices ∀ done rest c t, as = done ++ rest → I done c t →
      ∃ b' s', (loop g c rest).run t = (.ok b', s') ∧ I as b' s' from this [] as b s rfl h₀
  intro done rest
  induction rest generalizing done with
  | nil =>
      intro c t hxs hI
      exact ⟨c, t, rfl, by rwa [hxs, List.append_nil]⟩
  | cons a rest ih =>
      intro c t hxs hI
      obtain ⟨c', t', ha, hI'⟩ := step done a rest c t hxs hI
      obtain ⟨b', s', hb, hI''⟩ := ih (done ++ [a]) c' t' (by simp [hxs]) hI'
      exact ⟨b', s', by rw [loop_cons, bind_ok]; exact ⟨c', t', ha, hb⟩, hI''⟩

/-! ## What a computation may do to the state -/

/-- From every state, `x` ends in a related one, whether it returns or raises. -/
def Within (R : σ → σ → Prop) (x : Effect ε σ α) : Prop := ∀ s, R s (x.run s).2

namespace Within

variable {R : σ → σ → Prop}

theorem modify {g : σ → σ} (h : ∀ s, R s (g s)) : Within R (modify g : Effect ε σ Unit) := h

theorem attempt (h : Within R x) : Within R (attempt x) := h

theorem of_ok (h : Within R x) {a : α} (hx : x.run s = (.ok a, s')) : R s s' := by
  have hs := h s
  rwa [hx] at hs

section

variable [Std.Refl R]

theorem pure (a : α) : Within R (Pure.pure a : Effect ε σ α) := fun s => Std.Refl.refl s

theorem read (g : σ → α) : Within R (read g : Effect ε σ α) := fun s => Std.Refl.refl s

theorem raise (e : ε) : Within R (raise e : Effect ε σ α) := fun s => Std.Refl.refl s

theorem lift (y : Except ε α) : Within R (lift y : Effect ε σ α) := fun s => Std.Refl.refl s

end

theorem bind_at [IsTrans σ R] (hx : R s (x.run s).2) (hf : ∀ a, Within R (f a)) : R s ((x >>= f).run s).2 := by
  rw [run_bind]
  revert hx
  rcases x.run s with ⟨_ | a, s₁⟩
  · exact id
  · exact fun hx => IsTrans.trans _ _ _ hx (hf a s₁)

theorem bind [IsTrans σ R] (hx : Within R x) (hf : ∀ a, Within R (f a)) : Within R (x >>= f) :=
  fun s => bind_at (hx s) hf

theorem bindLift [Std.Refl R] {y : Except ε α} (h : ∀ a, y = .ok a → Within R (f a)) :
    Within R (Effect.lift y >>= f) := by
  intro s
  rw [run_bind, run_lift]
  cases hy : y with
  | error e => exact Std.Refl.refl s
  | ok a => exact h a hy s

theorem loop [Std.Refl R] [IsTrans σ R] {g : β → α → Effect ε σ β} {as : List α}
    (h : ∀ b, ∀ a ∈ as, Within R (g b a)) (b : β) : Within R (Effect.loop g b as) := by
  induction as generalizing b with
  | nil => exact pure b
  | cons a as ih =>
      rw [loop_cons]
      exact bind (h b a List.mem_cons_self) fun b' => ih (fun b a ha => h b a (List.mem_cons_of_mem _ ha)) b'

end Within

end Effect

end YiQiao.Lib
