import Mathlib.Data.List.Forall2

/-!
# Fallible computations

Inversion of successful computations in `Except`: what a bind, a traversal and a fold did when they
returned without an error.
-/

namespace YiQiao.Lib.Fallible

variable {ε α β σ : Type}

@[simp] theorem bind_ok {x : Except ε α} {f : α → Except ε β} {b : β} :
    x >>= f = .ok b ↔ ∃ a, x = .ok a ∧ f a = .ok b := by
  cases x with
  | error e => simp [bind, Except.bind]
  | ok a => simp [bind, Except.bind]

@[simp] theorem pure_ok {a b : α} : (pure a : Except ε α) = .ok b ↔ a = b := by
  simp [pure, Except.pure]

@[simp] theorem map_ok {x : Except ε α} {f : α → β} {b : β} : x.map f = .ok b ↔ ∃ a, x = .ok a ∧ f a = b := by
  cases x with
  | error e => simp [Except.map]
  | ok a => simp [Except.map]

theorem bind_error {x : Except ε α} {f : α → Except ε β} {e : ε} :
    x >>= f = .error e ↔ x = .error e ∨ ∃ a, x = .ok a ∧ f a = .error e := by
  cases x with
  | error e' => simp [bind, Except.bind]
  | ok a => simp [bind, Except.bind]

theorem map_error {x : Except ε α} {f : α → β} {e : ε} : x.map f = .error e ↔ x = .error e := by
  cases x with
  | error e' => simp [Except.map]
  | ok a => simp [Except.map]

theorem exists_left_of_mem {R : α → β → Prop} {xs : List α} {ys : List β} (h : List.Forall₂ R xs ys)
    {y : β} (hy : y ∈ ys) : ∃ x ∈ xs, R x y := by
  induction h with
  | nil => cases hy
  | cons hxy _ ih =>
      rcases List.mem_cons.mp hy with rfl | hy
      · exact ⟨_, List.mem_cons_self, hxy⟩
      · obtain ⟨x, hx, hr⟩ := ih hy
        exact ⟨x, List.mem_cons_of_mem _ hx, hr⟩

theorem exists_right_of_mem {R : α → β → Prop} {xs : List α} {ys : List β} (h : List.Forall₂ R xs ys)
    {x : α} (hx : x ∈ xs) : ∃ y ∈ ys, R x y := exists_left_of_mem h.flip hx

theorem forall₂_map_eq {γ : Type} {R : α → β → Prop} {f : α → γ} {g : β → γ} {xs : List α} {ys : List β}
    (h : List.Forall₂ R xs ys) (hfg : ∀ x y, R x y → f x = g y) : xs.map f = ys.map g := by
  induction h with
  | nil => rfl
  | cons hxy _ ih => rw [List.map_cons, List.map_cons, hfg _ _ hxy, ih]

/-- A traversal that succeeded succeeded on every element. -/
theorem mapM_ok {f : α → Except ε β} {xs : List α} {ys : List β} :
    xs.mapM f = .ok ys ↔ List.Forall₂ (fun x y => f x = .ok y) xs ys := by
  induction xs generalizing ys with
  | nil => rw [List.mapM_nil, pure_ok, List.forall₂_nil_left_iff, eq_comm]
  | cons x xs ih =>
      rw [List.mapM_cons, List.forall₂_cons_left_iff]
      simp only [bind_ok, pure_ok, ih]
      constructor
      · rintro ⟨y, hy, ys', hys, rfl⟩
        exact ⟨y, ys', hy, hys, rfl⟩
      · rintro ⟨y, ys', hy, hys, rfl⟩
        exact ⟨y, hy, ys', hys, rfl⟩

theorem mapM_some {f : α → Option β} {xs : List α} {ys : List β} :
    xs.mapM f = some ys ↔ List.Forall₂ (fun x y => f x = some y) xs ys := by
  induction xs generalizing ys with
  | nil => rw [List.mapM_nil, Option.pure_def, Option.some.injEq, List.forall₂_nil_left_iff, eq_comm]
  | cons x xs ih =>
      rw [List.mapM_cons, List.forall₂_cons_left_iff]
      simp only [Option.bind_eq_bind, Option.bind_eq_some_iff, Option.pure_def, Option.some.injEq, ih]
      constructor
      · rintro ⟨y, hy, ys', hys, rfl⟩
        exact ⟨y, ys', hy, hys, rfl⟩
      · rintro ⟨y, ys', hy, hys, rfl⟩
        exact ⟨y, hy, ys', hys, rfl⟩

/-- A traversal succeeds if it succeeds on every element. -/
theorem mapM_succeeds {f : α → Except ε β} {xs : List α} (h : ∀ x ∈ xs, ∃ y, f x = .ok y) :
    ∃ ys, xs.mapM f = .ok ys := by
  induction xs with
  | nil => exact ⟨[], rfl⟩
  | cons x xs ih =>
      obtain ⟨hx, hxs⟩ := List.forall_mem_cons.mp h
      obtain ⟨y, hy⟩ := hx
      obtain ⟨ys, hys⟩ := ih hxs
      refine ⟨y :: ys, mapM_ok.mpr (.cons hy (mapM_ok.mp hys))⟩

/-- A traversal that failed failed on an element. -/
theorem mapM_error {f : α → Except ε β} {xs : List α} {e : ε} (h : xs.mapM f = .error e) :
    ∃ x ∈ xs, f x = .error e := by
  induction xs with
  | nil => cases h
  | cons x xs ih =>
      rw [List.mapM_cons] at h
      rcases bind_error.mp h with hx | ⟨y, -, h⟩
      · exact ⟨x, List.mem_cons_self, hx⟩
      · rcases bind_error.mp h with hxs | ⟨ys, -, h⟩
        · obtain ⟨x', hx', hfail⟩ := ih hxs
          exact ⟨x', List.mem_cons_of_mem _ hx', hfail⟩
        · cases h

theorem mapM_eq_map {f : α → Except ε β} {g : α → β} {xs : List α} (h : ∀ x ∈ xs, f x = .ok (g x)) :
    xs.mapM f = .ok (xs.map g) := by
  rw [mapM_ok, List.forall₂_map_right_iff, List.forall₂_same]
  exact h

/-- What one step keeps, a successful fold keeps. The invariant knows the elements already read. -/
theorem foldlM_ok {f : σ → α → Except ε σ} {I : List α → σ → Prop} {xs : List α} {s s' : σ}
    (h : xs.foldlM f s = .ok s') (h₀ : I [] s)
    (step : ∀ done x rest t t', xs = done ++ x :: rest → I done t → f t x = .ok t' →
      I (done ++ [x]) t') : I xs s' := by
  suffices ∀ done rest t, xs = done ++ rest → I done t → rest.foldlM f t = .ok s' → I xs s' from
    this [] xs s rfl h₀ h
  intro done rest
  induction rest generalizing done with
  | nil =>
      intro t hxs hI ht
      rw [List.foldlM_nil, pure_ok] at ht
      simpa [hxs, ← ht] using hI
  | cons x rest ih =>
      intro t hxs hI ht
      rw [List.foldlM_cons, bind_ok] at ht
      obtain ⟨t', hx, ht⟩ := ht
      exact ih (done ++ [x]) t' (by simp [hxs]) (step done x rest t t' hxs hI hx) ht

/-- A fold whose invariant lets every step succeed succeeds. -/
theorem foldlM_total {f : σ → α → Except ε σ} {I : List α → σ → Prop} (xs : List α) {s : σ} (h₀ : I [] s)
    (step : ∀ done x rest t, xs = done ++ x :: rest → I done t → ∃ t', f t x = .ok t' ∧ I (done ++ [x]) t') :
    ∃ s', xs.foldlM f s = .ok s' ∧ I xs s' := by
  suffices ∀ done rest t, xs = done ++ rest → I done t → ∃ s', rest.foldlM f t = .ok s' ∧ I xs s' from
    this [] xs s rfl h₀
  intro done rest
  induction rest generalizing done with
  | nil =>
      intro t hxs hI
      exact ⟨t, rfl, by simpa [hxs] using hI⟩
  | cons x rest ih =>
      intro t hxs hI
      obtain ⟨t', hx, hI'⟩ := step done x rest t hxs hI
      obtain ⟨s', hs', hfinal⟩ := ih (done ++ [x]) t' (by simp [hxs]) hI'
      exact ⟨s', by rw [List.foldlM_cons, hx]; exact hs', hfinal⟩

/-- A loop over nested lists is two loops. -/
theorem foldlM_flatMap {g : α → List β} {f : σ → β → Except ε σ} {xs : List α} {s : σ} :
    (xs.flatMap g).foldlM f s = xs.foldlM (fun s x => (g x).foldlM f s) s := by
  induction xs generalizing s with
  | nil => rfl
  | cons x xs ih => simp only [List.flatMap_cons, List.foldlM_append, List.foldlM_cons, ih]

end YiQiao.Lib.Fallible
