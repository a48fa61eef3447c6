import YiQiao.Lib.Requests

/-!
# Requests that are served by programs

A program over one interface, each of whose requests is served by a program over another interface. A run of it is a run
of the program itself, with the trace of its server in the place of each event.
-/

namespace YiQiao.Lib.Program

variable {E F : Interface} {α β : Type} (serve : (q : E.Request) → Program F (E.Answer q))

/-- The program with its requests served. -/
def served : Program E α → Program F α
  | done a => done a
  | ask q next => (serve q).bind fun answer => (next answer).served

/-- The trace of the servers of these events, one after another. -/
inductive Serves : List E.Event → List F.Event → Prop where
  | nil : Serves [] []
  | cons {q : E.Request} {answer : E.Answer q} {events : List E.Event} {piece rest : List F.Event}
      (h : Run (serve q) piece answer) (hrest : Serves events rest) : Serves (⟨q, answer⟩ :: events) (piece ++ rest)

variable {serve} {p : Program E α} {f : α → Program E β} {a : α} {events more : List E.Event} {trace : List F.Event}

@[simp] theorem served_pure : (pure a : Program E α).served serve = pure a := rfl

theorem bind_assoc {γ : Type} {p : Program E α} {f : α → Program E β} {g : β → Program E γ} :
    (p.bind f).bind g = p.bind fun a => (f a).bind g := by
  induction p with
  | done a => rfl
  | ask q next ih =>
    simp only [bind]
    congr
    funext answer
    exact ih answer

theorem bind_pure {p : Program E α} : p.bind pure = p := by
  induction p with
  | done a => rfl
  | ask q next ih =>
    simp only [bind]
    congr
    funext answer
    exact ih answer

theorem served_request {q : E.Request} : (request q : Program E _).served serve = serve q := bind_pure

theorem run_served : Run (p.served serve) trace a ↔ ∃ events, Run p events a ∧ Serves serve events trace := by
  induction p generalizing trace with
  | done b =>
    constructor
    · intro h
      cases h
      exact ⟨[], .done _, .nil⟩
    · rintro ⟨events, h, hserves⟩
      cases h
      cases hserves
      exact .done _
  | ask q next ih =>
    constructor
    · intro h
      obtain ⟨piece, rest, answer, rfl, hpiece, hrest⟩ := run_bind.mp (show Run (serve q >>= fun answer =>
        (next answer).served serve) trace a from h)
      obtain ⟨events, hrun, hserves⟩ := (ih answer).mp hrest
      exact ⟨⟨q, answer⟩ :: events, .ask answer hrun, .cons hpiece hserves⟩
    · rintro ⟨events, hrun, hserves⟩
      cases hrun with
      | ask answer hrun =>
        cases hserves with
        | cons hpiece hrest => exact run_bind.mpr ⟨_, _, answer, rfl, hpiece, (ih answer).mpr ⟨_, hrun, hrest⟩⟩

/-- What was served for a trace in two parts comes in two parts. -/
theorem serves_append : Serves serve (events ++ more) trace ↔
    ∃ before after, trace = before ++ after ∧ Serves serve events before ∧ Serves serve more after := by
  induction events generalizing trace with
  | nil =>
    constructor
    · exact fun h => ⟨[], trace, rfl, .nil, h⟩
    · rintro ⟨before, after, rfl, hbefore, hafter⟩
      cases hbefore
      exact hafter
  | cons e events ih =>
    constructor
    · intro h
      cases h with
      | cons hpiece hrest =>
        obtain ⟨before, after, rfl, hbefore, hafter⟩ := ih.mp hrest
        exact ⟨_, after, (List.append_assoc _ _ _).symm, .cons hpiece hbefore, hafter⟩
    · rintro ⟨before, after, rfl, hbefore, hafter⟩
      cases hbefore with
      | cons hpiece hrest =>
        rw [List.append_assoc]
        exact .cons hpiece (ih.mpr ⟨_, after, rfl, hrest, hafter⟩)

/-- What holds of the traces of the servers, and of traces that are put together, holds of every trace. -/
theorem Serves.all {R : List F.Event → Prop} (h : Serves serve events trace) (hnil : R [])
    (happend : ∀ xs ys, R xs → R ys → R (xs ++ ys))
    (hserve : ∀ e ∈ events, ∀ piece, Run (serve e.request) piece e.answer → R piece) : R trace := by
  induction h with
  | nil => exact hnil
  | cons hpiece _ ih =>
    obtain ⟨hfirst, hrest⟩ := List.forall_mem_cons.mp hserve
    exact happend _ _ (hfirst _ hpiece) (ih hrest)

theorem Serves.forall {P : F.Event → Prop} (h : Serves serve events trace)
    (hserve : ∀ e ∈ events, ∀ piece, Run (serve e.request) piece e.answer → ∀ x ∈ piece, P x) : ∀ x ∈ trace, P x := by
  induction h with
  | nil => simp
  | cons hpiece _ ih =>
    obtain ⟨hfirst, hrest⟩ := List.forall_mem_cons.mp hserve
    exact List.forall_mem_append.mpr ⟨hfirst _ hpiece, ih hrest⟩

end YiQiao.Lib.Program
