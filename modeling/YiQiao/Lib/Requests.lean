import Mathlib.Data.List.Basic
import Mathlib.Data.List.Forall2

/-!
# Programs and their requests

A program asks what is around it, and goes on by the answer. What it asked in a run that ended, with the answers, is
its trace. Programs that run side by side each follow a trace, in whatever order they take their turns.
-/

namespace YiQiao.Lib

/-- What can be asked, and what the answers are. -/
structure Interface where
  Request : Type
  Answer : Request → Type

/-- A request and its answer. -/
structure Interface.Event (E : Interface) where
  request : E.Request
  answer : E.Answer request

inductive Program (E : Interface) (α : Type) where
  | done (a : α)
  | ask (request : E.Request) (next : E.Answer request → Program E α)

namespace Program

variable {E : Interface} {α β : Type}

def bind (f : α → Program E β) : Program E α → Program E β
  | done a => f a
  | ask request next => ask request fun answer => (next answer).bind f

instance : Monad (Program E) where
  pure := done
  bind p f := p.bind f

/-- One request. -/
def request (q : E.Request) : Program E (E.Answer q) := ask q done

/-- A request that has no answer: the program goes no further. -/
def raise (q : E.Request) (h : E.Answer q → False) : Program E α := ask q fun answer => (h answer).elim

/-- The program ends with a result after these requests and answers. -/
inductive Run : Program E α → List E.Event → α → Prop where
  | done (a : α) : Run (done a) [] a
  | ask {q : E.Request} {next : E.Answer q → Program E α} (answer : E.Answer q) {trace : List E.Event} {a : α} :
      Run (next answer) trace a → Run (ask q next) (⟨q, answer⟩ :: trace) a

variable {p : Program E α} {f : α → Program E β} {trace : List E.Event} {a b : α}

theorem run_pure : Run (pure a : Program E α) trace b ↔ trace = [] ∧ b = a := by
  constructor
  · intro h
    cases h
    exact ⟨rfl, rfl⟩
  · rintro ⟨rfl, rfl⟩
    exact .done _

theorem run_ask {q : E.Request} {next : E.Answer q → Program E α} :
    Run (ask q next) trace a ↔ ∃ answer rest, trace = ⟨q, answer⟩ :: rest ∧ Run (next answer) rest a := by
  constructor
  · intro h
    cases h with
    | ask answer h => exact ⟨answer, _, rfl, h⟩
  · rintro ⟨answer, rest, rfl, h⟩
    exact .ask answer h

theorem run_request {q : E.Request} {answer : E.Answer q} : Run (request q) trace answer ↔ trace = [⟨q, answer⟩] := by
  rw [request, run_ask]
  constructor
  · rintro ⟨answer', rest, rfl, h⟩
    cases h
    rfl
  · rintro rfl
    exact ⟨answer, [], rfl, .done answer⟩

/-- A program after another has the trace of the one and then that of the other. -/
theorem run_bind {b : β} : Run (p >>= f) trace b ↔
    ∃ before after a, trace = before ++ after ∧ Run p before a ∧ Run (f a) after b := by
  show Run (p.bind f) trace b ↔ _
  induction p generalizing trace with
  | done a =>
    constructor
    · exact fun h => ⟨[], trace, a, rfl, .done a, h⟩
    · rintro ⟨before, after, a, rfl, h, h'⟩
      cases h
      exact h'
  | ask q next ih =>
    constructor
    · intro h
      cases h with
      | ask answer h =>
        obtain ⟨before, after, a, rfl, hp, hf⟩ := (ih answer).mp h
        exact ⟨⟨q, answer⟩ :: before, after, a, rfl, .ask answer hp, hf⟩
    · rintro ⟨before, after, a, rfl, hp, hf⟩
      cases hp with
      | ask answer hp => exact .ask answer ((ih answer).mpr ⟨_, after, a, rfl, hp, hf⟩)

theorem run_request_bind {q : E.Request} {f : E.Answer q → Program E β} {b : β} :
    Run (request q >>= f) trace b ↔ ∃ answer rest, trace = ⟨q, answer⟩ :: rest ∧ Run (f answer) rest b := by
  show Run (ask q f) trace b ↔ _
  exact run_ask

theorem not_run_raise {q : E.Request} {h : E.Answer q → False} : ¬ Run (raise q h : Program E α) trace a := by
  intro hrun
  cases hrun with
  | ask answer _ => exact h answer

/-! ### What a program ensures -/

/-- A run that meets only such answers has such a trace and result. -/
def Ensures (ok : E.Event → Prop) (P : List E.Event → α → Prop) (p : Program E α) : Prop :=
  ∀ trace a, Run p trace a → (∀ e ∈ trace, ok e) → P trace a

variable {ok : E.Event → Prop} {P Q : List E.Event → α → Prop} {R : List E.Event → β → Prop}

theorem Ensures.mono (h : Ensures ok P p) (hPQ : ∀ trace a, P trace a → Q trace a) : Ensures ok Q p :=
  fun trace a hrun hok => hPQ trace a (h trace a hrun hok)

theorem ensures_pure (h : P [] a) : Ensures ok P (pure a) := by
  intro trace b hrun _
  obtain ⟨rfl, rfl⟩ := run_pure.mp hrun
  exact h

theorem ensures_raise {q : E.Request} {h : E.Answer q → False} : Ensures ok P (raise q h) :=
  fun _ _ hrun => (not_run_raise hrun).elim

theorem ensures_bind (h : Ensures ok P p)
    (hf : ∀ before a, P before a → Ensures ok (fun after b => R (before ++ after) b) (f a)) : Ensures ok R (p >>= f) := by
  intro trace b hrun hok
  obtain ⟨before, after, a, rfl, hp, hrest⟩ := run_bind.mp hrun
  simp only [List.mem_append, or_imp, forall_and] at hok
  exact hf before a (h before a hp hok.1) after b hrest hok.2

theorem ensures_request_bind {q : E.Request} {f : E.Answer q → Program E β}
    (hf : ∀ answer, ok ⟨q, answer⟩ → Ensures ok (fun rest b => R (⟨q, answer⟩ :: rest) b) (f answer)) :
    Ensures ok R (request q >>= f) := by
  intro trace b hrun hok
  obtain ⟨answer, rest, rfl, hrest⟩ := run_request_bind.mp hrun
  simp only [List.forall_mem_cons] at hok
  exact hf answer hok.1 rest b hrest hok.2

/-! ### What a program may do -/

/-- Some run that meets only such answers has such a trace and result. -/
def May (ok : E.Event → Prop) (P : List E.Event → α → Prop) (p : Program E α) : Prop :=
  ∃ trace a, Run p trace a ∧ (∀ e ∈ trace, ok e) ∧ P trace a

theorem may_pure (h : P [] a) : May ok P (pure a) := ⟨[], a, .done a, by simp, h⟩

theorem may_bind (h : May ok P p)
    (hf : ∀ before a, P before a → May ok (fun after b => R (before ++ after) b) (f a)) : May ok R (p >>= f) := by
  obtain ⟨before, a, hp, hbefore, hP⟩ := h
  obtain ⟨after, b, hrun, hafter, hR⟩ := hf before a hP
  exact ⟨before ++ after, b, run_bind.mpr ⟨before, after, a, rfl, hp, hrun⟩,
    List.forall_mem_append.mpr ⟨hbefore, hafter⟩, hR⟩

theorem may_request_bind {q : E.Request} {f : E.Answer q → Program E β} (answer : E.Answer q) (hok : ok ⟨q, answer⟩)
    (hf : May ok (fun rest b => R (⟨q, answer⟩ :: rest) b) (f answer)) : May ok R (request q >>= f) := by
  obtain ⟨rest, b, hrun, hrest, hR⟩ := hf
  exact ⟨⟨q, answer⟩ :: rest, b, .ask answer hrun, List.forall_mem_cons.mpr ⟨hok, hrest⟩, hR⟩

theorem May.mono (h : May ok P p) (hPQ : ∀ trace a, P trace a → Q trace a) : May ok Q p := by
  obtain ⟨trace, a, hrun, hok, hP⟩ := h
  exact ⟨trace, a, hrun, hok, hPQ trace a hP⟩

/-! ### What a program asks -/

/-- Whatever the answers are, the program makes only such requests. -/
def Asks (allowed : E.Request → Prop) : Program E α → Prop
  | done _ => True
  | ask q next => allowed q ∧ ∀ answer, (next answer).Asks allowed

variable {allowed : E.Request → Prop}

theorem Asks.run (h : p.Asks allowed) (hrun : Run p trace a) : ∀ e ∈ trace, allowed e.request := by
  induction hrun with
  | done a => simp
  | ask answer _ ih => exact List.forall_mem_cons.mpr ⟨h.1, ih (h.2 answer)⟩

theorem asks_pure (a : α) : (pure a : Program E α).Asks allowed := trivial

theorem Asks.bind_run (h : p.Asks allowed) (hf : ∀ trace a, Run p trace a → (f a).Asks allowed) :
    (p >>= f).Asks allowed := by
  show (p.bind f).Asks allowed
  induction p with
  | done a => exact hf [] a (.done a)
  | ask q next ih => exact ⟨h.1, fun answer => ih answer (h.2 answer) fun trace a hrun => hf _ a (.ask answer hrun)⟩

theorem Asks.bind (h : p.Asks allowed) (hf : ∀ a, (f a).Asks allowed) : (p >>= f).Asks allowed :=
  h.bind_run fun _ a _ => hf a

theorem Asks.mono {more : E.Request → Prop} (h : p.Asks allowed) (hmore : ∀ q, allowed q → more q) : p.Asks more := by
  induction p with
  | done a => trivial
  | ask q next ih => exact ⟨hmore q h.1, fun answer => ih answer (h.2 answer)⟩

theorem asks_request {q : E.Request} (h : allowed q) : (request q : Program E _).Asks allowed := ⟨h, fun _ => trivial⟩

theorem asks_raise {q : E.Request} {h : E.Answer q → False} (hq : allowed q) : (raise q h : Program E α).Asks allowed :=
  ⟨hq, fun answer => (h answer).elim⟩

end Program

/-! ## Side by side -/

section

variable {E : Interface} {σ : Type} (answers : (q : E.Request) → σ → E.Answer q → σ → Prop)

/-- Traces side by side, each event where the one before it in its trace has come. -/
inductive Interleaved : List (List E.Event) → σ → σ → Prop where
  | refl {traces : List (List E.Event)} (h : ∀ trace ∈ traces, trace = []) (s : σ) : Interleaved traces s s
  | step {traces : List (List E.Event)} {s s' last : σ} (i : Nat) {e : E.Event} {rest : List E.Event}
      (hi : traces[i]? = some (e :: rest)) (hanswer : answers e.request s e.answer s')
      (hrest : Interleaved (traces.set i rest) s' last) : Interleaved traces s last

variable {answers} {s last : σ} {traces : List (List E.Event)}

/-- A trace by itself. -/
inductive Follows (answers : (q : E.Request) → σ → E.Answer q → σ → Prop) : List E.Event → σ → σ → Prop where
  | nil (s : σ) : Follows answers [] s s
  | cons {e : E.Event} {rest : List E.Event} {s s' last : σ} (hanswer : answers e.request s e.answer s')
      (hrest : Follows answers rest s' last) : Follows answers (e :: rest) s last

theorem Follows.append {xs ys : List E.Event} {s s' last : σ} (h : Follows answers xs s s')
    (h' : Follows answers ys s' last) : Follows answers (xs ++ ys) s last := by
  induction h with
  | nil s => exact h'
  | cons hanswer _ ih => exact .cons hanswer (ih h')

theorem Interleaved.idle (h : Interleaved answers traces s last) : Interleaved answers ([] :: traces) s last := by
  induction h with
  | refl h s => exact .refl (List.forall_mem_cons.mpr ⟨rfl, h⟩) s
  | step i hi hanswer _ ih => exact .step (i + 1) hi hanswer ih

/-- One program runs to its end before the others. -/
theorem Interleaved.first {trace : List E.Event} {s s' last : σ} (h : Follows answers trace s s')
    (hrest : Interleaved answers traces s' last) : Interleaved answers (trace :: traces) s last := by
  induction h with
  | nil s => exact hrest.idle
  | cons hanswer _ ih => exact .step 0 rfl hanswer (ih hrest)

/-- What every event keeps holds in the end. -/
theorem Interleaved.invariant {I : List (List E.Event) → σ → Prop} (h : Interleaved answers traces s last)
    (hinit : I traces s)
    (hstep : ∀ traces s i e rest s', I traces s → traces[i]? = some (e :: rest) → answers e.request s e.answer s' →
      I (traces.set i rest) s') :
    ∃ ended, (∀ trace ∈ ended, trace = []) ∧ ended.length = traces.length ∧ I ended last := by
  induction h with
  | refl h s => exact ⟨_, h, rfl, hinit⟩
  | step i hi hanswer _ ih =>
    obtain ⟨ended, hempty, hlength, hI⟩ := ih (hstep _ _ i _ _ _ hinit hi hanswer)
    exact ⟨ended, hempty, by simpa using hlength, hI⟩

/-! ### A queue -/

variable {γ : Type} {queue : σ → List γ} {take : E.Event → Option (Option γ)}

/-- An event that takes from the queue takes its head; no other event changes the queue. -/
def Takes (answers : (q : E.Request) → σ → E.Answer q → σ → Prop) (queue : σ → List γ)
    (take : E.Event → Option (Option γ)) : Prop :=
  ∀ e s s', answers e.request s e.answer s' → match take e with
    | none => queue s' = queue s
    | some answer => answer = (queue s).head? ∧ queue s' = (queue s).tail

/-- What the events of a trace took from the queue. -/
def taken (take : E.Event → Option (Option γ)) (trace : List E.Event) : List γ := trace.filterMap fun e => (take e).join

theorem taken_append (xs ys : List E.Event) : taken take (xs ++ ys) = taken take xs ++ taken take ys := List.filterMap_append

theorem taken_cons {e : E.Event} (rest : List E.Event) : taken take (e :: rest) = (take e).join.toList ++ taken take rest := by
  cases h : (take e).join with
  | none => simp [taken, h]
  | some g => simp [taken, h]

theorem taken_nil_of {trace : List E.Event} (h : ∀ e ∈ trace, take e = none) : taken take trace = [] := by
  rw [taken, List.filterMap_eq_nil_iff]
  intro e he
  rw [h e he]
  rfl

theorem flatMap_set {α β : Type} {f : α → List β} {xs : List α} {i : Nat} {x y : α} {b : List β} (hi : xs[i]? = some x)
    (hf : f x = b ++ f y) : (xs.flatMap f).Perm (b ++ (xs.set i y).flatMap f) := by
  induction xs generalizing i with
  | nil => cases hi
  | cons z xs ih =>
    cases i with
    | zero =>
      cases hi
      simp [hf]
    | succ i =>
      rw [List.flatMap_cons, List.set_cons_succ, List.flatMap_cons]
      refine ((ih hi).append_left _).trans ?_
      rw [← List.append_assoc, ← List.append_assoc]
      exact List.perm_append_comm.append_right _

/-- The events together take what goes from the queue. -/
theorem Interleaved.taken_perm (h : Interleaved answers traces s last)
    (htake : Takes answers queue take) :
    (queue s).Perm (traces.flatMap (taken take) ++ queue last) := by
  induction h with
  | refl h s =>
    have hnil : ∀ trace ∈ _, taken take trace = [] := fun trace htrace => by rw [h trace htrace, taken, List.filterMap_nil]
    rw [List.flatMap_eq_nil_iff.mpr hnil, List.nil_append]
  | step i hi hanswer _ ih =>
    rename_i e rest _
    have hstep := htake _ _ _ hanswer
    cases hentry : take e with
    | none =>
      rw [hentry] at hstep
      rw [← hstep]
      refine ih.trans ((flatMap_set hi (b := []) ?_).symm.append_right _)
      simp [taken_cons, hentry]
    | some answer =>
      rw [hentry] at hstep
      obtain ⟨rfl, htail⟩ := hstep
      cases hqueue : queue _ with
      | nil =>
        rw [hqueue] at hentry htail
        rw [htail] at ih
        refine ih.trans ((flatMap_set hi (b := []) ?_).symm.append_right _)
        simp [taken_cons, hentry]
      | cons g rest' =>
        rw [hqueue] at hentry htail
        rw [htail] at ih
        refine (ih.cons g).trans ((flatMap_set hi (b := [g]) ?_).symm.append_right _)
        simp [taken_cons, hentry]

/-- Where every program asks until nothing is left, nothing is left. -/
theorem Interleaved.taken_all (h : Interleaved answers traces s last)
    (htake : Takes answers queue take)
    (hends : ∀ trace ∈ traces, ∃ e ∈ trace, take e = some none) (hne : traces ≠ []) : queue last = [] := by
  have hend := h.invariant (I := fun traces s => queue s = [] ∨ ∀ trace ∈ traces, ∃ e ∈ trace, take e = some none)
    (.inr hends) (by
      intro traces s i e rest s' hI hi hanswer
      have hstep := htake _ _ _ hanswer
      have hkeep : take e ≠ some none → (∀ trace ∈ traces, ∃ e ∈ trace, take e = some none) →
          ∀ trace ∈ traces.set i rest, ∃ e ∈ trace, take e = some none := by
        intro hother hends trace htrace
        rcases List.mem_or_eq_of_mem_set htrace with htrace | rfl
        · exact hends trace htrace
        · obtain ⟨e', he', hnone⟩ := hends _ (List.mem_of_getElem? hi)
          rcases List.mem_cons.mp he' with rfl | he'
          · exact (hother hnone).elim
          · exact ⟨e', he', hnone⟩
      cases hentry : take e with
      | none =>
        rw [hentry] at hstep
        rw [hstep]
        exact hI.imp_right (hkeep (by simp [hentry]))
      | some answer =>
        rw [hentry] at hstep
        obtain ⟨rfl, htail⟩ := hstep
        cases hqueue : queue s with
        | nil => exact .inl (by rw [htail, hqueue, List.tail_nil])
        | cons g queue' =>
          rw [hqueue] at hI
          exact .inr (hkeep (by simp [hentry, hqueue]) (hI.resolve_left (List.cons_ne_nil _ _))))
  obtain ⟨ended, hempty, hlength, hlast⟩ := hend
  refine hlast.resolve_right fun hends => ?_
  obtain ⟨trace, htrace⟩ := List.exists_mem_of_ne_nil ended fun hnil => hne (List.length_eq_zero_iff.mp (by rw [← hlength, hnil]; rfl))
  obtain ⟨e, he, -⟩ := hends trace htrace
  rw [hempty trace htrace] at he
  cases he

end

end YiQiao.Lib
