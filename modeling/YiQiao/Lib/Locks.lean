import YiQiao.Lib.Rows

/-!
# Transactions under named locks

A transaction takes its locks one after another, reads the committed state under each, and commits; it keeps its
locks until then. Any number of them run at once. What a transaction has read stays true up to its commit when no
transaction without the lock can make it false: that is the rely condition, and the rule for invariants below.
-/

namespace YiQiao.Lib.Locks

/-- A lock that a transaction takes, and what it reads under it: it goes on or rolls back. -/
structure Stage (κ σ : Type) where
  lock : κ
  passes : σ → Bool

/-- What the transactions are. -/
structure Protocol (τ κ σ : Type) where
  stages : τ → List (Stage κ σ)
  commit : τ → σ → σ

/-- A transaction on its way. -/
structure Running (ι τ κ σ : Type) where
  who : ι
  step : τ
  passed : List (Stage κ σ)
  left : List (Stage κ σ)

structure Machine (ι τ κ σ : Type) where
  state : σ
  log : List τ
  running : List (Running ι τ κ σ)

inductive Event (ι τ : Type) where
  | begin (who : ι) (step : τ)
  | enter (who : ι)
  | commit (who : ι)
  | rollback (who : ι)

variable {ι τ κ σ : Type} [DecidableEq ι] [DecidableEq κ]

/-- Another client has the lock. -/
def Machine.held (m : Machine ι τ κ σ) (who : ι) (lock : κ) : Bool :=
  m.running.any fun r => r.who ≠ who && r.passed.any fun stage => stage.lock = lock

def Machine.drop (m : Machine ι τ κ σ) (who : ι) : Machine ι τ κ σ :=
  { m with running := deleteRows (fun r => r.who = who) m.running }

/-- One step of one client; a client that cannot make it waits. -/
def Protocol.next (P : Protocol τ κ σ) (m : Machine ι τ κ σ) : Event ι τ → Machine ι τ κ σ
  | .begin who step =>
      if m.running.any fun r => r.who = who then m
      else { m with running := m.running ++ [⟨who, step, [], P.stages step⟩] }
  | .enter who =>
      match m.running.find? fun r => r.who = who with
      | some ⟨_, step, passed, stage :: left⟩ =>
          if m.held who stage.lock then m
          else if stage.passes m.state then
            { m with running :=
              updateRows (fun r => r.who = who) (fun _ => ⟨who, step, passed ++ [stage], left⟩) m.running }
          else m.drop who
      | _ => m
  | .commit who =>
      match m.running.find? fun r => r.who = who with
      | some ⟨_, step, _, []⟩ => { m.drop who with state := P.commit step m.state, log := m.log ++ [step] }
      | _ => m
  | .rollback who => m.drop who

def Protocol.run (P : Protocol τ κ σ) (m : Machine ι τ κ σ) (events : List (Event ι τ)) : Machine ι τ κ σ :=
  events.foldl P.next m

def Machine.fresh (s : σ) : Machine ι τ κ σ := ⟨s, [], []⟩

/-- The transaction when no other one is there. -/
def Protocol.alone (P : Protocol τ κ σ) (step : τ) (s : σ) : σ :=
  if (P.stages step).all fun stage => stage.passes s then P.commit step s else s

/-- The transactions that the events begin. -/
def Begins (ok : τ → Prop) (events : List (Event ι τ)) : Prop :=
  ∀ event ∈ events, ∀ who step, event = .begin who step → ok step

/-- The commits of a log, each in a state that admits it. -/
def Protocol.Admits (P : Protocol τ κ σ) (admits : σ → τ → Prop) : σ → List τ → Prop
  | _, [] => True
  | s, step :: log => admits s step ∧ P.Admits admits (P.commit step s) log

/-- What a transaction knows from the lock on, in a run whose states satisfy the invariant. -/
structure Rely (P : Protocol τ κ σ) (ok : τ → Prop) (admits : σ → τ → Prop) (I : List τ → σ → Prop)
    (knows : τ → κ → σ → Prop) : Prop where
  reads : ∀ {step stage s}, ok step → stage ∈ P.stages step → stage.passes s = true → knows step stage.lock s
  keeps : ∀ {step lock other log s}, ok other → I log s → admits s other →
    (∀ stage ∈ P.stages other, stage.lock ≠ lock) → knows step lock s → knows step lock (P.commit other s)
  commits : ∀ {step log s}, ok step → I log s → admits s step → (∀ stage ∈ P.stages step, knows step stage.lock s) →
    I (log ++ [step]) (P.commit step s)

/-- Clients exclude each other from their locks, and know what they have read. -/
structure Machine.Sound (P : Protocol τ κ σ) (ok : τ → Prop) (knows : τ → κ → σ → Prop) (m : Machine ι τ κ σ) :
    Prop where
  ok : ∀ r ∈ m.running, ok r.step
  stages : ∀ r ∈ m.running, P.stages r.step = r.passed ++ r.left
  apart : ∀ r ∈ m.running, ∀ r' ∈ m.running, r.who ≠ r'.who → ∀ stage ∈ r.passed, ∀ stage' ∈ r'.passed,
    stage.lock ≠ stage'.lock
  known : ∀ r ∈ m.running, ∀ stage ∈ r.passed, knows r.step stage.lock m.state

variable {P : Protocol τ κ σ} {ok : τ → Prop} {admits : σ → τ → Prop} {I : List τ → σ → Prop}
  {knows : τ → κ → σ → Prop} {m : Machine ι τ κ σ} {who : ι}

omit [DecidableEq κ] in
theorem mem_drop {r : Running ι τ κ σ} : r ∈ (m.drop who).running ↔ r ∈ m.running ∧ r.who ≠ who := by
  simp [Machine.drop, deleteRows]

omit [DecidableEq ι] [DecidableEq κ] in
theorem Machine.Sound.fresh (s : σ) : (Machine.fresh s : Machine ι τ κ σ).Sound P ok knows where
  ok := fun _ h => nomatch h
  stages := fun _ h => nomatch h
  apart := fun _ h => nomatch h
  known := fun _ h => nomatch h

omit [DecidableEq κ] in
theorem Machine.Sound.drop (h : m.Sound P ok knows) (who : ι) : (m.drop who).Sound P ok knows where
  ok := fun r hr => h.ok r (mem_drop.mp hr).1
  stages := fun r hr => h.stages r (mem_drop.mp hr).1
  apart := fun r hr r' hr' => h.apart r (mem_drop.mp hr).1 r' (mem_drop.mp hr').1
  known := fun r hr => h.known r (mem_drop.mp hr).1

omit [DecidableEq κ] in
theorem mem_of_find? {r : Running ι τ κ σ} (h : m.running.find? (fun r => r.who = who) = some r) :
    r ∈ m.running ∧ r.who = who :=
  ⟨List.mem_of_find?_eq_some h, by simpa using List.find?_some h⟩

theorem Machine.Sound.begin (h : m.Sound P ok knows) {step : τ} (hok : ok step) :
    (P.next m (.begin who step)).Sound P ok knows := by
  simp only [Protocol.next]
  split
  · exact h
  · constructor
    · intro r hr
      rcases List.mem_append.mp hr with hr | hr
      · exact h.ok r hr
      · rw [List.mem_singleton.mp hr]
        exact hok
    · intro r hr
      rcases List.mem_append.mp hr with hr | hr
      · exact h.stages r hr
      · rw [List.mem_singleton.mp hr]
        rfl
    · intro r hr r' hr' hwho stage hstage stage' hstage'
      rcases List.mem_append.mp hr with hr | hr
      · rcases List.mem_append.mp hr' with hr' | hr'
        · exact h.apart r hr r' hr' hwho stage hstage stage' hstage'
        · rw [List.mem_singleton.mp hr'] at hstage'
          cases hstage'
      · rw [List.mem_singleton.mp hr] at hstage
        cases hstage
    · intro r hr stage hstage
      rcases List.mem_append.mp hr with hr | hr
      · exact h.known r hr stage hstage
      · rw [List.mem_singleton.mp hr] at hstage
        cases hstage

/-- Nobody else has a lock that is free. -/
theorem not_held {lock : κ} (h : m.held who lock = false) {r : Running ι τ κ σ} (hr : r ∈ m.running)
    (hwho : r.who ≠ who) {stage : Stage κ σ} (hstage : stage ∈ r.passed) : stage.lock ≠ lock := by
  intro hlock
  rw [Machine.held, List.any_eq_false] at h
  refine h r hr ?_
  simp only [Bool.and_eq_true, decide_eq_true_eq, List.any_eq_true]
  exact ⟨hwho, stage, hstage, hlock⟩

theorem Machine.Sound.enter (hrely : Rely P ok admits I knows) (h : m.Sound P ok knows) :
    (P.next m (.enter who)).Sound P ok knows := by
  simp only [Protocol.next]
  split
  next found step passed stage left hfound =>
    obtain ⟨hmem, rfl⟩ := mem_of_find? hfound
    split
    · exact h
    · next hheld =>
      have hheld := Bool.eq_false_iff.mpr hheld
      split
      · next hpasses =>
        have hstages : P.stages step = passed ++ stage :: left := h.stages _ hmem
        have hread := hrely.reads (h.ok _ hmem) (hstages ▸ List.mem_append_right _ List.mem_cons_self) hpasses
        constructor
        · intro r hr
          rcases mem_updateRows.mp hr with ⟨hr, -⟩ | ⟨_, -, -, rfl⟩
          · exact h.ok r hr
          · exact h.ok ⟨found, step, passed, stage :: left⟩ hmem
        · intro r hr
          rcases mem_updateRows.mp hr with ⟨hr, -⟩ | ⟨_, -, -, rfl⟩
          · exact h.stages r hr
          · rw [hstages, List.append_assoc]
            rfl
        · -- the new lock is free, and the others are those of before
          intro r hr r' hr' hwho s hs s' hs'
          rcases mem_updateRows.mp hr with ⟨hr, hne⟩ | ⟨_, -, -, rfl⟩
          · rcases mem_updateRows.mp hr' with ⟨hr', -⟩ | ⟨_, -, -, rfl⟩
            · exact h.apart r hr r' hr' hwho s hs s' hs'
            · rcases List.mem_append.mp hs' with hs' | hs'
              · exact h.apart r hr _ hmem hwho s hs s' hs'
              · rw [List.mem_singleton.mp hs']
                exact not_held hheld hr hwho hs
          · rcases mem_updateRows.mp hr' with ⟨hr', -⟩ | ⟨_, -, -, rfl⟩
            · rcases List.mem_append.mp hs with hs | hs
              · exact h.apart _ hmem r' hr' hwho s hs s' hs'
              · rw [List.mem_singleton.mp hs]
                exact (not_held hheld hr' hwho.symm hs').symm
            · exact absurd rfl hwho
        · intro r hr s hs
          rcases mem_updateRows.mp hr with ⟨hr, -⟩ | ⟨_, -, -, rfl⟩
          · exact h.known r hr s hs
          · rcases List.mem_append.mp hs with hs | hs
            · exact h.known _ hmem s hs
            · rw [List.mem_singleton.mp hs]
              exact hread
      · exact h.drop _
  · exact h

omit [DecidableEq ι] [DecidableEq κ] in
/-- At its commit a transaction still knows all that it has read. -/
theorem Machine.Sound.knowsAll {step : τ} {passed : List (Stage κ σ)} (h : m.Sound P ok knows)
    (hmem : ⟨who, step, passed, []⟩ ∈ m.running) : ∀ stage ∈ P.stages step, knows step stage.lock m.state := by
  intro stage hstage
  rw [h.stages _ hmem, List.append_nil] at hstage
  exact h.known _ hmem stage hstage

theorem Machine.Sound.commit (hrely : Rely P ok admits I knows) (h : m.Sound P ok knows) (hI : I m.log m.state)
    (hadmits : ∀ step passed, ⟨who, step, passed, []⟩ ∈ m.running →
      (P.next m (.commit who)).log = m.log ++ [step] → admits m.state step) :
    (P.next m (.commit who)).Sound P ok knows := by
  simp only [Protocol.next] at hadmits ⊢
  split
  next found step passed hfound =>
    obtain ⟨hmem, rfl⟩ := mem_of_find? hfound
    rw [hfound] at hadmits
    have hdrop := h.drop found
    refine ⟨hdrop.ok, hdrop.stages, hdrop.apart, fun r hr stage hstage => ?_⟩
    refine hrely.keeps (h.ok _ hmem) hI (hadmits step passed hmem rfl) (fun stage' hstage' => ?_)
      (hdrop.known r hr stage hstage)
    rw [h.stages _ hmem, List.append_nil] at hstage'
    obtain ⟨hr, hwho⟩ := mem_drop.mp hr
    exact (h.apart r hr _ hmem hwho stage hstage stage' hstage').symm
  · exact h

/-- What an event makes of the state: nothing, or a commit. -/
theorem next_cases (m : Machine ι τ κ σ) (event : Event ι τ) :
    (P.next m event).state = m.state ∧ (P.next m event).log = m.log ∨
    ∃ who step passed, event = .commit who ∧ ⟨who, step, passed, []⟩ ∈ m.running ∧
      (P.next m event).state = P.commit step m.state ∧ (P.next m event).log = m.log ++ [step] := by
  cases event with
  | begin who step =>
    simp only [Protocol.next]
    split
    · exact .inl ⟨rfl, rfl⟩
    · exact .inl ⟨rfl, rfl⟩
  | enter who =>
    simp only [Protocol.next]
    split
    · split
      · exact .inl ⟨rfl, rfl⟩
      · split
        · exact .inl ⟨rfl, rfl⟩
        · exact .inl ⟨rfl, rfl⟩
    · exact .inl ⟨rfl, rfl⟩
  | commit who =>
    simp only [Protocol.next]
    split
    next found step passed hfound =>
      obtain ⟨hmem, rfl⟩ := mem_of_find? hfound
      exact .inr ⟨found, step, passed, rfl, hmem, rfl, rfl⟩
    · exact .inl ⟨rfl, rfl⟩
  | rollback who => exact .inl ⟨rfl, rfl⟩

omit [DecidableEq ι] [DecidableEq κ] in
theorem admits_append {s : σ} {log : List τ} {step : τ} :
    P.Admits admits s (log ++ [step]) ↔ P.Admits admits s log ∧ admits (log.foldl (fun s t => P.commit t s) s) step := by
  induction log generalizing s with
  | nil => simp [Protocol.Admits]
  | cons first log ih => simp only [List.cons_append, Protocol.Admits, ih, List.foldl_cons, and_assoc]

/-- The state is what the log makes of the first one. -/
def Machine.From (P : Protocol τ κ σ) (s : σ) (m : Machine ι τ κ σ) : Prop :=
  m.state = m.log.foldl (fun s t => P.commit t s) s

theorem Machine.From.next {s : σ} (h : m.From P s) (event : Event ι τ) : (P.next m event).From P s := by
  rcases next_cases (P := P) m event with ⟨hstate, hlog⟩ | ⟨who, step, passed, -, -, hstate, hlog⟩
  · rw [Machine.From, hstate, hlog]
    exact h
  · rw [Machine.From, hstate, hlog, List.foldl_append, ← h]
    rfl

theorem Machine.From.run {s : σ} (h : m.From P s) (events : List (Event ι τ)) : (P.run m events).From P s := by
  induction events generalizing m with
  | nil => exact h
  | cons event events ih => exact ih (h.next event)

theorem run_log (m : Machine ι τ κ σ) (events : List (Event ι τ)) : ∃ log, (P.run m events).log = m.log ++ log := by
  induction events generalizing m with
  | nil => exact ⟨[], (List.append_nil _).symm⟩
  | cons event events ih =>
    obtain ⟨log, hlog⟩ := ih (P.next m event)
    rcases next_cases (P := P) m event with ⟨-, hnext⟩ | ⟨who, step, passed, -, -, -, hnext⟩
    · exact ⟨log, by rw [← hnext]; exact hlog⟩
    · refine ⟨step :: log, ?_⟩
      rw [hnext, List.append_assoc] at hlog
      exact hlog

omit [DecidableEq ι] [DecidableEq κ] in
theorem Protocol.Admits.left {s : σ} {log rest : List τ} (h : P.Admits admits s (log ++ rest)) : P.Admits admits s log := by
  induction log generalizing s with
  | nil => trivial
  | cons first log ih => exact ⟨h.1, ih h.2⟩

theorem Machine.Sound.next (hrely : Rely P ok admits I knows) {s : σ} (h : m.Sound P ok knows) (hI : I m.log m.state)
    (hfrom : m.From P s) (event : Event ι τ) (hok : ∀ who step, event = .begin who step → ok step)
    (hadmits : P.Admits admits s (P.next m event).log) :
    (P.next m event).Sound P ok knows ∧ I (P.next m event).log (P.next m event).state := by
  constructor
  · cases event with
    | begin who step => exact h.begin (hok who step rfl)
    | enter who => exact h.enter hrely
    | commit who =>
      refine h.commit hrely hI fun step passed hmem hlog => ?_
      rw [hlog, admits_append, ← hfrom] at hadmits
      exact hadmits.2
    | rollback who => exact h.drop who
  · rcases next_cases (P := P) m event with ⟨hstate, hlog⟩ | ⟨who, step, passed, -, hmem, hstate, hlog⟩
    · rw [hstate, hlog]
      exact hI
    · rw [hlog, admits_append, ← hfrom] at hadmits
      rw [hstate, hlog]
      exact hrely.commits (h.ok _ hmem) hI hadmits.2 (h.knowsAll hmem)

/-- The rule for invariants: a commit may rely on what its transaction has read. -/
theorem Rely.run (hrely : Rely P ok admits I knows) {s : σ} {events : List (Event ι τ)} (hok : Begins ok events)
    (h₀ : I [] s) (hadmits : P.Admits admits s (P.run (.fresh s : Machine ι τ κ σ) events).log) :
    I (P.run (.fresh s : Machine ι τ κ σ) events).log (P.run (.fresh s : Machine ι τ κ σ) events).state := by
  suffices ∀ m : Machine ι τ κ σ, m.From P s → m.Sound P ok knows → I m.log m.state →
      P.Admits admits s (P.run m events).log → I (P.run m events).log (P.run m events).state from
    this _ rfl (.fresh s) h₀ hadmits
  clear hadmits
  induction events with
  | nil => exact fun _ _ _ hI _ => hI
  | cons event events ih =>
    intro m hfrom hsound hI hadmits
    obtain ⟨log, hlog⟩ := run_log (P := P) (P.next m event) events
    have hnext : P.Admits admits s (P.next m event).log := (hlog ▸ hadmits : P.Admits admits s (_ ++ log)).left
    obtain ⟨hsound, hI⟩ := hsound.next hrely hI hfrom event (hok event List.mem_cons_self) hnext
    exact ih (fun e he => hok e (List.mem_cons_of_mem _ he)) _ (hfrom.next event) hsound hI hadmits

end YiQiao.Lib.Locks
