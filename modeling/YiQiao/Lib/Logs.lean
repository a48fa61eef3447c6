import Mathlib.Data.List.Basic

/-!
# Logs

A log is replayed entry by entry on a state. What each entry says can be checked against the entries before it and the
state they lead to.
-/

namespace YiQiao.Lib

variable {σ ε : Type} {apply : σ → ε → σ} {P : List ε → σ → ε → Prop} {s : σ} {seen log more : List ε}

/-- The state a log leads to. -/
def replay (apply : σ → ε → σ) (s : σ) (log : List ε) : σ := log.foldl apply s

@[simp] theorem replay_nil : replay apply s [] = s := rfl

@[simp] theorem replay_cons {e : ε} : replay apply s (e :: log) = replay apply (apply s e) log := rfl

@[simp] theorem replay_append : replay apply s (log ++ more) = replay apply (replay apply s log) more :=
  List.foldl_append

/-- Entries that change nothing lead nowhere. -/
theorem replay_of_still (h : ∀ e ∈ log, ∀ t, apply t e = t) : replay apply s log = s := by
  induction log with
  | nil => rfl
  | cons e log ih =>
    obtain ⟨he, hrest⟩ := List.forall_mem_cons.mp h
    rw [replay_cons, he, ih hrest]

/-- Each entry is right, given the entries before it and the state they lead to. -/
def EachEntry (apply : σ → ε → σ) (P : List ε → σ → ε → Prop) : List ε → σ → List ε → Prop
  | _, _, [] => True
  | seen, s, e :: log => P seen s e ∧ EachEntry apply P (seen ++ [e]) (apply s e) log

@[simp] theorem eachEntry_append :
    EachEntry apply P seen s (log ++ more) ↔
      EachEntry apply P seen s log ∧ EachEntry apply P (seen ++ log) (replay apply s log) more := by
  induction log generalizing seen s with
  | nil => simp [EachEntry]
  | cons e log ih => simp [EachEntry, ih, and_assoc]

theorem EachEntry.at {pre post : List ε} {e : ε} (h : EachEntry apply P seen s (pre ++ e :: post)) :
    P (seen ++ pre) (replay apply s pre) e := (eachEntry_append.mp h).2.1

/-- Entries that are right wherever they stand. -/
theorem EachEntry.of_forall (h : ∀ e ∈ log, ∀ seen s, P seen s e) : EachEntry apply P seen s log := by
  induction log generalizing seen s with
  | nil => trivial
  | cons e log ih =>
    obtain ⟨he, hrest⟩ := List.forall_mem_cons.mp h
    exact ⟨he seen s, ih hrest⟩

/-- Entries that change nothing are right where the state is. -/
theorem EachEntry.of_still (hstill : ∀ e ∈ log, ∀ t, apply t e = t) (h : ∀ e ∈ log, ∀ seen, P seen s e) :
    EachEntry apply P seen s log := by
  induction log generalizing seen with
  | nil => trivial
  | cons e log ih =>
    obtain ⟨he, hrest⟩ := List.forall_mem_cons.mp h
    obtain ⟨hstill, hstills⟩ := List.forall_mem_cons.mp hstill
    refine ⟨he seen, ?_⟩
    rw [hstill]
    exact ih hstills hrest

/-- What is right whatever came before is right after anything. -/
theorem EachEntry.of_seen {Q : σ → ε → Prop} {seen' : List ε} (h : EachEntry apply (fun _ => Q) seen s log) :
    EachEntry apply (fun _ => Q) seen' s log := by
  induction log generalizing seen seen' s with
  | nil => trivial
  | cons e log ih => exact ⟨h.1, ih h.2⟩

end YiQiao.Lib
