import Mathlib.Algebra.Order.Ring.Rat

/-!
# Adaptive concurrency

`AdaptiveConcurrency` of `chat_import.py`. Every method runs under the lock, so that the workers take turns in any
order, and each of them reads the clock at most once: the time of an event is what it reads, whatever the clock does.
-/

namespace YiQiao

structure AdaptiveConcurrency where
  target : Int
  current : Int
  active : Int
  consecutiveFailures : Nat
  successStreak : Nat
  cooldownUntil : ℚ
  cooldownGeneration : Nat
  retryBaseSeconds : ℚ
  retryMaxSeconds : ℚ
  deriving DecidableEq, Repr

namespace AdaptiveConcurrency

/-- `__init__`. -/
def start (target : Int) (retryBaseSeconds retryMaxSeconds : ℚ) : AdaptiveConcurrency where
  target := max 1 (min target 4)
  current := max 1 (min target 4)
  active := 0
  consecutiveFailures := 0
  successStreak := 0
  cooldownUntil := 0
  cooldownGeneration := 0
  retryBaseSeconds := max 0 retryBaseSeconds
  retryMaxSeconds := max (max 0 retryBaseSeconds) retryMaxSeconds

inductive Acquisition where
  | acquired
  | waits
  /-- `ImportCancelled`. -/
  | cancelled
  deriving DecidableEq, Repr

/-- One turn of the loop of `acquire`; between two turns the lock is given up. -/
def acquire (cancelled : Bool) (now : ℚ) (c : AdaptiveConcurrency) : Acquisition × AdaptiveConcurrency :=
  if cancelled then (.cancelled, c)
  else
    let cooldownRemaining := max 0 (c.cooldownUntil - now)
    if c.active < c.current ∧ cooldownRemaining ≤ 0 then (.acquired, { c with active := c.active + 1 })
    else (.waits, c)

def release (c : AdaptiveConcurrency) : AdaptiveConcurrency := { c with active := max 0 (c.active - 1) }

/-- `record_failure`; `pressure` is the answer of `is_pressure_error`. -/
def recordFailure (pressure : Bool) (now : ℚ) (c : AdaptiveConcurrency) : Option Nat × AdaptiveConcurrency :=
  let c := { c with consecutiveFailures := c.consecutiveFailures + 1, successStreak := 0 }
  if pressure ∨ 2 ≤ c.consecutiveFailures then
    let c := { c with current := max 1 (c.current - 1) }
    let penalty := min c.retryMaxSeconds (c.retryBaseSeconds * 2 ^ min 6 (c.consecutiveFailures - 1))
    let candidate := now + penalty
    if c.cooldownUntil ≤ candidate then
      (some (c.cooldownGeneration + 1),
        { c with cooldownUntil := candidate, cooldownGeneration := c.cooldownGeneration + 1 })
    else (none, c)
  else (none, c)

def completeBackoff (cooldownToken : Option Nat) (now : ℚ) (c : AdaptiveConcurrency) : AdaptiveConcurrency :=
  match cooldownToken with
  | none => c
  | some token =>
      if token = c.cooldownGeneration then { c with cooldownUntil := min c.cooldownUntil now } else c

def recordSuccess (now : ℚ) (c : AdaptiveConcurrency) : AdaptiveConcurrency :=
  let c := { c with consecutiveFailures := 0, successStreak := c.successStreak + 1 }
  let threshold : Int := max 4 (c.current * 2)
  if c.current < c.target ∧ threshold ≤ c.successStreak ∧ c.cooldownUntil ≤ now then
    { c with current := c.current + 1, successStreak := 0 }
  else c

/-! ## Runs -/

/-- A call of a worker, with what it reads of the clock. -/
inductive Call where
  | acquire (cancelled : Bool) (now : ℚ)
  | release
  | recordFailure (pressure : Bool) (now : ℚ)
  | recordSuccess (now : ℚ)
  | completeBackoff (cooldownToken : Option Nat) (now : ℚ)
  deriving Repr

def step (c : AdaptiveConcurrency) : Call → AdaptiveConcurrency
  | .acquire cancelled now => (c.acquire cancelled now).2
  | .release => c.release
  | .recordFailure pressure now => (c.recordFailure pressure now).2
  | .recordSuccess now => c.recordSuccess now
  | .completeBackoff cooldownToken now => c.completeBackoff cooldownToken now

def run (c : AdaptiveConcurrency) (calls : List Call) : AdaptiveConcurrency := calls.foldl step c

/-- The limits are in their range, and no more permits are out than the target. -/
structure InRange (c : AdaptiveConcurrency) : Prop where
  one_le : 1 ≤ c.current
  current_le : c.current ≤ c.target
  target_le : c.target ≤ 4
  active_le : c.active ≤ c.target
  active_nonneg : 0 ≤ c.active

variable {c : AdaptiveConcurrency} {token later : Nat} {pressure : Bool} {now : ℚ}

theorem start_inRange (target : Int) (retryBaseSeconds retryMaxSeconds : ℚ) :
    (start target retryBaseSeconds retryMaxSeconds).InRange := by
  constructor <;> simp only [start] <;> omega

theorem acquire_acquired {cancelled : Bool} (h : (c.acquire cancelled now).1 = .acquired) :
    c.active < c.current ∧ c.cooldownUntil ≤ now := by
  simp only [acquire] at h
  split at h
  · cases h
  · split at h
    · rename_i hfree
      simpa using hfree
    · cases h

theorem acquire_inRange {cancelled : Bool} (h : c.InRange) : (c.acquire cancelled now).2.InRange := by
  obtain ⟨hone, hcurrent, htarget, hactive, hnonneg⟩ := h
  simp only [acquire]
  split
  · exact ⟨hone, hcurrent, htarget, hactive, hnonneg⟩
  · split
    · rename_i hfree
      constructor <;> simp only <;> omega
    · exact ⟨hone, hcurrent, htarget, hactive, hnonneg⟩

theorem release_inRange (h : c.InRange) : c.release.InRange := by
  obtain ⟨hone, hcurrent, htarget, hactive, hnonneg⟩ := h
  constructor <;> simp only [release] <;> omega

theorem recordFailure_inRange (h : c.InRange) : (c.recordFailure pressure now).2.InRange := by
  obtain ⟨hone, hcurrent, htarget, hactive, hnonneg⟩ := h
  simp only [recordFailure]
  split
  · split
    · constructor <;> simp only <;> omega
    · constructor <;> simp only <;> omega
  · exact ⟨hone, hcurrent, htarget, hactive, hnonneg⟩

theorem recordSuccess_inRange (h : c.InRange) : (c.recordSuccess now).InRange := by
  obtain ⟨hone, hcurrent, htarget, hactive, hnonneg⟩ := h
  simp only [recordSuccess]
  split
  · rename_i hgrows
    constructor <;> simp only at hgrows ⊢ <;> omega
  · exact ⟨hone, hcurrent, htarget, hactive, hnonneg⟩

theorem completeBackoff_inRange {cooldownToken : Option Nat} (h : c.InRange) :
    (c.completeBackoff cooldownToken now).InRange := by
  obtain ⟨hone, hcurrent, htarget, hactive, hnonneg⟩ := h
  simp only [completeBackoff]
  split
  · exact ⟨hone, hcurrent, htarget, hactive, hnonneg⟩
  · split <;> exact ⟨hone, hcurrent, htarget, hactive, hnonneg⟩

theorem step_inRange (h : c.InRange) (call : Call) : (c.step call).InRange := by
  cases call with
  | acquire cancelled now => exact acquire_inRange h
  | release => exact release_inRange h
  | recordFailure pressure now => exact recordFailure_inRange h
  | recordSuccess now => exact recordSuccess_inRange h
  | completeBackoff cooldownToken now => exact completeBackoff_inRange h

theorem run_inRange (h : c.InRange) (calls : List Call) : (c.run calls).InRange := by
  induction calls generalizing c with
  | nil => exact h
  | cons call calls ih => exact ih (step_inRange h call)

/-! ## Tokens -/

/-- A token names the cooldown that its failure began. -/
theorem recordFailure_token (h : (c.recordFailure pressure now).1 = some token) :
    token = c.cooldownGeneration + 1 ∧ (c.recordFailure pressure now).2.cooldownGeneration = token := by
  simp only [recordFailure] at h ⊢
  split at h
  · rename_i hpressure
    rw [if_pos hpressure]
    split at h
    · rename_i hextends
      cases h
      exact ⟨rfl, by rw [if_pos hextends]⟩
    · cases h
  · cases h

theorem step_generation (call : Call) : c.cooldownGeneration ≤ (c.step call).cooldownGeneration := by
  cases call with
  | acquire cancelled now =>
      simp only [step, acquire]
      split
      · exact le_refl _
      · split <;> exact le_refl _
  | release => exact le_refl _
  | recordFailure pressure now =>
      simp only [step, recordFailure]
      split
      · split
        · exact Nat.le_succ _
        · exact le_refl _
      · exact le_refl _
  | recordSuccess now =>
      simp only [step, recordSuccess]
      split <;> exact le_refl _
  | completeBackoff cooldownToken now =>
      simp only [step, completeBackoff]
      split
      · exact le_refl _
      · split <;> exact le_refl _

theorem run_generation (calls : List Call) : c.cooldownGeneration ≤ (c.run calls).cooldownGeneration := by
  induction calls generalizing c with
  | nil => exact le_refl _
  | cons call calls ih => exact (step_generation call).trans ih

theorem completeBackoff_stale (h : token < c.cooldownGeneration) : c.completeBackoff (some token) now = c := by
  simp [completeBackoff, h.ne]

/-- A token counts for nothing once a later failure has begun a cooldown of its own. -/
theorem completeBackoff_earlier {between after : List Call} {pressure' : Bool} {now' now'' : ℚ}
    (hfirst : (c.recordFailure pressure now).1 = some token)
    (hsecond : (((c.recordFailure pressure now).2.run between).recordFailure pressure' now').1 = some later) :
    ((((c.recordFailure pressure now).2.run between).recordFailure pressure' now').2.run after).completeBackoff
        (some token) now'' =
      (((c.recordFailure pressure now).2.run between).recordFailure pressure' now').2.run after := by
  apply completeBackoff_stale
  have hbetween := @run_generation (c.recordFailure pressure now).2 between
  have hafter := @run_generation (((c.recordFailure pressure now).2.run between).recordFailure pressure' now').2 after
  obtain ⟨-, hgeneration⟩ := recordFailure_token hfirst
  obtain ⟨hnext, hgeneration'⟩ := recordFailure_token hsecond
  omega

/-- The limits hold in every state, a permit is given out only below the current limit and out of a cooldown, and
the token of a cooldown never shortens a later one. -/
theorem concurrency_adapts (target : Int) (retryBaseSeconds retryMaxSeconds : ℚ) (calls : List Call) :
    let c := (start target retryBaseSeconds retryMaxSeconds).run calls
    (1 ≤ c.current ∧ c.current ≤ c.target ∧ c.target ≤ 4 ∧ c.active ≤ c.target) ∧
      (∀ cancelled now, (c.acquire cancelled now).1 = .acquired → c.active < c.current ∧ c.cooldownUntil ≤ now) ∧
      ∀ pressure now token between pressure' now' later after now'',
        (c.recordFailure pressure now).1 = some token →
        (((c.recordFailure pressure now).2.run between).recordFailure pressure' now').1 = some later →
        let c' := (((c.recordFailure pressure now).2.run between).recordFailure pressure' now').2.run after
        (c'.completeBackoff (some token) now'').cooldownUntil = c'.cooldownUntil := by
  intro c
  have h : c.InRange := run_inRange (start_inRange target retryBaseSeconds retryMaxSeconds) calls
  refine ⟨⟨h.one_le, h.current_le, h.target_le, h.active_le⟩, fun _ _ => acquire_acquired, ?_⟩
  intro pressure now token between pressure' now' later after now'' hfirst hsecond
  exact congrArg cooldownUntil (completeBackoff_earlier hfirst hsecond)

/-- Three workers fail one after another, and the first of them comes back from its backoff. -/
theorem concurrency_adapts_three :
    let c := (start 3 1 30).run [.acquire false 0, .acquire false 0, .acquire false 0]
    let c' := ((c.recordFailure true 1).2.recordFailure true (3 / 2)).2.run [.release, .release]
    c.active = 3 ∧ c.active ≤ c.target ∧ c'.cooldownUntil = 7 / 2 ∧
      (c'.completeBackoff (some 1) 2).cooldownUntil = c'.cooldownUntil := by
  have hadapts := concurrency_adapts 3 1 30 [.acquire false 0, .acquire false 0, .acquire false 0]
  refine ⟨by decide +kernel, hadapts.1.2.2.2, by decide +kernel, ?_⟩
  exact hadapts.2.2 true 1 1 [] true (3 / 2) 2 [.release, .release] 2 (by decide +kernel) (by decide +kernel)

end AdaptiveConcurrency

end YiQiao
