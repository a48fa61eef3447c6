import YiQiao.Lib.RefCounts
import YiQiao.Lib.Runs
import YiQiao.Memory.Scope

/-!
# The lock pool of adds

Adds of one session scope exclude each other by a lock that is there as long as one of them has it on lease. Threads
take their steps in any order; what a thread does under the guard of the pool is not one step.
-/

namespace YiQiao

open Lib

/-! ## Threads -/

/-- Where a thread is in `_add_to_vector_store`; from `looking` to `handing` and from `checking` to `leaving` it has the
guard. -/
inductive AddStage where
  | outside
  | leasing (key : String)
  | looking (key : String)
  | creating (key : String)
  | counting (key : String) (lock : Nat)
  | handing (key : String) (lock : Nat)
  | leased (key : String) (lock : Nat)
  | inside (key : String) (lock : Nat)
  | returning (key : String) (lock : Nat)
  | checking (key : String) (lock : Nat)
  | uncounting (key : String) (lock : Nat)
  | dropping (key : String) (lock : Nat)
  | leaving
  deriving DecidableEq, Repr

/-- `_KeyedLockPool`; the locks are numbered, and `made` has the key that each was made for. -/
structure KeyedLockPool (τ : Type) where
  guard : Option τ
  entries : String → Option (Nat × Nat)
  made : List String

/-- The pool, the locks with the depth to which their owners have them, the threads, and the leases that are out. `handed`
has all leases there ever were. -/
structure AddSystem (τ : Type) extends KeyedLockPool τ where
  owner : Nat → Option (τ × Nat)
  stage : τ → AddStage
  leases : List (Use τ String Nat)
  handed : List (Use τ String Nat)

inductive AddEvent where
  | add (filters : ScopeIds)
  | advance
  /-- The wait for a lock is interrupted. -/
  | giveUp

variable {τ : Type}

def AddSystem.start : AddSystem τ where
  guard := none
  entries := fun _ => none
  made := []
  owner := fun _ => none
  stage := fun _ => .outside
  leases := []
  handed := []

/-- `RLock.release`. -/
def releaseLock (owner : Nat → Option (τ × Nat)) (lock : Nat) : Nat → Option (τ × Nat) :=
  Function.update owner lock ((owner lock).bind fun entry => if entry.2 ≤ 1 then none else some (entry.1, entry.2 - 1))

variable [DecidableEq τ]

def AddSystem.put (s : AddSystem τ) (t : τ) (stage : AddStage) : AddSystem τ :=
  { s with stage := Function.update s.stage t stage }

/-- `RLock.acquire`, if it does not wait. -/
def acquireLock (owner : Nat → Option (τ × Nat)) (t : τ) (lock : Nat) : Option (Nat → Option (τ × Nat)) :=
  match owner lock with
  | none => some (Function.update owner lock (some (t, 1)))
  | some (u, depth) => if u = t then some (Function.update owner lock (some (t, depth + 1))) else none

/-- One step of a thread; `none` when it cannot be taken. -/
def AddSystem.advance (s : AddSystem τ) (t : τ) : Option (AddSystem τ) :=
  match s.stage t with
  | .outside => none
  | .leasing key => if s.guard = none then some { s.put t (.looking key) with guard := some t } else none
  | .looking key =>
      match s.entries key with
      | none => some (s.put t (.creating key))
      | some entry => some (s.put t (.counting key entry.1))
  | .creating key =>
      let lock := s.made.length
      some { s.put t (.counting key lock) with
        entries := Function.update s.entries key (some (lock, 0))
        made := s.made ++ [key] }
  | .counting key lock =>
      some { s.put t (.handing key lock) with
        entries := Function.update s.entries key ((s.entries key).map fun entry => (entry.1, entry.2 + 1))
        leases := ⟨t, key, lock⟩ :: s.leases
        handed := ⟨t, key, lock⟩ :: s.handed }
  | .handing key lock => some { s.put t (.leased key lock) with guard := none }
  | .leased key lock => (acquireLock s.owner t lock).map fun owner => { s.put t (.inside key lock) with owner }
  | .inside key lock => some { s.put t (.returning key lock) with owner := releaseLock s.owner lock }
  | .returning key lock =>
      if s.guard = none then some { s.put t (.checking key lock) with guard := some t } else none
  | .checking key lock =>
      -- an entry that is gone, or has another lock by now, is left alone
      if (s.entries key).map Prod.fst = some lock then some (s.put t (.uncounting key lock))
      else some { s.put t .leaving with leases := s.leases.erase ⟨t, key, lock⟩ }
  | .uncounting key lock =>
      some { s.put t (.dropping key lock) with
        entries := Function.update s.entries key ((s.entries key).map fun entry => (entry.1, entry.2 - 1))
        leases := s.leases.erase ⟨t, key, lock⟩ }
  | .dropping key _ =>
      if (s.entries key).map Prod.snd = some 0 then
        some { s.put t .leaving with entries := Function.update s.entries key none }
      else some (s.put t .leaving)
  | .leaving => some { s.put t .outside with guard := none }

def AddSystem.step (s : AddSystem τ) : τ × AddEvent → Option (AddSystem τ)
  | (t, .add filters) => if s.stage t = .outside then some (s.put t (.leasing (buildSessionScope filters))) else none
  | (t, .advance) => s.advance t
  | (t, .giveUp) =>
      match s.stage t with
      | .leased key lock => some (s.put t (.returning key lock))
      | _ => none

/-- The add of a thread is in the guarded section of the scope. -/
def AddSystem.Inside (s : AddSystem τ) (t : τ) (filters : ScopeIds) : Prop :=
  ∃ lock, s.stage t = .inside (buildSessionScope filters) lock

/-! ## What a stage says -/

def AddStage.guarded : AddStage → Bool
  | looking _ | creating _ | counting _ _ | handing _ _ | checking _ _ | uncounting _ _ | dropping _ _ | leaving => true
  | _ => false

/-- The lease that the thread has. -/
def AddStage.lease : AddStage → Option (String × Nat)
  | handing key lock | leased key lock | inside key lock | returning key lock | checking key lock
  | uncounting key lock => some (key, lock)
  | _ => none

/-- The lock that the thread is in. -/
def AddStage.entered : AddStage → Option Nat
  | inside _ lock => some lock
  | _ => none

/-- The key whose entry may be without a lease. -/
def AddStage.loose : AddStage → Option String
  | counting key _ | dropping key _ => some key
  | _ => none

/-- What the thread has read of the entries still holds. -/
def AddStage.Fits (entries : String → Option (Nat × Nat)) : AddStage → Prop
  | creating key => entries key = none
  | counting key lock | dropping key lock => ∃ n, entries key = some (lock, n)
  | _ => True

def AddSystem.loose (s : AddSystem τ) : Option String := s.guard.bind fun t => (s.stage t).loose

/-! ## Steps -/

/-- What a step of a thread does. -/
inductive AddSystem.Moved (s : AddSystem τ) (t : τ) : AddSystem τ → Prop where
  | stays {old new : AddStage} (hstage : s.stage t = old) (hguarded : old.guarded = new.guarded)
      (hlease : old.lease = new.lease) (hentered : old.entered = none ∧ new.entered = none)
      (hloose : old.loose = none ∧ new.loose = none) (hfits : new.Fits s.entries) : Moved s t (s.put t new)
  | enters {old new : AddStage} (hstage : s.stage t = old) (hfree : s.guard = none) (hguarded : new.guarded = true)
      (hlease : old.lease = new.lease) (hentered : old.entered = none ∧ new.entered = none) (hloose : new.loose = none)
      (hfits : new.Fits s.entries) : Moved s t { s.put t new with guard := some t }
  | leaves {old new : AddStage} (hstage : s.stage t = old) (hguarded : old.guarded = true ∧ new.guarded = false)
      (hlease : old.lease = new.lease) (hentered : old.entered = none ∧ new.entered = none) (hloose : old.loose = none) :
      Moved s t { s.put t new with guard := none }
  | finds {key : String} {lock n : Nat} (hstage : s.stage t = .looking key) (hentry : s.entries key = some (lock, n)) :
      Moved s t (s.put t (.counting key lock))
  | creates {key : String} (hstage : s.stage t = .creating key) : Moved s t
      { s.put t (.counting key s.made.length) with
        entries := Function.update s.entries key (some (s.made.length, 0))
        made := s.made ++ [key] }
  | counts {key : String} {lock : Nat} (hstage : s.stage t = .counting key lock) : Moved s t
      { s.put t (.handing key lock) with
        entries := Function.update s.entries key ((s.entries key).map fun entry => (entry.1, entry.2 + 1))
        leases := ⟨t, key, lock⟩ :: s.leases
        handed := ⟨t, key, lock⟩ :: s.handed }
  | acquires {key : String} {lock : Nat} {owner : Nat → Option (τ × Nat)} (hstage : s.stage t = .leased key lock)
      (hlock : acquireLock s.owner t lock = some owner) : Moved s t { s.put t (.inside key lock) with owner }
  | releases {key : String} {lock : Nat} (hstage : s.stage t = .inside key lock) :
      Moved s t { s.put t (.returning key lock) with owner := releaseLock s.owner lock }
  | misses {key : String} {lock : Nat} (hstage : s.stage t = .checking key lock)
      (hentry : (s.entries key).map Prod.fst ≠ some lock) :
      Moved s t { s.put t .leaving with leases := s.leases.erase ⟨t, key, lock⟩ }
  | uncounts {key : String} {lock : Nat} (hstage : s.stage t = .uncounting key lock) : Moved s t
      { s.put t (.dropping key lock) with
        entries := Function.update s.entries key ((s.entries key).map fun entry => (entry.1, entry.2 - 1))
        leases := s.leases.erase ⟨t, key, lock⟩ }
  | drops {key : String} {lock : Nat} (hstage : s.stage t = .dropping key lock)
      (hentry : (s.entries key).map Prod.snd = some 0) :
      Moved s t { s.put t .leaving with entries := Function.update s.entries key none }
  | keeps {key : String} {lock : Nat} (hstage : s.stage t = .dropping key lock)
      (hentry : (s.entries key).map Prod.snd ≠ some 0) : Moved s t (s.put t .leaving)

section

variable {s s' : AddSystem τ} {t : τ} {e : AddEvent}

theorem AddSystem.advance_moved (h : s.advance t = some s') : s.Moved t s' := by
  rw [advance] at h
  cases hstage : s.stage t with
  | outside =>
    rw [hstage] at h
    cases h
  | leasing key =>
    simp [hstage] at h
    obtain ⟨hfree, rfl⟩ := h
    exact .enters hstage hfree rfl rfl ⟨rfl, rfl⟩ rfl trivial
  | looking key =>
    simp only [hstage] at h
    cases hentry : s.entries key with
    | none =>
      simp only [hentry] at h
      cases h
      exact .stays hstage rfl rfl ⟨rfl, rfl⟩ ⟨rfl, rfl⟩ hentry
    | some entry =>
      simp only [hentry] at h
      cases h
      exact .finds hstage hentry
  | creating key =>
    simp only [hstage] at h
    cases h
    exact .creates hstage
  | counting key lock =>
    simp only [hstage] at h
    cases h
    exact .counts hstage
  | handing key lock =>
    simp only [hstage] at h
    cases h
    exact .leaves hstage ⟨rfl, rfl⟩ rfl ⟨rfl, rfl⟩ rfl
  | leased key lock =>
    simp only [hstage, Option.map_eq_some_iff] at h
    obtain ⟨owner, hlock, rfl⟩ := h
    exact .acquires hstage hlock
  | inside key lock =>
    simp only [hstage] at h
    cases h
    exact .releases hstage
  | returning key lock =>
    simp [hstage] at h
    obtain ⟨hfree, rfl⟩ := h
    exact .enters hstage hfree rfl rfl ⟨rfl, rfl⟩ rfl trivial
  | checking key lock =>
    simp only [hstage] at h
    split at h
    · cases h
      exact .stays hstage rfl rfl ⟨rfl, rfl⟩ ⟨rfl, rfl⟩ trivial
    · cases h
      exact .misses hstage ‹_›
  | uncounting key lock =>
    simp only [hstage] at h
    cases h
    exact .uncounts hstage
  | dropping key lock =>
    simp only [hstage] at h
    split at h
    · cases h
      exact .drops hstage ‹_›
    · cases h
      exact .keeps hstage ‹_›
  | leaving =>
    simp only [hstage] at h
    cases h
    exact .leaves hstage ⟨rfl, rfl⟩ rfl ⟨rfl, rfl⟩ rfl

theorem AddSystem.step_moved (h : s.step (t, e) = some s') : s.Moved t s' := by
  cases e with
  | add filters =>
    simp [step] at h
    obtain ⟨hstage, rfl⟩ := h
    exact .stays hstage rfl rfl ⟨rfl, rfl⟩ ⟨rfl, rfl⟩ trivial
  | advance => exact advance_moved h
  | giveUp =>
    simp only [step] at h
    split at h
    · rename_i key lock hstage
      cases h
      exact .stays hstage rfl rfl ⟨rfl, rfl⟩ ⟨rfl, rfl⟩ trivial
    · cases h

end

/-! ## The guard -/

/-- The thread that has the guard is the one whose stage says so. -/
def AddSystem.Guarded (s : AddSystem τ) : Prop := ∀ t, (s.stage t).guarded = true ↔ s.guard = some t

section

variable {s s' : AddSystem τ} {t : τ} {old new : AddStage}

theorem forall_put {p : τ → AddStage → Prop} :
    (∀ u, p u ((s.put t new).stage u)) ↔ p t new ∧ ∀ u, u ≠ t → p u (s.stage u) :=
  Function.forall_update_iff s.stage (p := p)

theorem AddSystem.Guarded.keep (h : s.Guarded) (hstage : s.stage t = old) (hguarded : old.guarded = new.guarded) :
    ∀ u, ((s.put t new).stage u).guarded = true ↔ s.guard = some u := by
  apply (forall_put (p := fun u stage => stage.guarded = true ↔ s.guard = some u)).mpr
  rw [← hguarded, ← hstage]
  exact ⟨h t, fun u _ => h u⟩

theorem AddSystem.Moved.guarded (hmoved : s.Moved t s') (h : s.Guarded) : s'.Guarded := by
  cases hmoved with
  | stays hstage hguarded => exact h.keep hstage hguarded
  | enters hstage hfree hguarded =>
    apply (forall_put (p := fun u stage => stage.guarded = true ↔ some t = some u)).mpr
    refine ⟨by simp [hguarded], fun u hu => ?_⟩
    rw [h u, hfree]
    simp [Ne.symm hu]
  | leaves hstage hguarded =>
    apply (forall_put (p := fun u stage => stage.guarded = true ↔ none = some u)).mpr
    refine ⟨by simp [hguarded.2], fun u hu => ?_⟩
    have ht := (h t).mp (hstage ▸ hguarded.1)
    rw [h u, ht]
    simp [Ne.symm hu]
  | finds hstage => exact h.keep hstage rfl
  | creates hstage => exact h.keep hstage rfl
  | counts hstage => exact h.keep hstage rfl
  | acquires hstage => exact h.keep hstage rfl
  | releases hstage => exact h.keep hstage rfl
  | misses hstage => exact h.keep hstage rfl
  | uncounts hstage => exact h.keep hstage rfl
  | drops hstage => exact h.keep hstage rfl
  | keeps hstage => exact h.keep hstage rfl

end

/-! ## The locks -/

/-- A lock has an owner when a thread is in it, and once. -/
structure AddSystem.Owned (s : AddSystem τ) : Prop where
  entered : ∀ t lock, (s.stage t).entered = some lock ↔ ∃ depth, s.owner lock = some (t, depth)
  once : ∀ lock t depth, s.owner lock = some (t, depth) → depth = 1

section

variable {s s' : AddSystem τ} {t : τ} {old new : AddStage} {lock : Nat}

theorem AddSystem.Owned.keep (h : s.Owned) (hstages : s'.stage = (s.put t new).stage) (hstage : s.stage t = old)
    (hentered : old.entered = none ∧ new.entered = none) (howner : s'.owner = s.owner) : s'.Owned where
  entered := by
    rw [howner, hstages]
    apply (forall_put (p := fun u stage => ∀ lock, stage.entered = some lock ↔ ∃ depth, s.owner lock = some (u, depth))).mpr
    refine ⟨fun lock => ?_, fun u _ => h.entered u⟩
    rw [← h.entered t lock, hstage, hentered.1, hentered.2]
  once := by
    rw [howner]
    exact h.once

/-- A thread that takes a lock finds it free. -/
theorem AddSystem.Owned.acquire (h : s.Owned) (hstage : (s.stage t).entered = none)
    {owner : Nat → Option (τ × Nat)} (hlock : acquireLock s.owner t lock = some owner) :
    s.owner lock = none ∧ owner = Function.update s.owner lock (some (t, 1)) := by
  rw [acquireLock] at hlock
  cases howner : s.owner lock with
  | none =>
    rw [howner] at hlock
    exact ⟨rfl, (Option.some.inj hlock).symm⟩
  | some entry =>
    simp [howner] at hlock
    have hentered := (h.entered t lock).mpr ⟨entry.2, by rw [howner, ← hlock.1]⟩
    rw [hstage] at hentered
    cases hentered

theorem AddSystem.Owned.enter (h : s.Owned) (hstage : (s.stage t).entered = none) (hfree : s.owner lock = none)
    {key : String} :
    AddSystem.Owned { s.put t (.inside key lock) with owner := Function.update s.owner lock (some (t, 1)) } where
  entered := by
    apply (forall_put (p := fun u stage => ∀ other,
      stage.entered = some other ↔ ∃ depth, Function.update s.owner lock (some (t, 1)) other = some (u, depth))).mpr
    constructor
    · intro other
      by_cases hother : other = lock
      · simp [hother, AddStage.entered]
      · rw [Function.update_of_ne hother, ← h.entered t other, hstage]
        simp [AddStage.entered, Ne.symm hother]
    · intro u hu other
      by_cases hother : other = lock
      · simp [hother, h.entered u lock, hfree, Ne.symm hu]
      · rw [Function.update_of_ne hother]
        exact h.entered u other
  once := by
    intro other u depth howner
    by_cases hother : other = lock
    · simp [hother] at howner
      exact howner.2.symm
    · simp [hother] at howner
      exact h.once other u depth howner

/-- Whoever leaves a lock leaves it free. -/
theorem AddSystem.Owned.leave (h : s.Owned) (hstage : (s.stage t).entered = some lock) {new : AddStage}
    (hnew : new.entered = none) : AddSystem.Owned { s.put t new with owner := releaseLock s.owner lock } := by
  obtain ⟨depth, howner⟩ := (h.entered t lock).mp hstage
  have hrelease : releaseLock s.owner lock = Function.update s.owner lock none := by
    simp [releaseLock, howner, h.once lock t depth howner]
  rw [hrelease]
  constructor
  · apply (forall_put (p := fun u stage => ∀ other,
      stage.entered = some other ↔ ∃ depth, Function.update s.owner lock none other = some (u, depth))).mpr
    constructor
    · intro other
      by_cases hother : other = lock
      · simp [hother, hnew]
      · rw [Function.update_of_ne hother, ← h.entered t other, hstage, hnew]
        simp [Ne.symm hother]
    · intro u hu other
      by_cases hother : other = lock
      · simp [hother, h.entered u lock, howner, Ne.symm hu]
      · rw [Function.update_of_ne hother]
        exact h.entered u other
  · intro other u depth' hother
    have hne : other ≠ lock := by
      rintro rfl
      simp at hother
    simp [hne] at hother
    exact h.once other u depth' hother

theorem AddSystem.Moved.owned (hmoved : s.Moved t s') (h : s.Owned) : s'.Owned := by
  cases hmoved with
  | stays hstage _ _ hentered => exact h.keep rfl hstage hentered rfl
  | enters hstage _ _ _ hentered => exact h.keep rfl hstage hentered rfl
  | leaves hstage _ _ hentered => exact h.keep rfl hstage hentered rfl
  | finds hstage => exact h.keep rfl hstage ⟨rfl, rfl⟩ rfl
  | creates hstage => exact h.keep rfl hstage ⟨rfl, rfl⟩ rfl
  | counts hstage => exact h.keep rfl hstage ⟨rfl, rfl⟩ rfl
  | acquires hstage hlock =>
    obtain ⟨hfree, rfl⟩ := h.acquire (by rw [hstage]; rfl) hlock
    exact h.enter (by rw [hstage]; rfl) hfree
  | releases hstage => exact h.leave (by rw [hstage]; rfl) rfl
  | misses hstage => exact h.keep rfl hstage ⟨rfl, rfl⟩ rfl
  | uncounts hstage => exact h.keep rfl hstage ⟨rfl, rfl⟩ rfl
  | drops hstage => exact h.keep rfl hstage ⟨rfl, rfl⟩ rfl
  | keeps hstage => exact h.keep rfl hstage ⟨rfl, rfl⟩ rfl

end

/-! ## The leases -/

/-- The leases that are out are those of the threads, and all of them were handed out. -/
structure AddSystem.Leased (s : AddSystem τ) : Prop where
  out : ∀ t key lock, ⟨t, key, lock⟩ ∈ s.leases ↔ (s.stage t).lease = some (key, lock)
  nodup : s.leases.Nodup
  given : ∀ use ∈ s.leases, use ∈ s.handed

section

variable {s s' : AddSystem τ} {t : τ} {old new : AddStage} {key : String} {lock : Nat}

theorem AddSystem.Leased.keep (h : s.Leased) (hstages : s'.stage = (s.put t new).stage) (hstage : s.stage t = old)
    (hlease : old.lease = new.lease) (hleases : s'.leases = s.leases) (hhanded : s'.handed = s.handed) :
    s'.Leased where
  out := by
    rw [hleases, hstages]
    apply (forall_put (p := fun u stage => ∀ key lock, ⟨u, key, lock⟩ ∈ s.leases ↔ stage.lease = some (key, lock))).mpr
    rw [← hlease, ← hstage]
    exact ⟨h.out t, fun u _ => h.out u⟩
  nodup := by
    rw [hleases]
    exact h.nodup
  given := by
    rw [hleases, hhanded]
    exact h.given

theorem AddSystem.Leased.take (h : s.Leased) (hstages : s'.stage = (s.put t new).stage)
    (hstage : (s.stage t).lease = none) (hnew : new.lease = some (key, lock))
    (hleases : s'.leases = ⟨t, key, lock⟩ :: s.leases) (hhanded : s'.handed = ⟨t, key, lock⟩ :: s.handed) :
    s'.Leased where
  out := by
    have hnone (key' : String) (lock' : Nat) : (⟨t, key', lock'⟩ : Use τ String Nat) ∉ s.leases := by
      simp [h.out, hstage]
    rw [hleases, hstages]
    apply (forall_put (p := fun u stage => ∀ key' lock',
      ⟨u, key', lock'⟩ ∈ (⟨t, key, lock⟩ : Use τ String Nat) :: s.leases ↔ stage.lease = some (key', lock'))).mpr
    constructor
    · intro key' lock'
      simp [hnone, hnew, eq_comm]
    · intro u hu key' lock'
      simp [hu, h.out]
  nodup := by
    rw [hleases]
    exact List.nodup_cons.mpr ⟨by simp [h.out, hstage], h.nodup⟩
  given := by
    rw [hleases, hhanded]
    intro use huse
    rcases List.mem_cons.mp huse with rfl | huse
    · exact List.mem_cons_self
    · exact List.mem_cons_of_mem _ (h.given use huse)

theorem AddSystem.Leased.giveBack (h : s.Leased) (hstages : s'.stage = (s.put t new).stage)
    (hstage : (s.stage t).lease = some (key, lock)) (hnew : new.lease = none)
    (hleases : s'.leases = s.leases.erase ⟨t, key, lock⟩) (hhanded : s'.handed = s.handed) : s'.Leased where
  out := by
    rw [hleases, hstages]
    apply (forall_put (p := fun u stage => ∀ key' lock',
      ⟨u, key', lock'⟩ ∈ s.leases.erase ⟨t, key, lock⟩ ↔ stage.lease = some (key', lock'))).mpr
    constructor
    · intro key' lock'
      rw [h.nodup.mem_erase_iff, h.out, hstage, hnew]
      simp
      intro hne hkey hlock
      exact hne hkey.symm hlock.symm
    · intro u hu key' lock'
      rw [h.nodup.mem_erase_iff, h.out]
      simp [hu]
  nodup := by
    rw [hleases]
    exact h.nodup.erase _
  given := by
    rw [hleases, hhanded]
    exact fun use huse => h.given use (List.mem_of_mem_erase huse)

theorem AddSystem.Moved.leased (hmoved : s.Moved t s') (h : s.Leased) : s'.Leased := by
  cases hmoved with
  | stays hstage _ hlease => exact h.keep rfl hstage hlease rfl rfl
  | enters hstage _ _ hlease => exact h.keep rfl hstage hlease rfl rfl
  | leaves hstage _ hlease => exact h.keep rfl hstage hlease rfl rfl
  | finds hstage => exact h.keep rfl hstage rfl rfl rfl
  | creates hstage => exact h.keep rfl hstage rfl rfl rfl
  | counts hstage => exact h.take rfl (by rw [hstage]; rfl) rfl rfl rfl
  | acquires hstage => exact h.keep rfl hstage rfl rfl rfl
  | releases hstage => exact h.keep rfl hstage rfl rfl rfl
  | misses hstage => exact h.giveBack rfl (by rw [hstage]; rfl) rfl rfl rfl
  | uncounts hstage => exact h.giveBack rfl (by rw [hstage]; rfl) rfl rfl rfl
  | drops hstage => exact h.keep rfl hstage rfl rfl rfl
  | keeps hstage => exact h.keep rfl hstage rfl rfl rfl

end

/-! ## The entries -/

/-- The entries count the leases, and every lock is one of the key it was made for. -/
structure AddSystem.Counted (s : AddSystem τ) : Prop where
  tracks : Tracks s.loose s.entries s.leases
  fits : ∀ t, (s.stage t).Fits s.entries
  homes : ∀ key lock n, s.entries key = some (lock, n) → s.made[lock]? = some key
  handed : ∀ use ∈ s.handed, s.made[use.object]? = some use.key

section

variable {s s' : AddSystem τ} {t : τ} {old new : AddStage} {key : String} {lock n : Nat}

theorem AddStage.fits_of_unguarded {stage : AddStage} {entries : String → Option (Nat × Nat)}
    (h : stage.guarded = false) : stage.Fits entries := by
  cases stage with
  | creating key => cases h
  | counting key lock => cases h
  | dropping key lock => cases h
  | _ => trivial

omit [DecidableEq τ] in
theorem AddSystem.loose_of_holder (hguard : s.guard = some t) (hstage : s.stage t = old) : s.loose = old.loose := by
  rw [loose, hguard, Option.bind_some, hstage]

/-- With the guard, other threads have read nothing that must hold. -/
theorem AddSystem.Guarded.fits (h : s.Guarded) (hguard : s.guard = some t) {entries : String → Option (Nat × Nat)}
    (hnew : new.Fits entries) : ∀ u, ((s.put t new).stage u).Fits entries := by
  apply (forall_put (p := fun _ stage => stage.Fits entries)).mpr
  refine ⟨hnew, fun u hu => AddStage.fits_of_unguarded (Bool.eq_false_iff.mpr fun hguarded => ?_)⟩
  rw [h u, hguard] at hguarded
  exact hu (Option.some.inj hguarded).symm

omit [DecidableEq τ] in
theorem AddSystem.Guarded.holder (h : s.Guarded) (hstage : s.stage t = old) (hold : old.guarded = true) :
    s.guard = some t :=
  (h t).mp (by rw [hstage, hold])

theorem AddSystem.loose_put (hstage : s.stage t = old) (hloose : old.loose = new.loose) :
    (s.put t new).loose = s.loose := by
  rw [loose, loose]
  change (s.guard.bind fun u => (Function.update s.stage t new u).loose) = _
  congr 1
  funext u
  by_cases hu : u = t
  · rw [hu, Function.update_self, hstage, hloose]
  · rw [Function.update_of_ne hu]

/-- The entries stay, and so does the key that may be loose. -/
theorem AddSystem.Counted.keep (h : s.Counted) (hstages : s'.stage = (s.put t new).stage) (hnew : new.Fits s.entries)
    (hloose : s'.loose = s.loose) (hentries : s'.entries = s.entries) (hmade : s'.made = s.made)
    (hleases : s'.leases = s.leases) (hhanded : s'.handed = s.handed) : s'.Counted where
  tracks := by
    rw [hloose, hentries, hleases]
    exact h.tracks
  fits := by
    rw [hstages, hentries]
    exact (forall_put (p := fun _ stage => stage.Fits s.entries)).mpr ⟨hnew, fun u _ => h.fits u⟩
  homes := by
    rw [hentries, hmade]
    exact h.homes
  handed := by
    rw [hhanded, hmade]
    exact h.handed

omit [DecidableEq τ] in
theorem AddSystem.Counted.entry (h : s.Counted) (hleased : s.Leased) (hstage : (s.stage t).lease = some (key, lock)) :
    ∃ n, s.entries key = some (lock, n) :=
  h.tracks.kept ⟨t, key, lock⟩ ((hleased.out t key lock).mpr hstage)

omit [DecidableEq τ] in
theorem AddSystem.Counted.tracks_holder (h : s.Counted) (hguard : s.guard = some t) (hstage : s.stage t = old) :
    Tracks old.loose s.entries s.leases := by
  rw [← loose_of_holder hguard hstage]
  exact h.tracks

omit [DecidableEq τ] in
theorem AddSystem.Counted.fits_at (h : s.Counted) (hstage : s.stage t = old) : old.Fits s.entries := by
  rw [← hstage]
  exact h.fits t

/-- What the thread with the guard must see to. -/
theorem AddSystem.Guarded.counted (hguarded : s.Guarded) (hguard : s.guard = some t)
    (hstages : s'.stage = (s.put t new).stage) (hholds : s'.guard = some t)
    (htracks : Tracks new.loose s'.entries s'.leases) (hnew : new.Fits s'.entries)
    (hhomes : ∀ key lock n, s'.entries key = some (lock, n) → s'.made[lock]? = some key)
    (hhanded : ∀ use ∈ s'.handed, s'.made[use.object]? = some use.key) : s'.Counted where
  tracks := by
    have hstage : s'.stage t = new := by
      rw [hstages]
      exact Function.update_self t new s.stage
    rw [loose_of_holder hholds hstage]
    exact htracks
  fits := by
    rw [hstages]
    exact hguarded.fits hguard hnew
  homes := hhomes
  handed := hhanded

theorem homes_update {entries : String → Option (Nat × Nat)} {made : List String}
    (h : ∀ key lock n, entries key = some (lock, n) → made[lock]? = some key) (hlock : made[lock]? = some key) (n : Nat) :
    ∀ key' lock' n', Function.update entries key (some (lock, n)) key' = some (lock', n') →
      made[lock']? = some key' := by
  intro key' lock' n' hentry
  by_cases hkey : key' = key
  · subst hkey
    simp at hentry
    rw [← hentry.1]
    exact hlock
  · rw [Function.update_of_ne hkey] at hentry
    exact h key' lock' n' hentry

theorem home_append {made more : List String} (h : made[lock]? = some key) : (made ++ more)[lock]? = some key := by
  obtain ⟨hlt, -⟩ := List.getElem?_eq_some_iff.mp h
  rw [List.getElem?_append_left hlt, h]

theorem AddSystem.Moved.counted (hmoved : s.Moved t s') (hguarded : s.Guarded) (hleased : s.Leased) (h : s.Counted) :
    s'.Counted := by
  cases hmoved with
  | stays hstage _ _ _ hloose hfits =>
    exact h.keep rfl hfits (loose_put hstage (hloose.1.trans hloose.2.symm)) rfl rfl rfl rfl
  | @enters _ new hstage hfree _ _ _ hloose hfits =>
    refine h.keep rfl hfits ?_ rfl rfl rfl rfl
    rw [loose, loose, hfree]
    change (Function.update s.stage t new t).loose = none
    rw [Function.update_self, hloose]
  | leaves hstage hguard _ _ hloose =>
    refine h.keep rfl (AddStage.fits_of_unguarded hguard.2) ?_ rfl rfl rfl rfl
    rw [loose_of_holder (hguarded.holder hstage hguard.1) hstage, hloose]
    rfl
  | @finds key lock n hstage hentry =>
    have hguard := hguarded.holder hstage rfl
    have htracks : Tracks none s.entries s.leases := h.tracks_holder hguard hstage
    exact hguarded.counted hguard rfl hguard htracks.loosen ⟨n, hentry⟩ h.homes h.handed
  | @creates key hstage =>
    have hguard := hguarded.holder hstage rfl
    have hnone : s.entries key = none := h.fits_at hstage
    have htracks : Tracks none s.entries s.leases := h.tracks_holder hguard hstage
    have hhomes (key' : String) (lock n : Nat) (hentry : s.entries key' = some (lock, n)) :
        (s.made ++ [key])[lock]? = some key' := home_append (h.homes key' lock n hentry)
    exact hguarded.counted hguard rfl hguard (htracks.create hnone s.made.length) ⟨0, Function.update_self _ _ _⟩
      (homes_update hhomes (by simp) 0) fun use huse => home_append (h.handed use huse)
  | @counts key lock hstage =>
    have hguard := hguarded.holder hstage rfl
    obtain ⟨n, hentry⟩ : ∃ n, s.entries key = some (lock, n) := h.fits_at hstage
    have htracks : Tracks (some key) s.entries s.leases := h.tracks_holder hguard hstage
    have hhome := h.homes key lock n hentry
    simp only [hentry, Option.map_some]
    refine hguarded.counted hguard rfl hguard (htracks.begin hentry t) trivial (homes_update h.homes hhome (n + 1)) ?_
    intro use huse
    rcases List.mem_cons.mp huse with rfl | huse
    · exact hhome
    · exact h.handed use huse
  | acquires hstage => exact h.keep rfl trivial (loose_put hstage rfl) rfl rfl rfl rfl
  | releases hstage => exact h.keep rfl trivial (loose_put hstage rfl) rfl rfl rfl rfl
  | misses hstage hentry =>
    obtain ⟨n, hn⟩ := h.entry hleased (by rw [hstage]; rfl)
    rw [hn] at hentry
    exact absurd rfl hentry
  | @uncounts key lock hstage =>
    have hguard := hguarded.holder hstage rfl
    have hlease : (s.stage t).lease = some (key, lock) := by rw [hstage]; rfl
    obtain ⟨n, hentry⟩ := h.entry hleased hlease
    have htracks : Tracks none s.entries s.leases := h.tracks_holder hguard hstage
    simp only [hentry, Option.map_some]
    exact hguarded.counted hguard rfl hguard (htracks.finish ((hleased.out t key lock).mpr hlease) hentry)
      ⟨n - 1, Function.update_self _ _ _⟩ (homes_update h.homes (h.homes key lock n hentry) (n - 1)) h.handed
  | @drops key lock hstage hzero =>
    have hguard := hguarded.holder hstage rfl
    have htracks : Tracks (some key) s.entries s.leases := h.tracks_holder hguard hstage
    obtain ⟨⟨lock', n⟩, hentry, rfl⟩ := Option.map_eq_some_iff.mp hzero
    refine hguarded.counted hguard rfl hguard (htracks.remove hentry) trivial ?_ h.handed
    intro key' lock' m hentry'
    by_cases hkey : key' = key
    · simp [hkey] at hentry'
    · simp [hkey] at hentry'
      exact h.homes key' lock' m hentry'
  | @keeps key lock hstage hzero =>
    have hguard := hguarded.holder hstage rfl
    obtain ⟨n, hentry⟩ : ∃ n, s.entries key = some (lock, n) := h.fits_at hstage
    have htracks : Tracks (some key) s.entries s.leases := h.tracks_holder hguard hstage
    have hpos : n ≠ 0 := by simpa [hentry] using hzero
    exact hguarded.counted hguard rfl hguard (htracks.settle hentry hpos) trivial h.homes h.handed

end

/-! ## Every run -/

structure AddSystem.Sound (s : AddSystem τ) : Prop where
  guarded : s.Guarded
  owned : s.Owned
  leased : s.Leased
  counted : s.Counted

/-- What the pool promises. -/
structure AddSystem.Exclusive (s : AddSystem τ) : Prop where
  given : ∀ use ∈ s.leases, use ∈ s.handed
  oneLock : ∀ use ∈ s.leases, ∀ use' ∈ s.leases, use.key = use'.key → use.object = use'.object
  oneKey : ∀ use ∈ s.handed, ∀ use' ∈ s.handed, use.object = use'.object → use.key = use'.key
  entry : ∀ use ∈ s.leases, (s.entries use.key).map Prod.fst = some use.object
  /-- Between two stays in the guard. -/
  present : s.guard = none → ∀ key, (s.entries key).isSome = true ↔ ∃ use ∈ s.leases, use.key = key
  apart : ∀ t t' filters filters', buildSessionScope filters = buildSessionScope filters' →
    s.Inside t filters → s.Inside t' filters' → t = t'

section

variable {s s' : AddSystem τ}

omit [DecidableEq τ] in
theorem AddSystem.start_sound : (AddSystem.start : AddSystem τ).Sound where
  guarded := by simp [Guarded, start, AddStage.guarded]
  owned := ⟨by simp [start, AddStage.entered], by simp [start]⟩
  leased := ⟨by simp [start, AddStage.lease], List.nodup_nil, by simp [start]⟩
  counted := ⟨Tracks.empty, fun _ => trivial, by simp [start], by simp [start]⟩

theorem AddSystem.step_sound {e : τ × AddEvent} (h : s.Sound) (hstep : s.step e = some s') : s'.Sound := by
  have hmoved : s.Moved e.1 s' := step_moved hstep
  exact ⟨hmoved.guarded h.guarded, hmoved.owned h.owned, hmoved.leased h.leased,
    hmoved.counted h.guarded h.leased h.counted⟩

omit [DecidableEq τ] in
theorem AddSystem.Sound.inside_eq (h : s.Sound) {t t' : τ} {key : String} {lock lock' : Nat}
    (ht : s.stage t = .inside key lock) (ht' : s.stage t' = .inside key lock') : t = t' := by
  have hmem : (⟨t, key, lock⟩ : Use τ String Nat) ∈ s.leases := (h.leased.out t key lock).mpr (by rw [ht]; rfl)
  have hmem' : (⟨t', key, lock'⟩ : Use τ String Nat) ∈ s.leases := (h.leased.out t' key lock').mpr (by rw [ht']; rfl)
  obtain rfl : lock = lock' := h.counted.tracks.object_eq hmem hmem' rfl
  obtain ⟨depth, howner⟩ := (h.owned.entered t lock).mp (by rw [ht]; rfl)
  obtain ⟨depth', howner'⟩ := (h.owned.entered t' lock).mp (by rw [ht']; rfl)
  rw [howner] at howner'
  simp at howner'
  exact howner'.1

omit [DecidableEq τ] in
theorem AddSystem.Sound.exclusive (h : s.Sound) : s.Exclusive where
  given := h.leased.given
  oneLock := fun _ huse _ huse' hkey => h.counted.tracks.object_eq huse huse' hkey
  oneKey := by
    intro use huse use' huse' hobject
    have hhome := h.counted.handed use huse
    rw [hobject, h.counted.handed use' huse'] at hhome
    exact (Option.some.inj hhome).symm
  entry := by
    intro use huse
    obtain ⟨n, hentry⟩ := h.counted.tracks.kept use huse
    rw [hentry]
    rfl
  present := by
    intro hguard key
    have htracks := h.counted.tracks
    rw [loose, hguard, Option.bind_none] at htracks
    exact htracks.present_iff
  apart := by
    rintro t t' filters filters' hscope ⟨lock, ht⟩ ⟨lock', ht'⟩
    exact h.inside_eq (hscope ▸ ht) ht'

end

/-- However the threads take turns, the leases of a key share one lock that no other key gets, the entry of a key is there
as long as a lease of it is out, and adds of one session scope are in the guarded section one at a time. -/
theorem leases_exclude (events : List (τ × AddEvent)) (s : AddSystem τ)
    (hrun : runFrom AddSystem.step .start events = some s) : s.Exclusive := by
  have hsound : s.Sound := runFrom_invariant (fun _ _ _ hs hstep => AddSystem.step_sound hs hstep) AddSystem.start_sound hrun
  exact hsound.exclusive

/-- The second add waits for the lock of the first one. -/
def twoAdds : List (Bool × AddEvent) :=
  (true, .add [("user_id", "ann")]) :: List.replicate 6 (true, .advance) ++
    (false, .add [("user_id", "ann")]) :: List.replicate 4 (false, .advance)

theorem two_adds_exclude : ∃ s, runFrom AddSystem.step .start twoAdds = some s ∧ s.Exclusive := by
  have hrun : (runFrom AddSystem.step .start twoAdds).isSome = true := by with_unfolding_all rfl
  obtain ⟨s, hs⟩ := Option.isSome_iff_exists.mp hrun
  exact ⟨s, hs, leases_exclude twoAdds s hs⟩

end YiQiao
