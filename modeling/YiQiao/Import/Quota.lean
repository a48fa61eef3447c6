import Mathlib.Algebra.Order.BigOperators.Group.List
import Mathlib.Algebra.Order.Ring.Nat
import Mathlib.Data.List.Sort
import Mathlib.Data.Prod.Lex
import Mathlib.Data.Set.Function
import Mathlib.Data.String.Basic
import YiQiao.Lib.LockOrder

/-!
# The storage quota guard

A writer of memories calls the guard before it writes and releases it afterwards. The guard takes the locks of all
scopes that a hard policy of the writer has, in one order for all writers, and counts under them; the writer keeps them
until its memories are written.
-/

namespace YiQiao

open Lib

/-! ## Policies -/

inductive ScopeType where
  | organization
  | project
  deriving DecidableEq, Repr

def ScopeType.text : ScopeType → String
  | .organization => "organization"
  | .project => "project"

/-- A hard policy on stored memories, as a snapshot has it. -/
structure HardPolicy where
  id : String
  scopeType : ScopeType
  scopeId : String
  limitValue : Nat
  deriving DecidableEq, Repr

def HardPolicy.resource (policy : HardPolicy) : String :=
  "stored-memory:" ++ policy.scopeType.text ++ ":" ++ policy.scopeId

/-- The projects whose memories a policy counts: `organization_project_ids` names those of an organization. -/
def HardPolicy.projects (members : String → List String) (policy : HardPolicy) : List String :=
  match policy.scopeType with
  | .project => [policy.scopeId]
  | .organization => ((members policy.scopeId).filter (· ≠ "")).dedup

def HardPolicy.used (members : String → List String) (counts : String → Nat) (policy : HardPolicy) : Nat :=
  ((policy.projects members).map counts).sum

/-- The first policy that the selected memories do not fit under. -/
def exceededPolicy (members : String → List String) (counts : String → Nat) (policies : List HardPolicy)
    (selectedNew : Nat) : Option HardPolicy :=
  policies.find? fun policy => policy.limitValue < policy.used members counts + selectedNew

/-! ## Locks -/

inductive Dialect where
  | sqlite
  | postgresql
  deriving DecidableEq

/-- The database, with the hash of its advisory locks, and the projects of each organization. -/
structure Deployment where
  dialect : Dialect
  hashtext : String → Int
  members : String → List String

inductive QuotaLock where
  /-- `_scope_lock` in a process. -/
  | scope (process resource : String)
  /-- `BEGIN IMMEDIATE`. -/
  | database
  /-- `pg_advisory_xact_lock`. -/
  | advisory (key : Int)
  /-- A policy's row, selected for update. -/
  | policy (id : String)
  deriving DecidableEq

def sortedSet (texts : List String) : List String := texts.dedup.insertionSort (· ≤ ·)

def scopeResources (policies : List HardPolicy) : List String := sortedSet (policies.map HardPolicy.resource)

def Deployment.advisoryLock (d : Deployment) (resource : String) : QuotaLock := .advisory (d.hashtext ("mem0:" ++ resource))

/-- The locks of the database that a call of the guard takes before it selects the policies. -/
def Deployment.databaseLocks (d : Deployment) (policies : List HardPolicy) : List QuotaLock :=
  match d.dialect with
  | .sqlite => [.database]
  | .postgresql => (scopeResources policies).map d.advisoryLock

/-- The locks that a call of the guard takes. -/
def Deployment.guardLocks (d : Deployment) (process : String) (policies : List HardPolicy) : List QuotaLock :=
  if policies = [] then []
  else (scopeResources policies).map (QuotaLock.scope process) ++
    (d.databaseLocks policies ++ (sortedSet (policies.map HardPolicy.id)).map QuotaLock.policy)

/-! ## Writers -/

inductive GuardPhase where
  | acquiring (left : List QuotaLock)
  /-- The guard counts the memories of one project after the other. -/
  | counting (left : List String) (counted : List (String × Nat))
  /-- The guard let the writer pass, which still writes some of the memories that it has selected. -/
  | writing (left : Nat)
  | releasing

/-- A call of the guard and the writing it is for. -/
structure QuotaWriter where
  process : String
  project : String
  policies : List HardPolicy
  selectedNew : Nat
  held : List QuotaLock
  phase : GuardPhase

structure QuotaState where
  counts : String → Nat
  writers : List QuotaWriter

def QuotaState.start (counts : String → Nat) : QuotaState := ⟨counts, []⟩

def QuotaState.put (s : QuotaState) (who : Nat) (writer : QuotaWriter) : QuotaState :=
  { s with writers := s.writers.set who writer }

/-- Another writer holds the lock. -/
def QuotaState.taken (s : QuotaState) (who : Nat) (lock : QuotaLock) : Bool :=
  s.writers.zipIdx.any fun (writer, i) => i ≠ who ∧ lock ∈ writer.held

/-- `project_counts`. -/
def projectCount (counted : List (String × Nat)) (project : String) : Nat := (counted.lookup project).getD 0

/-- What the writer does next; a writer that has to wait stays as it is. -/
def QuotaState.advance (d : Deployment) (s : QuotaState) (who : Nat) (writer : QuotaWriter) : QuotaState :=
  match writer.phase with
  | .acquiring (lock :: left) =>
      if s.taken who lock then s else s.put who { writer with held := writer.held ++ [lock], phase := .acquiring left }
  | .acquiring [] =>
      s.put who { writer with phase := .counting (writer.policies.flatMap (HardPolicy.projects d.members)).dedup [] }
  | .counting (project :: left) counted =>
      s.put who { writer with phase := .counting left ((project, s.counts project) :: counted) }
  | .counting [] counted =>
      match exceededPolicy d.members (projectCount counted) writer.policies writer.selectedNew with
      | some _ => s.put who { writer with phase := .releasing }
      | none => s.put who { writer with phase := .writing writer.selectedNew }
  | .writing (left + 1) =>
      { s.put who { writer with phase := .writing left } with
        counts := Function.update s.counts writer.project (s.counts writer.project + 1) }
  | .writing 0 => s
  | .releasing => s.put who { writer with held := writer.held.dropLast }

inductive QuotaEvent where
  | call (process project : String) (policies : List HardPolicy) (selectedNew : Nat)
  | advance (who : Nat)
  /-- The writer is done, or an error occurs in the guard or in the writer: the guard is released on the way out. -/
  | leave (who : Nat)
  /-- Somebody deletes a memory. -/
  | delete (project : String)
  deriving DecidableEq

def QuotaState.next (d : Deployment) (s : QuotaState) : QuotaEvent → QuotaState
  | .call process project policies selectedNew =>
      { s with writers := s.writers ++
        [⟨process, project, policies, selectedNew, [], .acquiring (d.guardLocks process policies)⟩] }
  | .advance who =>
      match s.writers[who]? with
      | some writer => s.advance d who writer
      | none => s
  | .leave who =>
      match s.writers[who]? with
      | some writer => s.put who { writer with phase := .releasing }
      | none => s
  | .delete project => { s with counts := Function.update s.counts project (s.counts project - 1) }

def QuotaState.run (d : Deployment) (s : QuotaState) (events : List QuotaEvent) : QuotaState :=
  events.foldl (QuotaState.next d) s

/-! ## Locks of a plan -/

section
variable {d : Deployment}

theorem mem_sortedSet {texts : List String} {text : String} : text ∈ sortedSet texts ↔ text ∈ texts := by
  simp [sortedSet]

theorem sortedSet_lt (texts : List String) : (sortedSet texts).Pairwise (· < ·) := by
  have hle : (sortedSet texts).Pairwise (· ≤ ·) := List.pairwise_insertionSort _ _
  have hnodup : (sortedSet texts).Nodup := (List.perm_insertionSort _ _).nodup_iff.mpr (List.nodup_dedup _)
  exact (hle.and hnodup).imp fun ⟨hle, hne⟩ => lt_of_le_of_ne hle hne

/-- The lock that two writers with one policy share. -/
def Deployment.shareLock (d : Deployment) (policy : HardPolicy) : QuotaLock :=
  match d.dialect with
  | .sqlite => .database
  | .postgresql => d.advisoryLock policy.resource

theorem shareLock_mem {process : String} {policies : List HardPolicy} {policy : HardPolicy} (h : policy ∈ policies) :
    d.shareLock policy ∈ d.guardLocks process policies := by
  have hne : policies ≠ [] := List.ne_nil_of_mem h
  have hdatabase : d.shareLock policy ∈ d.databaseLocks policies := by
    unfold Deployment.shareLock Deployment.databaseLocks
    cases d.dialect with
    | sqlite => exact List.mem_singleton_self _
    | postgresql => exact List.mem_map_of_mem (mem_sortedSet.mpr (List.mem_map_of_mem h))
  rw [Deployment.guardLocks, if_neg hne]
  exact List.mem_append_right _ (List.mem_append_left _ hdatabase)

/-- The place of a lock in the order that all calls take their locks in, when the hash is read back by `name`. -/
def QuotaLock.rank (name : Int → String) : QuotaLock → Nat ×ₗ String
  | .scope _ resource => toLex (0, resource)
  | .database => toLex (1, "")
  | .advisory key => toLex (1, name key)
  | .policy id => toLex (2, id)

theorem rank_lt {a b : Nat} {x y : String} (h : a < b ∨ a = b ∧ x < y) : toLex (a, x) < toLex (b, y) :=
  Prod.Lex.toLex_lt_toLex.mpr h

theorem rank_database (name : Int → String) {policies : List HardPolicy} {lock : QuotaLock}
    (h : lock ∈ d.databaseLocks policies) : ∃ place, lock.rank name = toLex (1, place) := by
  unfold Deployment.databaseLocks at h
  cases hdialect : d.dialect with
  | sqlite =>
      simp only [hdialect, List.mem_singleton] at h
      exact ⟨"", h ▸ rfl⟩
  | postgresql =>
      simp only [hdialect] at h
      obtain ⟨resource, -, rfl⟩ := List.mem_map.mp h
      exact ⟨_, rfl⟩

theorem guardLocks_ranked {name : Int → String} (process : String) {policies : List HardPolicy}
    (hname : ∀ policy ∈ policies, name (d.hashtext ("mem0:" ++ policy.resource)) = policy.resource) :
    (d.guardLocks process policies).Pairwise fun a b => a.rank name < b.rank name := by
  unfold Deployment.guardLocks
  split
  · exact List.Pairwise.nil
  have hresources : ∀ resource ∈ scopeResources policies, name (d.hashtext ("mem0:" ++ resource)) = resource := by
    intro resource hresource
    obtain ⟨policy, hpolicy, rfl⟩ := List.mem_map.mp (mem_sortedSet.mp hresource)
    exact hname policy hpolicy
  refine List.pairwise_append.mpr ⟨?scopes, List.pairwise_append.mpr ⟨?database, ?rows, ?below⟩, ?first⟩
  case scopes =>
    exact List.pairwise_map.mpr ((sortedSet_lt _).imp fun h => rank_lt (.inr ⟨rfl, h⟩))
  case database =>
    unfold Deployment.databaseLocks
    cases d.dialect with
    | sqlite => exact List.pairwise_singleton _ _
    | postgresql =>
        refine List.pairwise_map.mpr ((sortedSet_lt _).imp_of_mem fun hx hy h => rank_lt (.inr ⟨rfl, ?_⟩))
        rwa [hresources _ hx, hresources _ hy]
  case rows =>
    exact List.pairwise_map.mpr ((sortedSet_lt _).imp fun h => rank_lt (.inr ⟨rfl, h⟩))
  case below =>
    intro a ha b hb
    obtain ⟨place, hplace⟩ := rank_database name ha
    obtain ⟨id, -, rfl⟩ := List.mem_map.mp hb
    exact hplace ▸ rank_lt (.inl (by decide))
  case first =>
    intro a ha b hb
    obtain ⟨resource, -, rfl⟩ := List.mem_map.mp ha
    cases List.mem_append.mp hb with
    | inl hb =>
        obtain ⟨place, hplace⟩ := rank_database name hb
        exact hplace ▸ rank_lt (.inl (by decide))
    | inr hb =>
        obtain ⟨id, -, rfl⟩ := List.mem_map.mp hb
        exact rank_lt (.inl (by decide))

end

/-! ## Who holds what -/

section
variable {d : Deployment}

/-- A writer has taken its locks up to where it waits, and keeps them all while it counts and writes. -/
def QuotaWriter.Planned (d : Deployment) (writer : QuotaWriter) : Prop :=
  match writer.phase with
  | .acquiring left => writer.held ++ left = d.guardLocks writer.process writer.policies
  | .counting _ _ | .writing _ => writer.held = d.guardLocks writer.process writer.policies
  | .releasing => True

/-- Every writer takes its locks as planned, and no two hold one lock. -/
structure QuotaState.Locked (d : Deployment) (s : QuotaState) : Prop where
  planned : ∀ writer ∈ s.writers, writer.Planned d
  exclusive : ∀ {i j : Nat} {writer other : QuotaWriter} {lock : QuotaLock}, s.writers[i]? = some writer →
    s.writers[j]? = some other → lock ∈ writer.held → lock ∈ other.held → i = j

theorem mem_putWriter {s : QuotaState} {who : Nat} {writer other : QuotaWriter} (h : other ∈ (s.put who writer).writers) :
    other ∈ s.writers ∨ other = writer :=
  List.mem_or_eq_of_mem_set h

theorem put_getElem? {s : QuotaState} {who i : Nat} {old writer other : QuotaWriter} (hwho : s.writers[who]? = some old)
    (h : (s.put who writer).writers[i]? = some other) :
    i = who ∧ other = writer ∨ i ≠ who ∧ s.writers[i]? = some other := by
  rw [QuotaState.put, List.getElem?_set] at h
  split at h
  · next hi =>
    rw [if_pos (List.getElem?_eq_some_iff.mp hwho).1] at h
    exact .inl ⟨hi.symm, (Option.some.inj h).symm⟩
  · next hi => exact .inr ⟨fun h => hi h.symm, h⟩

theorem not_taken {s : QuotaState} {who : Nat} {lock : QuotaLock} (h : s.taken who lock = false) {i : Nat}
    {writer : QuotaWriter} (hi : s.writers[i]? = some writer) (hheld : lock ∈ writer.held) : who = i := by
  by_contra hne
  have hmem : (writer, i) ∈ s.writers.zipIdx := List.mem_zipIdx_iff_getElem?.mpr hi
  have hnot := List.any_eq_false.mp h (writer, i) hmem
  simp [hheld] at hnot
  exact hne hnot.symm

theorem QuotaState.Locked.put {s : QuotaState} {who : Nat} {old writer : QuotaWriter} (h : s.Locked d)
    (hwho : s.writers[who]? = some old) (hplanned : writer.Planned d)
    (hheld : ∀ lock ∈ writer.held, lock ∈ old.held ∨ s.taken who lock = false) : (s.put who writer).Locked d where
  planned := by
    intro other hother
    cases mem_putWriter hother with
    | inl hother => exact h.planned other hother
    | inr heq => exact heq ▸ hplanned
  exclusive := by
    -- a lock of the changed writer was its own before, or free
    have hmine : ∀ {i : Nat} {other : QuotaWriter} {lock : QuotaLock}, s.writers[i]? = some other →
        lock ∈ writer.held → lock ∈ other.held → who = i := by
      intro i other lock hi hlock hother
      cases hheld lock hlock with
      | inl hold => exact h.exclusive hwho hi hold hother
      | inr hfree => exact not_taken hfree hi hother
    intro i j first second lock hi hj hfirst hsecond
    rcases put_getElem? hwho hi with ⟨rfl, rfl⟩ | ⟨-, hi'⟩ <;> rcases put_getElem? hwho hj with ⟨rfl, rfl⟩ | ⟨-, hj'⟩
    · rfl
    · exact hmine hj' hfirst hsecond
    · exact (hmine hi' hsecond hfirst).symm
    · exact h.exclusive hi' hj' hfirst hsecond

theorem QuotaState.Locked.counts {s : QuotaState} (h : s.Locked d) (counts : String → Nat) :
    { s with counts }.Locked d :=
  ⟨h.planned, h.exclusive⟩

theorem QuotaState.Locked.advance {s : QuotaState} (h : s.Locked d) {who : Nat} {writer : QuotaWriter}
    (hwho : s.writers[who]? = some writer) : (s.advance d who writer).Locked d := by
  have hplanned := h.planned writer (List.mem_of_getElem? hwho)
  have hsame : ∀ lock ∈ writer.held, lock ∈ writer.held ∨ s.taken who lock = false := fun lock hlock => .inl hlock
  unfold QuotaState.advance
  cases hphase : writer.phase with
  | acquiring left =>
      simp only [QuotaWriter.Planned, hphase] at hplanned
      cases left with
      | nil => exact h.put hwho (by simpa [QuotaWriter.Planned] using hplanned) hsame
      | cons lock left =>
          dsimp only
          split
          · exact h
          next hfree =>
          refine h.put hwho (by simpa [QuotaWriter.Planned] using hplanned) fun other hother => ?_
          cases List.mem_append.mp hother with
          | inl hother => exact .inl hother
          | inr hother => exact .inr (by simpa [List.mem_singleton.mp hother] using hfree)
  | counting left counted =>
      simp only [QuotaWriter.Planned, hphase] at hplanned
      cases left with
      | cons project left =>
          dsimp only
          exact h.put hwho (by simpa [QuotaWriter.Planned] using hplanned) hsame
      | nil =>
          dsimp only
          split
          · exact h.put hwho (by simp [QuotaWriter.Planned]) hsame
          · exact h.put hwho (by simpa [QuotaWriter.Planned] using hplanned) hsame
  | writing left =>
      simp only [QuotaWriter.Planned, hphase] at hplanned
      cases left with
      | zero => exact h
      | succ left =>
          have hput : (s.put who { writer with phase := .writing left }).Locked d :=
            h.put hwho (by simpa [QuotaWriter.Planned] using hplanned) hsame
          exact hput.counts _
  | releasing =>
      refine h.put hwho ?_ fun lock hlock => .inl (List.mem_of_mem_dropLast hlock)
      simp [QuotaWriter.Planned]

theorem QuotaState.Locked.next {s : QuotaState} (h : s.Locked d) (event : QuotaEvent) : (s.next d event).Locked d := by
  unfold QuotaState.next
  cases event with
  | call process project policies selectedNew =>
      constructor
      case planned =>
        intro writer hwriter
        cases List.mem_append.mp hwriter with
        | inl hold => exact h.planned writer hold
        | inr hnew => simp [List.mem_singleton.mp hnew, QuotaWriter.Planned]
      case exclusive =>
        -- the new writer holds nothing
        have hold : ∀ {i : Nat} {writer : QuotaWriter} {lock : QuotaLock},
            (s.writers ++ [⟨process, project, policies, selectedNew, [],
              .acquiring (d.guardLocks process policies)⟩])[i]? = some writer →
            lock ∈ writer.held → s.writers[i]? = some writer := by
          intro i writer lock hi hlock
          rw [List.getElem?_append] at hi
          split at hi
          · exact hi
          · have hnew := List.mem_singleton.mp (List.mem_of_getElem? hi)
            rw [hnew] at hlock
            cases hlock
        intro i j first second lock hi hj hfirst hsecond
        exact h.exclusive (hold hi hfirst) (hold hj hsecond) hfirst hsecond
  | advance who =>
      dsimp only
      split
      · next hwho => exact h.advance hwho
      · exact h
  | leave who =>
      dsimp only
      split
      · next hwho => exact h.put hwho trivial fun lock hlock => .inl hlock
      · exact h
  | delete project => exact h.counts _

theorem start_locked (counts : String → Nat) : (QuotaState.start counts).Locked d := by
  constructor
  · intro writer hwriter
    cases hwriter
  · intro i j writer other lock hi
    simp [QuotaState.start] at hi

theorem QuotaState.Locked.run {s : QuotaState} (h : s.Locked d) (events : List QuotaEvent) : (s.run d events).Locked d := by
  induction events generalizing s with
  | nil => exact h
  | cons event events ih => exact ih (h.next event)

end

/-! ## Counting under the locks -/

section
variable {d : Deployment} {policy : HardPolicy}

theorem projects_nodup (members : String → List String) (policy : HardPolicy) : (policy.projects members).Nodup := by
  unfold HardPolicy.projects
  split
  · exact List.nodup_singleton _
  · exact List.nodup_dedup _

theorem used_mono {members : String → List String} {counts counts' : String → Nat}
    (h : ∀ project ∈ policy.projects members, counts project ≤ counts' project) :
    policy.used members counts ≤ policy.used members counts' :=
  List.sum_le_sum h

/-- The project of a policy that stores one more memory adds one to what the policy counts. -/
theorem used_store (policy : HardPolicy) (members : String → List String) (counts : String → Nat) (project : String) :
    policy.used members (Function.update counts project (counts project + 1)) =
      policy.used members counts + if project ∈ policy.projects members then 1 else 0 := by
  unfold HardPolicy.used
  have hnodup := projects_nodup members policy
  generalize policy.projects members = projects at hnodup ⊢
  induction projects with
  | nil => rfl
  | cons first rest ih =>
      obtain ⟨hfirst, hrest⟩ := List.nodup_cons.mp hnodup
      have ih := ih hrest
      simp only [List.map_cons, List.sum_cons, ih]
      by_cases heq : first = project
      · subst heq
        simp [hfirst]
        omega
      · have hne : ¬ project = first := fun h => heq h.symm
        simp [Function.update_of_ne heq, hne]
        omega

/-- What a writer with the policy knows of the memories that the policy counts. -/
def QuotaWriter.Knows (members : String → List String) (policy : HardPolicy) (counts : String → Nat)
    (writer : QuotaWriter) : Prop :=
  match writer.phase with
  | .counting left counted =>
      ∀ project ∈ policy.projects members, project ∈ left ∨ counts project ≤ projectCount counted project
  | .writing left => policy.used members counts + left ≤ policy.limitValue
  | .acquiring _ | .releasing => True

structure QuotaState.Within (d : Deployment) (policy : HardPolicy) (most : Nat) (s : QuotaState) : Prop where
  locked : s.Locked d
  carried : ∀ writer ∈ s.writers, writer.project ∈ policy.projects d.members → policy ∈ writer.policies
  knows : ∀ writer ∈ s.writers, policy ∈ writer.policies → writer.Knows d.members policy s.counts
  bounded : policy.used d.members s.counts ≤ max policy.limitValue most

/-- A writer that knows something holds the lock of its policy. -/
theorem QuotaWriter.holds {writer : QuotaWriter} (hplanned : writer.Planned d) (hpolicy : policy ∈ writer.policies) :
    (∃ left, writer.phase = .acquiring left) ∨ writer.phase = .releasing ∨ d.shareLock policy ∈ writer.held := by
  unfold QuotaWriter.Planned at hplanned
  cases hphase : writer.phase with
  | acquiring left => exact .inl ⟨left, rfl⟩
  | releasing => exact .inr (.inl rfl)
  | counting left counted =>
      simp only [hphase] at hplanned
      exact .inr (.inr (hplanned ▸ shareLock_mem hpolicy))
  | writing left =>
      simp only [hphase] at hplanned
      exact .inr (.inr (hplanned ▸ shareLock_mem hpolicy))

theorem knows_mono {members : String → List String} {counts counts' : String → Nat} {writer : QuotaWriter}
    (h : writer.Knows members policy counts)
    (hcounts : ∀ project ∈ policy.projects members, counts' project ≤ counts project) :
    writer.Knows members policy counts' := by
  unfold QuotaWriter.Knows at h ⊢
  cases hphase : writer.phase with
  | acquiring left => trivial
  | releasing => trivial
  | counting left counted =>
      simp only [hphase] at h
      intro project hproject
      exact (h project hproject).imp_right fun hle => Nat.le_trans (hcounts project hproject) hle
  | writing left =>
      simp only [hphase] at h
      exact Nat.le_trans (Nat.add_le_add_right (used_mono hcounts) left) h

theorem projectCount_cons {counted : List (String × Nat)} {first project : String} {count : Nat} :
    projectCount ((first, count) :: counted) project = if project = first then count else projectCount counted project := by
  by_cases heq : project = first
  · simp [projectCount, heq]
  · have hne : (project == first) = false := by simpa using heq
    simp [projectCount, List.lookup_cons, hne, heq]

theorem QuotaState.Within.put {most : Nat} {s : QuotaState} {who : Nat} {old writer : QuotaWriter}
    (h : s.Within d policy most) (hwho : s.writers[who]? = some old) (hlocked : (s.put who writer).Locked d)
    (hproject : writer.project = old.project) (hpolicies : writer.policies = old.policies)
    (hknows : policy ∈ writer.policies → writer.Knows d.members policy s.counts) :
    (s.put who writer).Within d policy most where
  locked := hlocked
  carried := by
    intro other hother
    cases mem_putWriter hother with
    | inl hother => exact h.carried other hother
    | inr heq =>
        rw [heq, hproject, hpolicies]
        exact h.carried old (List.mem_of_getElem? hwho)
  knows := by
    intro other hother
    cases mem_putWriter hother with
    | inl hother => exact h.knows other hother
    | inr heq => exact heq ▸ hknows
  bounded := h.bounded

/-- What the guard has counted is all that the policy counts, or more. -/
theorem used_le_counted {members : String → List String} {counts : String → Nat} {counted : List (String × Nat)}
    (h : ∀ project ∈ policy.projects members, project ∈ [] ∨ counts project ≤ projectCount counted project) :
    policy.used members counts ≤ policy.used members (projectCount counted) :=
  used_mono fun project hproject => (h project hproject).resolve_left List.not_mem_nil

theorem exceededPolicy_none {members : String → List String} {counts : String → Nat} {policies : List HardPolicy}
    {selectedNew : Nat} (h : exceededPolicy members counts policies selectedNew = none) (hpolicy : policy ∈ policies) :
    policy.used members counts + selectedNew ≤ policy.limitValue := by
  have hnot := List.find?_eq_none.mp h policy hpolicy
  simpa using hnot

theorem QuotaState.Within.advance {most : Nat} {s : QuotaState} (h : s.Within d policy most) {who : Nat}
    {writer : QuotaWriter} (hwho : s.writers[who]? = some writer) : (s.advance d who writer).Within d policy most := by
  have hlocked := h.locked.advance hwho
  have hwriter := List.mem_of_getElem? hwho
  have hknows := h.knows writer hwriter
  unfold QuotaState.advance at hlocked ⊢
  cases hphase : writer.phase with
  | acquiring left =>
      simp only [hphase] at hlocked ⊢
      cases left with
      | cons lock left =>
          dsimp only at hlocked ⊢
          split at hlocked
          · next hheld => rw [if_pos hheld]; exact h
          · next hfree =>
            rw [if_neg hfree]
            exact h.put hwho hlocked rfl rfl fun _ => trivial
      | nil =>
          refine h.put hwho hlocked rfl rfl fun hpolicy project hproject => .inl ?_
          exact List.mem_dedup.mpr (List.mem_flatMap.mpr ⟨policy, hpolicy, hproject⟩)
  | counting left counted =>
      simp only [QuotaWriter.Knows, hphase] at hknows hlocked ⊢
      cases left with
      | cons first left =>
          refine h.put hwho hlocked rfl rfl fun hpolicy project hproject => ?_
          rw [projectCount_cons]
          split
          · next heq => exact .inr (Nat.le_of_eq (heq ▸ rfl))
          · next hne => exact (hknows hpolicy project hproject).imp_left (List.mem_of_ne_of_mem hne)
      | nil =>
          dsimp only at hlocked ⊢
          split at hlocked
          · exact h.put hwho hlocked rfl rfl fun _ => trivial
          · next hfits =>
            refine h.put hwho hlocked rfl rfl fun hpolicy => ?_
            have hcounted := used_le_counted (hknows hpolicy)
            exact Nat.le_trans (Nat.add_le_add_right hcounted _) (exceededPolicy_none hfits hpolicy)
  | writing left =>
      simp only [QuotaWriter.Knows, hphase] at hknows hlocked ⊢
      cases left with
      | zero => exact h
      | succ left =>
          dsimp only at hlocked ⊢
          have hone := used_store policy d.members s.counts writer.project
          refine ⟨hlocked, ?carried, ?knows, ?bounded⟩
          case carried =>
            intro other hother
            cases mem_putWriter hother with
            | inl hother => exact h.carried other hother
            | inr heq => exact heq ▸ h.carried writer hwriter
          case knows =>
            intro other hother hpolicy
            obtain ⟨j, hj⟩ := List.getElem?_of_mem hother
            rcases put_getElem? hwho hj with ⟨-, rfl⟩ | ⟨hne, hj⟩
            · have hfits := hknows hpolicy
              show policy.used d.members (Function.update s.counts writer.project _) + left ≤ policy.limitValue
              split at hone <;> omega
            have hold := h.knows other (List.mem_of_getElem? hj) hpolicy
            by_cases hproject : writer.project ∈ policy.projects d.members
            · -- the other one cannot count or write under this policy meanwhile
              have hmine : d.shareLock policy ∈ writer.held := by
                have hcarried := h.carried writer hwriter hproject
                simpa [hphase] using QuotaWriter.holds (h.locked.planned writer hwriter) hcarried
              rcases QuotaWriter.holds (h.locked.planned other (List.mem_of_getElem? hj)) hpolicy with ⟨left', hother⟩ | hother | hother
              · simp [QuotaWriter.Knows, hother]
              · simp [QuotaWriter.Knows, hother]
              · exact absurd (h.locked.exclusive hj hwho hother hmine) hne
            · refine knows_mono hold fun project hmem => Nat.le_of_eq (Function.update_of_ne ?_ _ _)
              exact fun heq => hproject (heq ▸ hmem)
          case bounded =>
            have hbounded := h.bounded
            show policy.used d.members (Function.update s.counts writer.project _) ≤ _
            split at hone
            · next hproject =>
              have hfits := hknows (h.carried writer hwriter hproject)
              omega
            · omega
  | releasing =>
      simp only [hphase] at hlocked ⊢
      refine h.put hwho hlocked rfl rfl fun _ => ?_
      simp [QuotaWriter.Knows]

/-- The projects that a policy counts are written to under it. -/
def CarriedBy (members : String → List String) (policy : HardPolicy) (events : List QuotaEvent) : Prop :=
  ∀ process project policies selectedNew, .call process project policies selectedNew ∈ events →
    project ∈ policy.projects members → policy ∈ policies

theorem QuotaState.Within.next {most : Nat} {s : QuotaState} (h : s.Within d policy most) {event : QuotaEvent}
    (hcarried : CarriedBy d.members policy [event]) : (s.next d event).Within d policy most := by
  have hlocked := h.locked.next event
  unfold QuotaState.next at hlocked ⊢
  cases event with
  | call process project policies selectedNew =>
      refine ⟨hlocked, ?carried, ?knows, h.bounded⟩
      case carried =>
        intro writer hwriter
        cases List.mem_append.mp hwriter with
        | inl hold => exact h.carried writer hold
        | inr hnew =>
            rw [List.mem_singleton.mp hnew]
            exact hcarried process project policies selectedNew List.mem_cons_self
      case knows =>
        intro writer hwriter
        cases List.mem_append.mp hwriter with
        | inl hold => exact h.knows writer hold
        | inr hnew =>
            rw [List.mem_singleton.mp hnew]
            exact fun _ => trivial
  | advance who =>
      dsimp only at hlocked ⊢
      split
      · next hwho => exact h.advance hwho
      · exact h
  | leave who =>
      dsimp only at hlocked ⊢
      split at hlocked
      · next hwho => exact h.put hwho hlocked rfl rfl fun _ => trivial
      · exact h
  | delete project =>
      have hless : ∀ other, Function.update s.counts project (s.counts project - 1) other ≤ s.counts other := by
        intro other
        by_cases heq : other = project
        · subst heq
          simp
        · simp [Function.update_of_ne heq]
      refine ⟨hlocked, h.carried, ?knows, ?bounded⟩
      case knows => exact fun writer hwriter hpolicy => knows_mono (h.knows writer hwriter hpolicy) fun other _ => hless other
      case bounded => exact Nat.le_trans (used_mono fun other _ => hless other) h.bounded

theorem QuotaState.Within.run {most : Nat} {s : QuotaState} (h : s.Within d policy most) {events : List QuotaEvent}
    (hcarried : CarriedBy d.members policy events) : (s.run d events).Within d policy most := by
  induction events generalizing s with
  | nil => exact h
  | cons event events ih =>
      have hfirst : CarriedBy d.members policy [event] := fun process project policies selectedNew hevent =>
        hcarried process project policies selectedNew (List.mem_singleton.mp hevent ▸ List.mem_cons_self)
      exact ih (h.next hfirst) fun process project policies selectedNew hevent =>
        hcarried process project policies selectedNew (List.mem_cons_of_mem event hevent)

theorem start_within (counts : String → Nat) :
    (QuotaState.start counts).Within d policy (policy.used d.members counts) where
  locked := start_locked counts
  carried := fun _ hwriter => nomatch hwriter
  knows := fun _ hwriter => nomatch hwriter
  bounded := Nat.le_max_right _ _

end

/-! ## Waiting -/

section
variable {d : Deployment}

def QuotaWriter.wants (writer : QuotaWriter) : Option QuotaLock :=
  match writer.phase with
  | .acquiring (lock :: _) => some lock
  | _ => none

/-- A writer cannot go on before another one releases a lock. -/
def QuotaState.WaitsFor (s : QuotaState) (who other : Nat) : Prop :=
  ∃ writer holder, s.writers[who]? = some writer ∧ s.writers[other]? = some holder ∧
    ∃ lock ∈ writer.wants, lock ∈ holder.held

/-- The scopes whose locks are taken. -/
def scopesOf (events : List QuotaEvent) : List String :=
  events.flatMap fun
    | .call _ _ policies _ => policies.map HardPolicy.resource
    | _ => []

/-- No two scopes get one advisory lock. -/
def Deployment.Separates (d : Deployment) (scopes : List String) : Prop :=
  ∀ first ∈ scopes, ∀ second ∈ scopes,
    d.hashtext ("mem0:" ++ first) = d.hashtext ("mem0:" ++ second) → first = second

instance {scopes : List String} : Decidable (d.Separates scopes) :=
  inferInstanceAs (Decidable (∀ first ∈ scopes, ∀ second ∈ scopes,
    d.hashtext ("mem0:" ++ first) = d.hashtext ("mem0:" ++ second) → first = second))

def Deployment.scopeName (d : Deployment) (scopes : List String) (key : Int) : String :=
  (scopes.find? fun scope => d.hashtext ("mem0:" ++ scope) = key).getD ""

theorem scopeName_hash {scopes : List String} (h : d.Separates scopes) {scope : String} (hscope : scope ∈ scopes) :
    d.scopeName scopes (d.hashtext ("mem0:" ++ scope)) = scope := by
  unfold Deployment.scopeName
  cases hfind : scopes.find? fun other => d.hashtext ("mem0:" ++ other) = d.hashtext ("mem0:" ++ scope) with
  | none => exact absurd (List.find?_eq_none.mp hfind scope hscope) (by simp)
  | some other =>
      have hhash := List.find?_some hfind
      exact h other (List.mem_of_find?_eq_some hfind) scope hscope (by simpa using hhash)

theorem advance_policies {s : QuotaState} {who : Nat} {writer other : QuotaWriter} (hwriter : writer ∈ s.writers)
    (h : other ∈ (s.advance d who writer).writers) : ∃ old ∈ s.writers, old.policies = other.policies := by
  have hput : ∀ {held : List QuotaLock} {phase : GuardPhase}, other ∈ (s.put who { writer with held, phase }).writers →
      ∃ old ∈ s.writers, old.policies = other.policies := by
    intro held phase hother
    cases mem_putWriter hother with
    | inl hother => exact ⟨other, hother, rfl⟩
    | inr heq => exact ⟨writer, hwriter, heq ▸ rfl⟩
  unfold QuotaState.advance at h
  split at h
  · split at h
    · exact ⟨other, h, rfl⟩
    · exact hput h
  · exact hput h
  · exact hput h
  · split at h
    · exact hput h
    · exact hput h
  · exact hput h
  · exact ⟨other, h, rfl⟩
  · exact hput h

theorem run_scopes {s : QuotaState} {events : List QuotaEvent} {scopes : List String}
    (hs : ∀ writer ∈ s.writers, ∀ policy ∈ writer.policies, policy.resource ∈ scopes)
    (hevents : ∀ scope ∈ scopesOf events, scope ∈ scopes) :
    ∀ writer ∈ (s.run d events).writers, ∀ policy ∈ writer.policies, policy.resource ∈ scopes := by
  induction events generalizing s with
  | nil => exact hs
  | cons event events ih =>
      refine ih ?_ fun scope hscope => hevents scope (List.mem_append_right _ hscope)
      intro writer hwriter policy hpolicy
      unfold QuotaState.next at hwriter
      cases event with
      | call process project policies selectedNew =>
          cases List.mem_append.mp hwriter with
          | inl hold => exact hs writer hold policy hpolicy
          | inr hnew =>
              rw [List.mem_singleton.mp hnew] at hpolicy
              exact hevents _ (List.mem_append_left _ (List.mem_map_of_mem hpolicy))
      | advance who =>
          dsimp only at hwriter
          split at hwriter
          · next hwho =>
            obtain ⟨old, hold, heq⟩ := advance_policies (List.mem_of_getElem? hwho) hwriter
            exact hs old hold policy (heq ▸ hpolicy)
          · exact hs writer hwriter policy hpolicy
      | leave who =>
          dsimp only at hwriter
          split at hwriter
          · next old hwho =>
            cases mem_putWriter hwriter with
            | inl hold => exact hs writer hold policy hpolicy
            | inr heq => exact hs old (List.mem_of_getElem? hwho) policy (by rw [heq] at hpolicy; exact hpolicy)
          · exact hs writer hwriter policy hpolicy
      | delete project => exact hs writer hwriter policy hpolicy

theorem wants_ordered {name : Int → String} {writer : QuotaWriter} (hplanned : writer.Planned d)
    (hname : ∀ policy ∈ writer.policies, name (d.hashtext ("mem0:" ++ policy.resource)) = policy.resource) :
    (Claimant.mk writer.held writer.wants).Ordered (QuotaLock.rank name) := by
  intro lock hlock other hother
  have hwants : ∃ left, writer.phase = .acquiring (lock :: left) := by
    unfold QuotaWriter.wants at hlock
    split at hlock
    · next left hphase => exact ⟨left, (Option.some.inj hlock) ▸ hphase⟩
    · cases hlock
  obtain ⟨left, hphase⟩ := hwants
  have hlocks : writer.held ++ lock :: left = d.guardLocks writer.process writer.policies := by
    simpa [QuotaWriter.Planned, hphase] using hplanned
  have hranked := guardLocks_ranked writer.process hname
  rw [← hlocks] at hranked
  exact (List.pairwise_append.mp hranked).2.2 other hother lock List.mem_cons_self

/-- In every set of writers there is one that waits for no other one of it. -/
theorem nobody_waits_in_a_circle {s : QuotaState} {scopes : List String} (hlocked : s.Locked d)
    (hscopes : ∀ writer ∈ s.writers, ∀ policy ∈ writer.policies, policy.resource ∈ scopes) (hseparates : d.Separates scopes)
    {set : Finset Nat} (hset : set.Nonempty) (hwriters : ∀ who ∈ set, who < s.writers.length) :
    ∃ who ∈ set, ∀ other ∈ set, ¬ s.WaitsFor who other := by
  let clients := set.toList.filterMap fun who =>
    s.writers[who]?.map fun writer => Claimant.mk writer.held writer.wants
  have hmem : ∀ {client : Claimant QuotaLock}, client ∈ clients ↔
      ∃ who ∈ set, ∃ writer, s.writers[who]? = some writer ∧ Claimant.mk writer.held writer.wants = client := by
    intro client
    simp [clients, List.mem_filterMap]
  have hne : clients ≠ [] := by
    obtain ⟨who, hwho⟩ := hset
    exact List.ne_nil_of_mem (hmem.mpr ⟨who, hwho, _, List.getElem?_eq_getElem (hwriters who hwho), rfl⟩)
  have hordered : ∀ client ∈ clients, client.Ordered (QuotaLock.rank (d.scopeName scopes)) := by
    intro client hclient
    obtain ⟨who, -, writer, hwriter, rfl⟩ := hmem.mp hclient
    have hwriter := List.mem_of_getElem? hwriter
    exact wants_ordered (hlocked.planned writer hwriter) fun policy hpolicy =>
      scopeName_hash hseparates (hscopes writer hwriter policy hpolicy)
  obtain ⟨client, hclient, hfree⟩ := some_client_goes_on _ hne hordered
  obtain ⟨who, hwho, writer, hwriter, rfl⟩ := hmem.mp hclient
  refine ⟨who, hwho, fun other hother hwaits => ?_⟩
  obtain ⟨writer', holder, hwriter', hholder, lock, hlock, hheld⟩ := hwaits
  cases hwriter.symm.trans hwriter'
  exact hfree lock hlock _ (hmem.mpr ⟨other, hother, holder, hholder, rfl⟩) hheld

/-! ## Release -/

/-- The ways out of the guard: the writer leaves, or does not fit under a policy. -/
def QuotaWriter.Exits (d : Deployment) (writer : QuotaWriter) (who : Nat) (event : QuotaEvent) : Prop :=
  event = .leave who ∨ event = .advance who ∧ ∃ counted, writer.phase = .counting [] counted ∧
    (exceededPolicy d.members (projectCount counted) writer.policies writer.selectedNew).isSome

theorem put_self {s : QuotaState} {who : Nat} {old writer : QuotaWriter} (hwho : s.writers[who]? = some old) :
    (s.put who writer).writers[who]? = some writer :=
  List.getElem?_set_self (List.getElem?_eq_some_iff.mp hwho).1

theorem put_other {s : QuotaState} {who i : Nat} {writer : QuotaWriter} (h : who ≠ i) :
    (s.put who writer).writers[i]? = s.writers[i]? :=
  List.getElem?_set_ne h

theorem next_advance {s : QuotaState} {who : Nat} {writer : QuotaWriter} (hwho : s.writers[who]? = some writer) :
    s.next d (.advance who) = s.advance d who writer := by
  simp only [QuotaState.next, hwho]

theorem next_leave {s : QuotaState} {who : Nat} {writer : QuotaWriter} (hwho : s.writers[who]? = some writer) :
    s.next d (.leave who) = s.put who { writer with phase := .releasing } := by
  simp only [QuotaState.next, hwho]

theorem advance_other {s : QuotaState} {who i : Nat} {writer : QuotaWriter} (h : who ≠ i) :
    (s.advance d who writer).writers[i]? = s.writers[i]? := by
  unfold QuotaState.advance
  split
  · split
    · rfl
    · exact put_other h
  · exact put_other h
  · exact put_other h
  · split
    · exact put_other h
    · exact put_other h
  · exact put_other h
  · rfl
  · exact put_other h

theorem exits_releasing {s : QuotaState} {who : Nat} {writer : QuotaWriter} {event : QuotaEvent}
    (hwho : s.writers[who]? = some writer) (h : writer.Exits d who event) :
    (s.next d event).writers[who]? = some { writer with phase := .releasing } := by
  rcases h with rfl | ⟨rfl, counted, hphase, hexceeded⟩
  · rw [next_leave hwho]
    exact put_self hwho
  · obtain ⟨policy, hpolicy⟩ := Option.isSome_iff_exists.mp hexceeded
    rw [next_advance hwho]
    simp only [QuotaState.advance, hphase, hpolicy]
    exact put_self hwho

/-- A writer that releases its locks gives one of them back in each of its steps. -/
theorem releasing_next {s : QuotaState} {who : Nat} {writer : QuotaWriter} (hwho : s.writers[who]? = some writer)
    (hphase : writer.phase = .releasing) (event : QuotaEvent) :
    (s.next d event).writers[who]? =
      some (if event = .advance who then { writer with held := writer.held.dropLast } else writer) := by
  cases event with
  | call process project policies selectedNew =>
      rw [if_neg (by simp)]
      exact (List.getElem?_append_left (List.getElem?_eq_some_iff.mp hwho).1).trans hwho
  | advance other =>
      by_cases heq : other = who
      · subst heq
        rw [if_pos rfl, next_advance hwho]
        simp only [QuotaState.advance, hphase]
        rw [put_self hwho, ← hphase]
      · rw [if_neg (by simpa using heq)]
        cases hother : s.writers[other]? with
        | none => simpa only [QuotaState.next, hother] using hwho
        | some holder =>
            rw [next_advance hother, advance_other heq]
            exact hwho
  | leave other =>
      rw [if_neg (by simp)]
      by_cases heq : other = who
      · subst heq
        rw [next_leave hwho, put_self hwho, ← hphase]
      · cases hother : s.writers[other]? with
        | none => simpa only [QuotaState.next, hother] using hwho
        | some holder =>
            rw [next_leave hother, put_other heq]
            exact hwho
  | delete project =>
      rw [if_neg (by simp)]
      exact hwho

theorem releasing_run {s : QuotaState} {who : Nat} {writer : QuotaWriter} (hwho : s.writers[who]? = some writer)
    (hphase : writer.phase = .releasing) (events : List QuotaEvent) :
    (s.run d events).writers[who]? =
      some { writer with held := writer.held.take (writer.held.length - events.count (.advance who)) } := by
  induction events generalizing s writer with
  | nil => simpa [QuotaState.run] using hwho
  | cons event events ih =>
      have hnext := releasing_next (d := d) hwho hphase event
      split at hnext
      · next heq =>
        rw [show s.run d (event :: events) = (s.next d event).run d events from rfl, ih hnext hphase, heq, List.count_cons_self]
        simp only [List.dropLast_eq_take, List.take_take, List.length_take]
        congr 3
        omega
      · next hne =>
        rw [show s.run d (event :: events) = (s.next d event).run d events from rfl, ih hnext hphase,
          List.count_cons_of_ne hne]

end

/-! ## The guard -/

/-- Whatever the writers do, and in whatever order: a policy that all writers of its projects carry is not exceeded by
what they write, no writers wait in a circle, and who leaves the guard or does not fit gives all its locks back. -/
theorem quota_guard_holds (d : Deployment) (counts : String → Nat) (events : List QuotaEvent) :
    let s := (QuotaState.start counts).run d events
    (∀ policy : HardPolicy, CarriedBy d.members policy events →
        policy.used d.members s.counts ≤ max policy.limitValue (policy.used d.members counts)) ∧
      (d.Separates (scopesOf events) → ∀ set : Finset Nat, set.Nonempty → (∀ who ∈ set, who < s.writers.length) →
        ∃ who ∈ set, ∀ other ∈ set, ¬ s.WaitsFor who other) ∧
      ∀ who writer event, s.writers[who]? = some writer → writer.Exits d who event →
        ∀ more : List QuotaEvent, writer.held.length ≤ more.count (.advance who) →
          ∃ released, ((s.next d event).run d more).writers[who]? = some released ∧ released.held = [] := by
  refine ⟨fun policy hcarried => ?within, fun hseparates set hset hwriters => ?waits,
    fun who writer event hwho hexits more hmore => ?released⟩
  case within => exact ((start_within counts).run hcarried).bounded
  case waits =>
    have hlocked := (start_locked (d := d) counts).run events
    have hscopes : ∀ writer ∈ ((QuotaState.start counts).run d events).writers, ∀ policy ∈ writer.policies,
        policy.resource ∈ scopesOf events := run_scopes (fun _ hwriter => nomatch hwriter) fun _ hscope => hscope
    exact nobody_waits_in_a_circle hlocked hscopes hseparates hset hwriters
  case released =>
    refine ⟨_, releasing_run (exits_releasing hwho hexits) rfl more, ?_⟩
    simp only [Nat.sub_eq_zero_of_le hmore, List.take_zero]

/-- A project with room for one memory, in an organization with room for two. -/
def smallProject : HardPolicy := ⟨"1", .project, "p", 1⟩

def smallOrganization : HardPolicy := ⟨"2", .organization, "o", 2⟩

def smallDeployment : Deployment where
  dialect := .postgresql
  hashtext := fun text => text.length
  members := fun organization => if organization = "o" then ["p", "q"] else []

/-- Two writers of the project at once, from two processes: one of them writes, the other does not fit any more. -/
def twoWriters : List QuotaEvent :=
  [.call "a" "p" [smallOrganization, smallProject] 1, .call "b" "p" [smallOrganization, smallProject] 1] ++
    List.replicate 12 (.advance 0) ++ [.leave 0] ++ List.replicate 6 (.advance 0) ++ List.replicate 16 (.advance 1)

set_option maxRecDepth 2000 in
theorem two_writers_under_the_guard :
    let s := (QuotaState.start fun _ => 0).run smallDeployment twoWriters
    (smallOrganization.used smallDeployment.members s.counts ≤ 2 ∧ smallProject.used smallDeployment.members s.counts ≤ 1) ∧
      (∃ who ∈ ({0, 1} : Finset Nat), ∀ other ∈ ({0, 1} : Finset Nat), ¬ s.WaitsFor who other) ∧
      ∃ released, ((((QuotaState.start fun _ => 0).run smallDeployment (twoWriters.take 5)).next smallDeployment
        (.leave 0)).run smallDeployment (List.replicate 3 (.advance 0))).writers[0]? = some released ∧ released.held = [] := by
  have hcarried : ∀ policy, policy = smallOrganization ∨ policy = smallProject →
      CarriedBy smallDeployment.members policy twoWriters := by
    intro policy hpolicy process project policies selectedNew hcall hproject
    have hpolicies : policies = [smallOrganization, smallProject] := by
      rcases (by simpa [twoWriters] using hcall : _ ∨ _) with h | h
      · exact h.2.2.1
      · exact h.2.2.1
    rcases hpolicy with rfl | rfl <;> simp [hpolicies]
  obtain ⟨hwithin, hwaits, -⟩ := quota_guard_holds smallDeployment (fun _ => 0) twoWriters
  obtain ⟨-, -, hreleased⟩ := quota_guard_holds smallDeployment (fun _ => 0) (twoWriters.take 5)
  refine ⟨⟨?_, ?_⟩, ?_, ?_⟩
  · exact hwithin smallOrganization (hcarried _ (.inl rfl))
  · exact hwithin smallProject (hcarried _ (.inr rfl))
  · have hlength : ((QuotaState.start fun _ => 0).run smallDeployment twoWriters).writers.length = 2 := by decide
    refine hwaits (by decide) {0, 1} (by decide) fun who hwho => hlength ▸ ?_
    exact (by decide : ∀ who ∈ ({0, 1} : Finset Nat), who < 2) who hwho
  · exact hreleased 0 _ (.leave 0) rfl (.inl rfl) (List.replicate 3 (.advance 0)) (by decide)

/-- A writer with the administrator's key, whose snapshot has no policy. -/
def unbound : List QuotaEvent := .call "a" "p" [] 2 :: List.replicate 4 (.advance 0)

/-- Two writers in two projects whose locks have the same hashes crosswise. -/
def crosswise : List QuotaEvent :=
  [.call "a" "ppppppp" [⟨"1", .organization, "o", 9⟩, ⟨"2", .project, "ppppppp", 9⟩] 1,
    .call "b" "qqqqqq" [⟨"3", .organization, "oo", 9⟩, ⟨"4", .project, "qqqqqq", 9⟩] 1] ++
    List.replicate 3 (.advance 0) ++ List.replicate 3 (.advance 1)

theorem guard_does_not_bind_all :
    smallProject.limitValue <
        smallProject.used smallDeployment.members ((QuotaState.start fun _ => 0).run smallDeployment unbound).counts ∧
      ((QuotaState.start fun _ => 0).run smallDeployment crosswise).WaitsFor 0 1 ∧
      ((QuotaState.start fun _ => 0).run smallDeployment crosswise).WaitsFor 1 0 := by
  refine ⟨by decide, ?_, ?_⟩
  · exact ⟨_, _, rfl, rfl, .advisory 34, by decide, by decide⟩
  · exact ⟨_, _, rfl, rfl, .advisory 33, by decide, by decide⟩

end YiQiao
