import YiQiao.Server.Routes

/-!
# Requests that overlap

Every request that changes the workspace reads the document, computes another one, and overwrites what is stored by
then. Nothing keeps two requests apart.
-/

namespace YiQiao

open Lib

/-! ## Requests -/

inductive SettingsRequest where
  | workspace (caller : Caller) (request : WorkspaceRequest)
  /-- The registration of an address by its invitation. -/
  | register (email : EmailAddress)
  /-- A user changes their address to one that no one else has. -/
  | updateMe (old new : EmailAddress)
  | deleteMe (email : EmailAddress)

/-- `invited_member`. -/
def invitedMember (L : Lowering) (doc : Document) (email : String) : Option Member :=
  (normalizeDocument L doc).members.find? fun m => L.lower m.email = L.lower email && m.status = .invited

/-- The document that a request writes when it has read this one, unless it is refused. -/
def SettingsRequest.change (L : Lowering) (doc : Document) : SettingsRequest → Option Document
  | .workspace caller request =>
      match respond L caller doc request with
      | .ok answer => answer.stored
      | .error _ => none
  | .register email =>
      (invitedMember L doc email.text).map fun _ => (activateMember L doc email.text).document
  | .updateMe old new => some (replaceDocumentEmail L doc old.text new.text).document
  | .deleteMe email => some (dropMember L doc email.text)

/-- The document after a request that nothing comes between. -/
def SettingsRequest.apply (L : Lowering) (doc : Document) (request : SettingsRequest) : Document :=
  (request.change L doc).getD doc

/-! ## Interleavings -/

inductive StoreEvent where
  | read (who : Nat)
  | write (who : Nat)
  deriving DecidableEq, Repr

/-- The stored document, and what the requests that are under way have read. -/
structure SettingsStore where
  doc : Document
  held : Nat → Option Document

def SettingsStore.start (doc : Document) : SettingsStore := ⟨doc, fun _ => none⟩

section
variable (L : Lowering) (requests : Nat → SettingsRequest)

/-- `get_json` and `set_json`. -/
def SettingsStore.next (s : SettingsStore) : StoreEvent → SettingsStore
  | .read who => { s with held := Function.update s.held who (some s.doc) }
  | .write who =>
      { doc := ((s.held who).bind fun doc => (requests who).change L doc).getD s.doc
        held := Function.update s.held who none }

def SettingsStore.run (s : SettingsStore) (events : List StoreEvent) : SettingsStore :=
  events.foldl (SettingsStore.next L requests) s

/-- The requests in the order in which they write. -/
def writers (events : List StoreEvent) : List Nat :=
  events.filterMap fun
    | .write who => some who
    | .read _ => none

/-- The requests one after the other. -/
def serially (doc : Document) (order : List Nat) : Document :=
  order.foldl (fun doc who => (requests who).apply L doc) doc

end

/-- A request has read, and is still to write. -/
def Pending (who : Nat) : List StoreEvent → Prop
  | [] => False
  | .read other :: rest => other ≠ who ∧ Pending who rest
  | .write other :: rest => other = who ∨ Pending who rest

/-- No request writes while another one is between its read and its write. -/
def Apart : List StoreEvent → Prop
  | [] => True
  | .read _ :: rest => Apart rest
  | .write _ :: rest => (∀ who, ¬ Pending who rest) ∧ Apart rest

/-- The steps of two requests, each in its own order. -/
inductive Interleaving : List StoreEvent → List StoreEvent → List StoreEvent → Prop where
  | done : Interleaving [] [] []
  | left {event : StoreEvent} {first second events : List StoreEvent} :
      Interleaving first second events → Interleaving (event :: first) second (event :: events)
  | right {event : StoreEvent} {first second events : List StoreEvent} :
      Interleaving first second events → Interleaving first (event :: second) (event :: events)

section
variable {L : Lowering} {requests : Nat → SettingsRequest} {s : SettingsStore}

theorem run_apart {events : List StoreEvent} (h : Apart events)
    (hheld : ∀ who, Pending who events → s.held who = some s.doc) :
    (s.run L requests events).doc = serially L requests s.doc (writers events) := by
  induction events generalizing s with
  | nil => rfl
  | cons event rest ih =>
      cases event with
      | read who =>
          refine ih h fun other hpending => ?_
          by_cases heq : other = who
          · rw [heq, SettingsStore.next]
            exact Function.update_self ..
          · have hsame : (s.next L requests (.read who)).held other = s.held other := Function.update_of_ne heq ..
            rw [hsame]
            exact hheld other ⟨fun h => heq h.symm, hpending⟩
      | write who =>
          have hread : s.held who = some s.doc := hheld who (.inl rfl)
          have hdoc : (s.next L requests (.write who)).doc = (requests who).apply L s.doc := by
            rw [SettingsStore.next, hread]
            rfl
          have hrest := ih (s := s.next L requests (.write who)) h.2 fun other hpending => absurd hpending (h.1 other)
          rw [hdoc] at hrest
          exact hrest

theorem interleavings {events : List StoreEvent} (h : Interleaving [.read 0, .write 0] [.read 1, .write 1] events) :
    (events = [.read 0, .write 0, .read 1, .write 1] ∨ events = [.read 1, .write 1, .read 0, .write 0]) ∨
      (events = [.read 0, .read 1, .write 0, .write 1] ∨ events = [.read 1, .read 0, .write 0, .write 1]) ∨
      events = [.read 0, .read 1, .write 1, .write 0] ∨ events = [.read 1, .read 0, .write 1, .write 0] := by
  have hnil : ∀ {second events : List StoreEvent}, Interleaving [] second events → events = second := by
    intro second
    induction second with
    | nil => intro events h; cases h; rfl
    | cons event second ih => intro events h; cases h with | right h => rw [ih h]
  have hnil' : ∀ {first events : List StoreEvent}, Interleaving first [] events → events = first := by
    intro first
    induction first with
    | nil => intro events h; cases h; rfl
    | cons event first ih => intro events h; cases h with | left h => rw [ih h]
  cases h with
  | left h =>
      cases h with
      | left h => rw [hnil h]; simp
      | right h =>
          cases h with
          | left h => rw [hnil h]; simp
          | right h => rw [hnil' h]; simp
  | right h =>
      cases h with
      | right h => rw [hnil' h]; simp
      | left h =>
          cases h with
          | left h => rw [hnil h]; simp
          | right h => rw [hnil' h]; simp

end

/-! ## Two invitations -/

def freshDocument : Document where
  organization := some defaultOrganization
  organizations := [defaultOrganization]
  activeOrganization := some defaultOrgId
  activeProject := some defaultProject.id
  projects := [defaultProjectRecord]
  members := []
  sections := []

def invite (email : EmailAddress) : SettingsRequest :=
  .workspace ⟨.adminApiKey, none⟩
    (.member (.addProjectMember (fun _ => false) defaultOrgId defaultProject.id ⟨email, "READER", none⟩))

def twoInvitations (who : Nat) : SettingsRequest :=
  invite (if who = 0 then ⟨"ann@overwrites.org", by decide, by decide⟩ else ⟨"bob@overwrites.org", by decide, by decide⟩)

end YiQiao
