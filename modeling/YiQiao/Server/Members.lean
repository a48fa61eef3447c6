import YiQiao.Lib.Fallible
import YiQiao.Server.Project
import YiQiao.Server.Workspace

/-!
# Members

The routes that invite, update and remove the members of a workspace, of an organization and of a
project. Each reads the settings, checks the caller, and stores the settings it returns.
-/

namespace YiQiao

open Lib

/-! ## Requests -/

inductive AuthType where
  | none | bearer | apiKey | adminApiKey | disabled
  deriving DecidableEq, Repr

structure Account where
  email : String
  isAdmin : Bool

structure Caller where
  authType : AuthType
  user : Option Account

/-- An address as `EmailStr` accepts it. -/
structure EmailAddress where
  text : String
  named : text ≠ ""
  stripped : strip text = text

structure HttpError where
  status : Nat
  detail : String
  deriving DecidableEq, Repr

/-- A check of a route. -/
def require (c : Prop) [Decidable c] (status : Nat) (detail : String) : Except HttpError Unit :=
  if c then .ok () else .error ⟨status, detail⟩

theorem require_ok {c : Prop} [Decidable c] {status : Nat} {detail : String} {u : Unit}
    (h : require c status detail = .ok u) : c := by
  unfold require at h
  split at h
  · assumption
  · cases h

/-! ## Roles -/

def findProject (w : Workspace) (id : ScopeId) : Option Project := w.projects.find? fun p => p.id = id

def Role.rank : Option Role → Nat
  | some .owner => 3
  | some .editor => 2
  | some .reader => 1
  | none => 0

def strongestRole (left right : Option Role) : Option Role :=
  if Role.rank right ≤ Role.rank left then left else right

/-- The first role that allows to manage, or the strongest. -/
def bestRole : Option Role → List Role → Option Role
  | best, [] => best
  | best, role :: roles => if role = .owner then some role else bestRole (strongestRole best (some role)) roles

/-- The roles of the active memberships of an address that count. -/
def activeRoles (L : Lowering) (w : Workspace) (email : Option String) (counts : Member → Bool) :
    Option Role :=
  match email with
  | none => none
  | some email =>
      if email = "" then none
      else bestRole none ((w.members.filter fun m =>
        L.lower m.email = L.lower email && m.status = .active && counts m).map Member.role)

/-- `member_role`: a membership of the project, or one of its organization. -/
def memberRole (L : Lowering) (w : Workspace) (email : Option String) (projectId : ScopeId) : Option Role :=
  activeRoles L w email fun m => match m.project with
    | some p => p = projectId
    | none => (findProject w projectId).any fun project => m.organization = project.organization

/-- `organization_role`. -/
def organizationRole (L : Lowering) (w : Workspace) (email : Option String) (orgId : ScopeId) : Option Role :=
  activeRoles L w email fun m => m.project = none && m.organization = orgId

/-! ## Changing members -/

/-- The membership that an address, a project and an organization name. -/
def Member.isAt (L : Lowering) (email : String) (project : Option ScopeId) (organization : ScopeId)
    (m : Member) : Prop :=
  L.lower m.email = L.lower email ∧ m.project = project ∧ m.organization = organization

instance (L : Lowering) (email : String) (project : Option ScopeId) (organization : ScopeId) (m : Member) :
    Decidable (m.isAt L email project organization) := inferInstanceAs (Decidable (_ ∧ _ ∧ _))

/-- `upsert_member`. -/
def upsertMember (L : Lowering) (s : Settings) (email : String) (role : Role) (status : MemberStatus)
    (project : Option ScopeId) (organization : ScopeId) : Settings :=
  let w := normalizeWorkspace L s
  let organization := ((project.bind (findProject w)).map Project.organization).getD organization
  Workspace.settings { w with
    members := (w.members.filter fun m => ¬ m.isAt L email project organization) ++
      [⟨L.lower email, role, status, project, organization⟩] }

/-- `remove_member`. -/
def removeMember (L : Lowering) (s : Settings) (email : String) (project : Option ScopeId)
    (organization : ScopeId) : Settings :=
  let w := normalizeWorkspace L s
  Workspace.settings { w with members := w.members.filter fun m => ¬ m.isAt L email project organization }

/-! ## Checks -/

def denyProjectApiKeyControlPlane (caller : Caller) : Except HttpError Unit :=
  require (caller.authType ≠ .apiKey) 403 "Project API keys cannot manage workspace settings."

def isGlobalAdmin (caller : Caller) : Bool :=
  caller.authType = .adminApiKey || caller.authType = .disabled ||
    (caller.authType = .bearer && caller.user.any Account.isAdmin)

def ensureProjectExists (w : Workspace) (projectId : ScopeId) : Except HttpError Unit :=
  require ((findProject w projectId).isSome) 404 "Project not found."

def ensureOrgExists (w : Workspace) (orgId : ScopeId) : Except HttpError Unit :=
  require (w.organizations.any (· = orgId) = true) 404 "Organization not found."

def ensureProjectInOrg (w : Workspace) (orgId projectId : ScopeId) : Except HttpError Unit :=
  require ((findProject w projectId).any fun p => p.organization = orgId) 404 "Project not found."

/-- A global administrator, or a caller whose role allows to manage. -/
def ensureManages (caller : Caller) (role : Option Role) (detail : String) : Except HttpError Unit := do
  denyProjectApiKeyControlPlane caller
  require (isGlobalAdmin caller = true ∨ role = some .owner) 403 detail

def ensureOrgWrite (L : Lowering) (w : Workspace) (orgId : ScopeId) (caller : Caller) : Except HttpError Unit :=
  ensureManages caller (organizationRole L w (caller.user.map Account.email) orgId)
    "Organization access denied."

def ensureProjectWrite (L : Lowering) (w : Workspace) (projectId : ScopeId) (caller : Caller) :
    Except HttpError Unit :=
  ensureManages caller (memberRole L w (caller.user.map Account.email) projectId) "Project access denied."

def Member.isActiveOwner (m : Member) : Bool := m.status = .active && m.role = .owner

/-- Another active owner of the organization, or of the project. -/
def otherOwnerExists (L : Lowering) (w : Workspace) (email : String) (organization : ScopeId)
    (project : Option ScopeId) : Bool :=
  w.members.any fun m => L.lower m.email ≠ L.lower (strip email) && m.isActiveOwner &&
    m.organization = organization && (m.project = project || (project.isSome && m.project.isNone))

/-- `_ensure_owner_remains`. -/
def ensureOwnerRemains (L : Lowering) (w : Workspace) (email : String) (organization : ScopeId)
    (project : Option ScopeId) (nextRole : Option Role) : Except HttpError Unit :=
  if nextRole = some .owner then .ok ()
  else match w.members.find? fun m => m.isAt L (strip email) project organization with
    | none => .ok ()
    | some target =>
        if target.isActiveOwner then
          require (otherOwnerExists L w email organization project = true) 400
            (if project.isSome then "At least one active project owner is required."
              else "At least one active organization owner is required.")
        else .ok ()

/-- A user may not remove their own membership. -/
def ensureNotSelf (L : Lowering) (caller : Caller) (email detail : String) : Except HttpError Unit :=
  require (¬ caller.user.any fun user => L.lower user.email = L.lower email) 400 detail

/-- `_normalize_status`. -/
def normalizeStatusArgument (L : Lowering) (status : String) : Except HttpError MemberStatus :=
  if status = "" then .ok .invited
  else if L.lower (strip status) = "active" then .ok .active
  else if L.lower (strip status) = "invited" then .ok .invited
  else .error ⟨400, "Member status must be active or invited."⟩

/-! ## Routes -/

structure MemberInvite where
  email : EmailAddress
  role : String
  project : Option String

structure MemberUpdate where
  role : Option String
  status : Option String
  project : Option String

/-- The id of a normalized project. -/
def ProjectId.scopeId (project : ProjectId) : ScopeId :=
  ⟨project.text, fun h => project.nonempty (by rw [h]; rfl)⟩

/-- The project of a body, or that of the request. -/
def targetProject (given : Option String) (request : ProjectId) : ScopeId :=
  match given with
  | some project => if project = "" then request.scopeId else (ProjectId.normalize (some project)).scopeId
  | none => request.scopeId

/-- The organization of a project that exists. -/
def organizationOf (w : Workspace) (projectId : ScopeId) : ScopeId :=
  ((findProject w projectId).map Project.organization).getD defaultOrgId

def findMember (L : Lowering) (w : Workspace) (email : String) (project : Option ScopeId)
    (organization : ScopeId) : Except HttpError Member :=
  match w.members.find? fun m => m.isAt L email project organization with
  | some member => .ok member
  | none => .error ⟨404, "Member not found."⟩

/-- `body.role or existing.role` and the like. -/
def orElseText (given : Option String) (existing : String) : String :=
  match given with
  | some text => if text = "" then existing else text
  | none => existing

/-- `POST /workspace/members`. -/
def inviteWorkspaceMember (L : Lowering) (caller : Caller) (request : ProjectId) (body : MemberInvite)
    (s : Settings) : Except HttpError Settings := do
  let w := normalizeWorkspace L s
  let projectId := targetProject body.project request
  ensureProjectExists w projectId
  ensureProjectWrite L w projectId caller
  pure (upsertMember L s body.email.text (normalizeMemberRole L (some body.role)) .invited (some projectId)
    (organizationOf w projectId))

/-- `PATCH /workspace/members/{email}`. -/
def updateWorkspaceMember (L : Lowering) (caller : Caller) (request : ProjectId) (email : EmailAddress)
    (body : MemberUpdate) (s : Settings) : Except HttpError Settings := do
  let w := normalizeWorkspace L s
  let projectId := targetProject body.project request
  ensureProjectExists w projectId
  ensureProjectWrite L w projectId caller
  let existing ← findMember L w email.text (some projectId) (organizationOf w projectId)
  let status ← normalizeStatusArgument L (orElseText body.status existing.status.text)
  pure (upsertMember L s email.text (normalizeMemberRole L (some (orElseText body.role existing.role.text)))
    status (some projectId) (organizationOf w projectId))

/-- `DELETE /workspace/members/{email}`. -/
def deleteWorkspaceMember (L : Lowering) (caller : Caller) (request : ProjectId) (email : EmailAddress)
    (project : Option String) (s : Settings) : Except HttpError Settings := do
  denyProjectApiKeyControlPlane caller
  ensureNotSelf L caller email.text "You cannot remove your own active workspace membership."
  let w := normalizeWorkspace L s
  let projectId := targetProject project request
  ensureProjectExists w projectId
  ensureProjectWrite L w projectId caller
  pure (removeMember L s email.text (some projectId) (organizationOf w projectId))

/-- `_invitation_status`: whether the address belongs to a user. -/
def invitationStatus (registered : String → Bool) (email : EmailAddress) : MemberStatus :=
  if registered email.text then .active else .invited

/-- `POST /organizations/{org_id}/members/`. -/
def addOrgMember (L : Lowering) (registered : String → Bool) (caller : Caller) (orgId : ScopeId)
    (body : MemberInvite) (s : Settings) : Except HttpError Settings := do
  let w := normalizeWorkspace L s
  ensureOrgExists w orgId
  ensureOrgWrite L w orgId caller
  pure (upsertMember L s body.email.text (normalizeMemberRole L (some body.role))
    (invitationStatus registered body.email) none orgId)

/-- `PUT /organizations/{org_id}/members/`. -/
def updateOrgMember (L : Lowering) (caller : Caller) (orgId : ScopeId) (body : MemberInvite) (s : Settings) :
    Except HttpError Settings := do
  let w := normalizeWorkspace L s
  ensureOrgExists w orgId
  ensureOrgWrite L w orgId caller
  let existing ← findMember L w body.email.text none orgId
  let nextRole := normalizeMemberRole L (some body.role)
  ensureOwnerRemains L w body.email.text orgId none (some nextRole)
  pure (upsertMember L s body.email.text nextRole existing.status none orgId)

/-- `DELETE /organizations/{org_id}/members/`. -/
def removeOrgMember (L : Lowering) (caller : Caller) (orgId : ScopeId) (email : String) (s : Settings) :
    Except HttpError Settings := do
  denyProjectApiKeyControlPlane caller
  require (email ≠ "") 400 "email is required."
  ensureNotSelf L caller email "You cannot remove your own active organization membership."
  let w := normalizeWorkspace L s
  ensureOrgExists w orgId
  ensureOrgWrite L w orgId caller
  ensureOwnerRemains L w email orgId none none
  pure (removeMember L s email none orgId)

/-- `POST /organizations/{org_id}/projects/{project_id}/members/`. -/
def addProjectMember (L : Lowering) (registered : String → Bool) (caller : Caller) (orgId projectId : ScopeId)
    (body : MemberInvite) (s : Settings) : Except HttpError Settings := do
  let w := normalizeWorkspace L s
  ensureProjectInOrg w orgId projectId
  ensureProjectWrite L w projectId caller
  pure (upsertMember L s body.email.text (normalizeMemberRole L (some body.role))
    (invitationStatus registered body.email) (some projectId) orgId)

/-- `PUT /organizations/{org_id}/projects/{project_id}/members/`. -/
def updateProjectMember (L : Lowering) (caller : Caller) (orgId projectId : ScopeId) (body : MemberInvite)
    (s : Settings) : Except HttpError Settings := do
  let w := normalizeWorkspace L s
  ensureProjectInOrg w orgId projectId
  ensureProjectWrite L w projectId caller
  let existing ← findMember L w body.email.text (some projectId) orgId
  let nextRole := normalizeMemberRole L (some body.role)
  ensureOwnerRemains L w body.email.text orgId (some projectId) (some nextRole)
  pure (upsertMember L s body.email.text nextRole existing.status (some projectId) orgId)

/-- `DELETE /organizations/{org_id}/projects/{project_id}/members/`. -/
def deleteProjectMember (L : Lowering) (caller : Caller) (orgId projectId : ScopeId) (email : EmailAddress)
    (s : Settings) : Except HttpError Settings := do
  denyProjectApiKeyControlPlane caller
  ensureNotSelf L caller email.text "You cannot remove your own active project membership."
  let w := normalizeWorkspace L s
  ensureProjectInOrg w orgId projectId
  ensureProjectWrite L w projectId caller
  ensureOwnerRemains L w email.text orgId (some projectId) none
  pure (removeMember L s email.text (some projectId) orgId)

end YiQiao
