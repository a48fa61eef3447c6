import YiQiao.Server.Document

/-!
# The routes of the workspace

Each route reads the document once, checks the caller, and stores a changed document or none.
-/

namespace YiQiao

open Lib

/-! ## Roles for reading -/

section
variable (L : Lowering)

/-- `organization_access_role`: a membership of the organization, or of one of its projects. -/
def organizationAccessRole (w : Workspace) (email : Option String) (orgId : ScopeId) : Option Role :=
  strongestRole (organizationRole L w email orgId) (activeRoles L w email fun m =>
    m.project.any fun id => w.projects.any fun p => p.id = id && p.organization = orgId)

/-- A global administrator, or a caller with a role. -/
def ensureReads (caller : Caller) (role : Option Role) (detail : String) : Except HttpError Unit := do
  denyProjectApiKeyControlPlane caller
  require (isGlobalAdmin caller = true ∨ role.isSome = true) 403 detail

def Caller.email (caller : Caller) : Option String := caller.user.map Account.email

def ensureOrgRead (w : Workspace) (orgId : ScopeId) (caller : Caller) : Except HttpError Unit :=
  ensureReads caller (organizationAccessRole L w caller.email orgId) "Organization access denied."

def ensureProjectRead (w : Workspace) (projectId : ScopeId) (caller : Caller) : Except HttpError Unit :=
  ensureReads caller (memberRole L w caller.email projectId) "Project access denied."

/-! ## The view of a caller -/

/-- The membership is one of the caller's own. -/
def Member.isOf (email : Option String) (m : Member) : Bool := L.lower m.email = L.lower (email.getD "")

def visibleProjects (sheet : Sheet) (email : Option String) : List ProjectSheet :=
  sheet.projects.filter fun p => (memberRole L sheet.workspace email p.id).isSome

/-- The membership is in a project that the caller manages, or in an organization that the caller manages. -/
def Member.isManaged (sheet : Sheet) (email : Option String) (m : Member) : Bool :=
  (m.project.any fun id => (visibleProjects L sheet email).any fun p =>
    p.id = id && memberRole L sheet.workspace email p.id = some .owner) ||
  sheet.organizations.any fun organization => organization.id = m.organization &&
    organizationRole L sheet.workspace email organization.id = some .owner

/-- `visible_workspace`. -/
def visibleWorkspace (sheet : Sheet) (email : Option String) (isOwner : Bool) : Sheet :=
  if isOwner then sheet
  else
    let projects := visibleProjects L sheet email
    let organizations := sheet.organizations.filter fun organization =>
      projects.any fun p => p.organization = organization.id
    { sheet with
      projects
      organizations
      members := sheet.members.filter fun m => m.isOf L email || m.isManaged L sheet email
      activeProject := (projects.head?.map ProjectSheet.id).getD sheet.activeProject
      activeOrganization := (organizations.head?.map Organization.id).getD sheet.activeOrganization
      organization := organizations.head?.getD sheet.organization }

end

/-! ## Requests -/

/-- What a request says about the details of a project: refused, or a change of them. -/
abbrev ProjectPatch := ProjectDetails → Except HttpError ProjectDetails

inductive WorkspaceRequest where
  | getWorkspace
  | updateWorkspace (active : Option String) (request : ProjectId) (patch : ProjectPatch)
  | member (call : MemberCall)
  | listOrganizations
  | createOrg (name : String) (newId : ScopeId)
  | getOrg (orgId : ScopeId)
  | updateOrg (orgId : ScopeId) (name : String)
  | deleteOrg (orgId : ScopeId)
  | getOrgMembers (orgId : ScopeId)
  | listProjects (orgId : ScopeId)
  | createProject (orgId : ScopeId) (name description : String) (newId : ScopeId)
  | getProject (orgId projectId : ScopeId)
  | updateProject (orgId projectId : ScopeId) (patch : ProjectPatch)
  | deleteProject (orgId projectId : ScopeId)
  | getProjectMembers (orgId projectId : ScopeId)

inductive Response where
  | sheet (sheet : Sheet)
  /-- The stored document as it is. -/
  | saved (document : Document)
  | organizations (organizations : List Organization)
  | organization (organization : Organization)
  | projects (projects : List ProjectSheet)
  | project (project : Option ProjectSheet)
  | members (members : List Member)
  | message (text : String)

/-- The document that is stored, if any, and the answer. -/
structure Answer where
  stored : Option Document
  response : Response

def findOrg (sheet : Sheet) (orgId : ScopeId) : Except HttpError Organization :=
  match sheet.findOrganization orgId with
  | some organization => .ok organization
  | none => .error ⟨404, "Organization not found."⟩

def findProjectInOrg (sheet : Sheet) (orgId projectId : ScopeId) : Except HttpError ProjectSheet :=
  match sheet.findProject projectId with
  | some p => if p.organization = orgId then .ok p else .error ⟨404, "Project not found."⟩
  | none => .error ⟨404, "Project not found."⟩

section
variable (L : Lowering) (caller : Caller) (doc : Document)

def view (sheet : Sheet) : Sheet := visibleWorkspace L sheet caller.email (isGlobalAdmin caller)

/-- `GET /workspace`. -/
def getWorkspaceSettings : Except HttpError Answer := do
  denyProjectApiKeyControlPlane caller
  pure ⟨none, .sheet (view L caller (normalizeDocument L doc))⟩

/-- `PATCH /workspace`. -/
def updateWorkspaceSettings (active : Option String) (request : ProjectId) (patch : ProjectPatch) :
    Except HttpError Answer := do
  let current := normalizeDocument L doc
  let projectId := targetProject active request
  match (normalizeDocument L current.document).findProject projectId with
  | none => .error ⟨404, "Project not found."⟩
  | some project =>
      ensureProjectWrite L current.workspace projectId caller
      let details ← patch project.details
      let saved := normalizeDocument L (updateProject L current.document projectId fun _ => details).document
      pure ⟨some saved.document, .sheet (view L caller (normalizeDocument L saved.document))⟩

/-- The routes that change members answer with all that is stored. -/
def changeMembers (call : MemberCall) : Except HttpError Answer := do
  let settings ← call.run L caller doc.settings
  let saved : Document := { (normalizeDocument L doc).document with members := settings.members }
  pure ⟨some saved, .saved saved⟩

/-- `GET /organizations/`. -/
def listOrganizations : Except HttpError Answer := do
  denyProjectApiKeyControlPlane caller
  pure ⟨none, .organizations (view L caller (normalizeDocument L doc)).organizations⟩

/-- `POST /organizations/`. -/
def createOrg (name : String) (newId : ScopeId) : Except HttpError Answer := do
  require (isGlobalAdmin caller = true) 403 "Admin role required."
  let saved := createOrganization L doc name newId
  pure ⟨some saved.document, .organization saved.organization⟩

/-- `GET /organizations/{org_id}/`. -/
def getOrg (orgId : ScopeId) : Except HttpError Answer := do
  let sheet := normalizeDocument L doc
  let organization ← findOrg sheet orgId
  ensureOrgRead L sheet.workspace orgId caller
  pure ⟨none, .organization organization⟩

/-- `PATCH /organizations/{org_id}/`. -/
def updateOrg (orgId : ScopeId) (name : String) : Except HttpError Answer := do
  let sheet := normalizeDocument L doc
  let _ ← findOrg sheet orgId
  ensureOrgWrite L sheet.workspace orgId caller
  let saved := updateOrganization L doc orgId name
  let organization ← findOrg (normalizeDocument L saved.document) orgId
  pure ⟨some saved.document, .organization organization⟩

/-- `DELETE /organizations/{org_id}/`. -/
def deleteOrg (orgId : ScopeId) : Except HttpError Answer := do
  let sheet := normalizeDocument L doc
  let _ ← findOrg sheet orgId
  ensureOrgWrite L sheet.workspace orgId caller
  require (orgId ≠ defaultOrgId) 400 "Default organization cannot be deleted."
  pure ⟨some (deleteOrganization L doc orgId).document, .message "Organization deleted"⟩

/-- The members of an organization and of its projects. -/
def orgMembers (sheet : Sheet) (orgId : ScopeId) : List Member :=
  sheet.members.filter fun m => m.organization = orgId &&
    m.project.all fun id => sheet.projects.any fun p => p.id = id && p.organization = orgId

/-- `GET /organizations/{org_id}/members/`. -/
def getOrgMembers (orgId : ScopeId) : Except HttpError Answer := do
  let sheet := normalizeDocument L doc
  let _ ← findOrg sheet orgId
  ensureOrgRead L sheet.workspace orgId caller
  pure ⟨none, .members (orgMembers sheet orgId)⟩

/-- `GET /organizations/{org_id}/projects/`. -/
def listProjects (orgId : ScopeId) : Except HttpError Answer := do
  let sheet := normalizeDocument L doc
  let _ ← findOrg sheet orgId
  ensureOrgRead L sheet.workspace orgId caller
  pure ⟨none, .projects ((view L caller sheet).projects.filter fun p => p.organization = orgId)⟩

/-- `POST /organizations/{org_id}/projects/`. -/
def createProjectRoute (orgId : ScopeId) (name description : String) (newId : ScopeId) : Except HttpError Answer := do
  let sheet := normalizeDocument L doc
  let _ ← findOrg sheet orgId
  ensureOrgWrite L sheet.workspace orgId caller
  let saved := createProject L doc orgId name description newId
  pure ⟨some saved.document, .project ((normalizeDocument L saved.document).findProject newId)⟩

/-- `GET /organizations/{org_id}/projects/{project_id}/`. -/
def getProject (orgId projectId : ScopeId) : Except HttpError Answer := do
  let sheet := normalizeDocument L doc
  let project ← findProjectInOrg sheet orgId projectId
  ensureProjectRead L sheet.workspace projectId caller
  pure ⟨none, .project (some project)⟩

/-- `PATCH /organizations/{org_id}/projects/{project_id}/`. -/
def updateProjectRoute (orgId projectId : ScopeId) (patch : ProjectPatch) : Except HttpError Answer := do
  let sheet := normalizeDocument L doc
  let project ← findProjectInOrg sheet orgId projectId
  ensureProjectWrite L sheet.workspace projectId caller
  let details ← patch project.details
  let saved := updateProject L doc projectId fun _ => details
  pure ⟨some saved.document, .project ((normalizeDocument L saved.document).findProject projectId)⟩

/-- `DELETE /organizations/{org_id}/projects/{project_id}/`. -/
def deleteProjectRoute (orgId projectId : ScopeId) : Except HttpError Answer := do
  let sheet := normalizeDocument L doc
  let _ ← findProjectInOrg sheet orgId projectId
  ensureProjectWrite L sheet.workspace projectId caller
  require (projectId ≠ defaultProject.id) 400 "Default project cannot be deleted."
  pure ⟨some (deleteProject L doc projectId).document, .message "Project deleted"⟩

def projectMembers (sheet : Sheet) (projectId : ScopeId) : List Member :=
  sheet.members.filter fun m => m.project = some projectId

/-- `GET /organizations/{org_id}/projects/{project_id}/members/`. -/
def getProjectMembers (orgId projectId : ScopeId) : Except HttpError Answer := do
  let sheet := normalizeDocument L doc
  let _ ← findProjectInOrg sheet orgId projectId
  ensureProjectRead L sheet.workspace projectId caller
  pure ⟨none, .members (projectMembers sheet projectId)⟩

def respond : WorkspaceRequest → Except HttpError Answer
  | .getWorkspace => getWorkspaceSettings L caller doc
  | .updateWorkspace active request patch => updateWorkspaceSettings L caller doc active request patch
  | .member call => changeMembers L caller doc call
  | .listOrganizations => listOrganizations L caller doc
  | .createOrg name newId => createOrg L caller doc name newId
  | .getOrg orgId => getOrg L caller doc orgId
  | .updateOrg orgId name => updateOrg L caller doc orgId name
  | .deleteOrg orgId => deleteOrg L caller doc orgId
  | .getOrgMembers orgId => getOrgMembers L caller doc orgId
  | .listProjects orgId => listProjects L caller doc orgId
  | .createProject orgId name description newId => createProjectRoute L caller doc orgId name description newId
  | .getProject orgId projectId => getProject L caller doc orgId projectId
  | .updateProject orgId projectId patch => updateProjectRoute L caller doc orgId projectId patch
  | .deleteProject orgId projectId => deleteProjectRoute L caller doc orgId projectId
  | .getProjectMembers orgId projectId => getProjectMembers L caller doc orgId projectId

end

end YiQiao
