import YiQiao.Server.Rename

/-!
# The workspace document

The settings of a workspace as one document, with the names of its organizations, the details of its projects and the
sections it has for all of them. Every change reads the whole document and returns a whole one.
-/

namespace YiQiao

open Lib

/-! ## The document as it is stored -/

structure Organization where
  id : ScopeId
  name : String
  deriving DecidableEq, Repr

/-- What a project has besides its id and its organization. -/
structure ProjectDetails where
  name : String
  description : String
  sections : Entries

structure ProjectRecord where
  id : ScopeId
  organization : Option ScopeId
  details : ProjectDetails

structure Document where
  organization : Option Organization
  organizations : List Organization
  activeOrganization : Option ScopeId
  activeProject : Option ScopeId
  projects : List ProjectRecord
  members : List MemberEntry
  sections : Entries

def ProjectRecord.entry (p : ProjectRecord) : ProjectEntry := ⟨p.id, p.organization⟩

/-- The part of the document that says who may do what. -/
def Document.settings (doc : Document) : Settings where
  organization := doc.organization.map Organization.id
  organizations := doc.organizations.map Organization.id
  activeOrganization := doc.activeOrganization
  projects := doc.projects.map ProjectRecord.entry
  members := doc.members

/-! ## The normalized document -/

structure ProjectSheet where
  id : ScopeId
  organization : ScopeId
  details : ProjectDetails

structure Sheet where
  organizations : List Organization
  activeOrganization : ScopeId
  organization : Organization
  activeProject : ScopeId
  projects : List ProjectSheet
  members : List Member
  sections : Entries

def Sheet.workspace (sheet : Sheet) : Workspace where
  organizations := sheet.organizations.map Organization.id
  activeOrganization := sheet.activeOrganization
  projects := sheet.projects.map fun p => ⟨p.id, p.organization⟩
  members := sheet.members

def Sheet.document (sheet : Sheet) : Document where
  organization := some sheet.organization
  organizations := sheet.organizations
  activeOrganization := some sheet.activeOrganization
  activeProject := some sheet.activeProject
  projects := sheet.projects.map fun p => ⟨p.id, some p.organization, p.details⟩
  members := sheet.members.map Member.entry
  sections := sheet.sections

/-- `_clean_name`. -/
def cleanName (name fallback : String) : String := if strip name = "" then fallback else strip name

def defaultOrganization : Organization := ⟨defaultOrgId, "Default organization"⟩

def defaultProjectRecord : ProjectRecord :=
  ⟨defaultProject.id, some defaultOrgId, ⟨"default-project", "", [("is_default", .bool true)]⟩⟩

def Organization.clean (organization : Organization) : Organization :=
  { organization with name := cleanName organization.name organization.id.val }

def normalizedOrganizations (doc : Document) : List Organization :=
  (firstsBy Organization.id
    (if doc.organizations = [] then [doc.organization.getD defaultOrganization] else doc.organizations)).map
    Organization.clean

def normalizedProjects (doc : Document) : List ProjectSheet :=
  (firstsBy ProjectRecord.id (if doc.projects.isEmpty then [defaultProjectRecord] else doc.projects)).map fun p =>
    ⟨p.id, settleOrganization doc.settings (p.organization.getD (YiQiao.activeOrganization doc.settings)),
      { p.details with name := cleanName p.details.name p.id.val }⟩

/-- The active organization, or the first one. -/
def pickOrganization (organizations : List Organization) (active : ScopeId) : Organization :=
  ((organizations.find? fun organization => organization.id = active).or organizations.head?).getD defaultOrganization

/-- `normalize_workspace`. -/
def normalizeDocument (L : Lowering) (doc : Document) : Sheet where
  organizations := normalizedOrganizations doc
  activeOrganization := activeOrganization doc.settings
  organization := pickOrganization (normalizedOrganizations doc) (activeOrganization doc.settings)
  activeProject :=
    match doc.activeProject with
    | some id => if (normalizedProjects doc).any (fun p => p.id = id) then id
        else ((normalizedProjects doc).head?.map ProjectSheet.id).getD defaultProject.id
    | none => ((normalizedProjects doc).head?.map ProjectSheet.id).getD defaultProject.id
  projects := normalizedProjects doc
  members := (normalizeWorkspace L doc.settings).members
  sections := doc.sections

/-! ## Changes -/

section
variable (L : Lowering) (doc : Document)

def Sheet.findOrganization (sheet : Sheet) (id : ScopeId) : Option Organization :=
  sheet.organizations.find? fun organization => organization.id = id

def Sheet.findProject (sheet : Sheet) (id : ScopeId) : Option ProjectSheet := sheet.projects.find? fun p => p.id = id

/-- `create_organization`, with the id that is drawn for it. -/
def createOrganization (name : String) (newId : ScopeId) : Sheet :=
  let sheet := normalizeDocument L doc
  let organization : Organization := ⟨newId, cleanName name newId.val⟩
  { sheet with organizations := sheet.organizations ++ [organization], activeOrganization := newId, organization }

/-- `update_organization`. -/
def updateOrganization (id : ScopeId) (name : String) : Sheet :=
  let sheet := normalizeDocument L doc
  let organizations := sheet.organizations.map fun organization =>
    if organization.id = id then { organization with name := cleanName name id.val } else organization
  let organization :=
    if sheet.activeOrganization = id then (organizations.find? fun organization => organization.id = id).getD sheet.organization
    else sheet.organization
  { sheet with organizations, organization }

/-- The first project, or a new default one. -/
def orDefaultProject (projects : List ProjectSheet) : List ProjectSheet :=
  if projects.isEmpty then [⟨defaultProject.id, defaultOrgId, defaultProjectRecord.details⟩] else projects

/-- `delete_organization`. -/
def deleteOrganization (id : ScopeId) : Sheet :=
  let sheet := normalizeDocument L doc
  if id = defaultOrgId then sheet
  else
    let gone := fun project : ScopeId => sheet.projects.any fun p => p.id = project && p.organization = id
    let organizations := sheet.organizations.filter fun organization => organization.id ≠ id
    let organizations := if organizations = [] then [defaultOrganization] else organizations
    let projects := orDefaultProject (sheet.projects.filter fun p => ¬ gone p.id)
    let organization := organizations.headD defaultOrganization
    { sheet with
      organizations
      projects
      members := sheet.members.filter fun m => m.organization ≠ id && !(m.project.any gone)
      activeOrganization := organization.id
      organization
      activeProject := (projects.head?.map ProjectSheet.id).getD defaultProject.id }

/-- The sections that a new project starts with. -/
def newSections : Entries :=
  [("extraction", .dict [("multilingual", .bool true), ("use_case", .str ""), ("memory_depth", .str "Essential Insights"),
      ("include", .str ""), ("exclude", .str ""), ("custom_instructions", .str "")]),
    ("categories", .list []),
    ("retention", .dict [("memory_decay", .bool true), ("expiration_date", .null)]),
    ("playground", .dict [("custom_instructions", .str ""), ("categories", .list []), ("includes_prompt", .str ""),
      ("excludes_prompt", .str ""), ("force_add_only", .bool false), ("reranking", .bool false),
      ("temperature", .num 1 1), ("threshold", .num 2 1), ("max_tokens", .num 2048 0), ("top_k", .num 10 0),
      ("top_p", .num 10 1)])]

/-- `create_project`, with the id that is drawn for it, and the description that the route gives it. -/
def createProject (organization : ScopeId) (name description : String) (newId : ScopeId) : Sheet :=
  let sheet := normalizeDocument L doc
  { sheet with
    projects := sheet.projects ++ [⟨newId, organization, ⟨cleanName name newId.val, description, newSections⟩⟩]
    activeOrganization := organization
    activeProject := newId }

/-- `update_project`. -/
def updateProject (id : ScopeId) (patch : ProjectDetails → ProjectDetails) : Sheet :=
  let sheet := normalizeDocument L doc
  { sheet with projects := sheet.projects.map fun p => if p.id = id then { p with details := patch p.details } else p }

/-- `delete_project`. -/
def deleteProject (id : ScopeId) : Sheet :=
  let sheet := normalizeDocument L doc
  if id = defaultProject.id then sheet
  else
    let projects := orDefaultProject (sheet.projects.filter fun p => p.id ≠ id)
    let members := sheet.members.filter fun m => m.project ≠ some id
    if sheet.activeProject = id then
      let organization := (sheet.findProject id).map ProjectSheet.organization
      let fallback := (projects.find? fun p => some p.organization = organization).or projects.head?
      let active := (fallback.map ProjectSheet.organization).getD defaultOrgId
      { sheet with
        projects
        members
        activeProject := (fallback.map ProjectSheet.id).getD defaultProject.id
        activeOrganization := active
        organization := pickOrganization sheet.organizations active }
    else { sheet with projects, members }

/-- `activate_member`. -/
def activateMember (email : String) : Sheet :=
  let sheet := normalizeDocument L doc
  { sheet with members := sheet.members.map fun m =>
      if L.lower m.email = L.lower email then { m with status := .active } else m }

/-- `replace_member_email` on the document. -/
def replaceDocumentEmail (oldEmail newEmail : String) : Sheet :=
  let sheet := normalizeDocument L doc
  { sheet with members := (normalizeWorkspace L (replaceMemberEmail L doc.settings oldEmail newEmail)).members }

/-- What `delete_me` writes: the document without the memberships of an address. -/
def dropMember (email : String) : Document :=
  { doc with members := doc.members.filter fun m => L.lower (strip m.email) ≠ L.lower (strip email) }

end

/-! ## What normalization gives -/

section
variable {L : Lowering} {doc : Document} {sheet : Sheet}

@[simp] theorem clean_id (organization : Organization) : organization.clean.id = organization.id := rfl

/-- The name of a project is cleaned like that of an organization. -/
def ProjectSheet.clean (p : ProjectSheet) : ProjectSheet :=
  { p with details := { p.details with name := cleanName p.details.name p.id.val } }

/-- The document with other names and details. -/
def Sheet.mapDetails (f : Organization → Organization) (g : ProjectSheet → ProjectSheet) (sheet : Sheet) : Sheet :=
  { sheet with
    organizations := sheet.organizations.map f
    organization := f sheet.organization
    projects := sheet.projects.map g }

/-- Reading a document anew cleans its names once more. -/
def Sheet.cleaned (sheet : Sheet) : Sheet := sheet.mapDetails Organization.clean ProjectSheet.clean

structure Sheet.Normal (L : Lowering) (sheet : Sheet) : Prop where
  workspace : sheet.workspace.Normal L
  organization : sheet.organization = pickOrganization sheet.organizations sheet.activeOrganization
  activeProject : sheet.projects.any (fun p => p.id = sheet.activeProject) = true

theorem organizations_ids : (normalizedOrganizations doc).map Organization.id = normalizeOrganizations doc.settings := by
  have hids : (normalizedOrganizations doc).map Organization.id =
      (firstsBy Organization.id (if doc.organizations = [] then [doc.organization.getD defaultOrganization]
        else doc.organizations)).map Organization.id := by
    rw [normalizedOrganizations, List.map_map]
    rfl
  refine hids.trans ((@map_firstsBy _ _ _ id _ Organization.id _).trans ?_)
  rw [normalizeOrganizations, Document.settings]
  by_cases hempty : doc.organizations = []
  · cases doc.organization with
    | none => simp [hempty, defaultOrganization]
    | some organization => simp [hempty]
  · rw [if_neg hempty, if_neg (by simpa using hempty)]

theorem projects_entries : (normalizedProjects doc).map (fun p => (⟨p.id, p.organization⟩ : Project)) =
    normalizeProjects doc.settings := by
  have hprojects : doc.settings.projects = doc.projects.map ProjectRecord.entry := rfl
  have hfirsts : ∀ l : List ProjectRecord,
      (firstsBy ProjectRecord.id l).map ProjectRecord.entry = firstsBy ProjectEntry.id (l.map ProjectRecord.entry) :=
    fun l => @map_firstsBy _ _ _ ProjectEntry.id _ ProjectRecord.entry l
  rw [normalizedProjects, List.map_map, normalizeProjects, hprojects]
  cases doc.projects with
  | nil => rfl
  | cons p ps =>
      rw [if_neg (by simp), if_neg (by simp), ← hfirsts, List.map_map]
      rfl

theorem normalizeDocument_workspace : (normalizeDocument L doc).workspace = normalizeWorkspace L doc.settings := by
  rw [Sheet.workspace, normalizeDocument]
  dsimp only
  rw [organizations_ids, projects_entries]
  rfl

theorem normal_normalizeDocument (L : Lowering) (doc : Document) : (normalizeDocument L doc).Normal L where
  workspace := normalizeDocument_workspace (L := L) ▸ normal_normalizeWorkspace L doc.settings
  organization := rfl
  activeProject := by
    have hne : normalizedProjects doc ≠ [] := by
      intro hempty
      have hnone := normalizeProjects_ne (s := doc.settings)
      rw [← projects_entries, hempty] at hnone
      exact hnone rfl
    obtain ⟨first, rest, hprojects⟩ := List.exists_cons_of_ne_nil hne
    rw [normalizeDocument]
    dsimp only
    rw [hprojects]
    cases doc.activeProject with
    | none => simp
    | some id =>
        dsimp only
        split
        · next h => exact h
        · simp

theorem pick_id (organizations : List Organization) (active : ScopeId) (h : organizations ≠ []) :
    some (pickOrganization organizations active).id =
      ((organizations.map Organization.id).find? (· = active)).or (organizations.map Organization.id).head? := by
  obtain ⟨first, rest, rfl⟩ := List.exists_cons_of_ne_nil h
  rw [List.find?_map, pickOrganization]
  have hsame : ((· = active) : ScopeId → Bool) ∘ Organization.id = fun organization => decide (organization.id = active) := rfl
  rw [hsame]
  cases (first :: rest).find? fun organization => decide (organization.id = active) with
  | none => rfl
  | some organization => rfl

theorem pick_map {f : Organization → Organization} (hf : ∀ organization, (f organization).id = organization.id)
    (organizations : List Organization) (active : ScopeId) (h : organizations ≠ []) :
    pickOrganization (organizations.map f) active = f (pickOrganization organizations active) := by
  obtain ⟨first, rest, rfl⟩ := List.exists_cons_of_ne_nil h
  have hsame : (fun organization : Organization => decide (organization.id = active)) ∘ f =
      fun organization => decide (organization.id = active) := funext fun organization => by
    rw [Function.comp, hf]
  rw [pickOrganization, pickOrganization, List.find?_map, hsame]
  cases (first :: rest).find? fun organization => decide (organization.id = active) with
  | none => rfl
  | some organization => rfl

theorem Sheet.Normal.inhabited (h : sheet.Normal L) : sheet.organizations ≠ [] := by
  intro hempty
  refine h.workspace.inhabited ?_
  rw [Sheet.workspace, hempty]
  rfl

theorem document_settings (h : sheet.Normal L) : sheet.document.settings = sheet.workspace.settings := by
  have horganization := pick_id sheet.organizations sheet.activeOrganization h.inhabited
  rw [← h.organization] at horganization
  rw [Document.settings, Workspace.settings, Sheet.document, Sheet.workspace]
  simp only [Option.map_some, List.map_map, horganization]
  rfl

section
variable {f : Organization → Organization} {g : ProjectSheet → ProjectSheet}
  (hf : ∀ organization, (f organization).id = organization.id)
  (hg : ∀ p, (g p).id = p.id ∧ (g p).organization = p.organization)
include hf hg

theorem mapDetails_workspace : (sheet.mapDetails f g).workspace = sheet.workspace := by
  rw [Sheet.workspace, Sheet.workspace, Sheet.mapDetails]
  simp only [List.map_map, Workspace.mk.injEq, true_and, and_true]
  refine ⟨List.map_congr_left fun organization _ => hf organization, List.map_congr_left fun p _ => ?_⟩
  simp only [Function.comp, (hg p).1, (hg p).2]

theorem Sheet.Normal.mapDetails (h : sheet.Normal L) : (sheet.mapDetails f g).Normal L where
  workspace := (mapDetails_workspace hf hg).symm ▸ h.workspace
  organization := by
    rw [Sheet.mapDetails]
    dsimp only
    rw [pick_map hf _ _ h.inhabited, ← h.organization]
  activeProject := by
    have hsame : (fun p : ProjectSheet => decide (p.id = sheet.activeProject)) ∘ g =
        fun p => decide (p.id = sheet.activeProject) := funext fun p => by rw [Function.comp, (hg p).1]
    rw [Sheet.mapDetails, List.any_map, hsame]
    exact h.activeProject

end

theorem clean_keeps (p : ProjectSheet) : p.clean.id = p.id ∧ p.clean.organization = p.organization := ⟨rfl, rfl⟩

theorem Sheet.Normal.cleaned (h : sheet.Normal L) : sheet.cleaned.Normal L := h.mapDetails clean_id clean_keeps

/-- The organizations of a document that is read anew. -/
theorem organizations_document (hne : sheet.organizations ≠ []) (hnodup : (sheet.organizations.map Organization.id).Nodup) :
    normalizedOrganizations sheet.document = sheet.organizations.map Organization.clean := by
  have hkeep : sheet.document.organizations = sheet.organizations := rfl
  rw [normalizedOrganizations, hkeep, if_neg hne, firstsBy_of_nodup hnodup]

/-- The projects of a document that is read anew. -/
theorem projects_document (hne : sheet.projects ≠ []) (hnodup : (sheet.projects.map ProjectSheet.id).Nodup) :
    normalizedProjects sheet.document = sheet.projects.map fun p =>
      ({ p with organization := settleOrganization sheet.document.settings p.organization } : ProjectSheet).clean := by
  have hkeep : sheet.document.projects = sheet.projects.map fun p => ⟨p.id, some p.organization, p.details⟩ := rfl
  have hids : (sheet.document.projects.map ProjectRecord.id).Nodup := by
    rw [hkeep, List.map_map]
    exact hnodup
  have hempty : sheet.document.projects.isEmpty = false := by simpa [hkeep] using hne
  rw [normalizedProjects, if_neg (by simp [hempty]), firstsBy_of_nodup hids, hkeep, List.map_map]
  rfl

theorem Sheet.Normal.projectIds (h : sheet.Normal L) : (sheet.projects.map ProjectSheet.id).Nodup := by
  have hprojects := h.workspace.projects
  rw [Sheet.workspace, List.map_map] at hprojects
  exact hprojects

theorem Sheet.Normal.populated (h : sheet.Normal L) : sheet.projects ≠ [] := by
  intro hempty
  have hpopulated := h.workspace.populated
  rw [Sheet.workspace, hempty] at hpopulated
  exact hpopulated rfl

/-- Reading a stored document gives it back, with its names cleaned. -/
theorem normalizeDocument_document (h : sheet.Normal L) : normalizeDocument L sheet.document = sheet.cleaned := by
  have hsettings := document_settings h
  have horganizations := organizations_document h.inhabited h.workspace.organizations
  have hactive : activeOrganization sheet.document.settings = sheet.activeOrganization := rfl
  have hprojects : normalizedProjects sheet.document = sheet.projects.map ProjectSheet.clean := by
    rw [projects_document h.populated h.projectIds]
    refine List.map_congr_left fun p hp => ?_
    have hsettled : sheet.workspace.Settled p.organization :=
      h.workspace.settled ⟨p.id, p.organization⟩ (List.mem_map_of_mem hp)
    rw [hsettings, settleOrganization_settings h.workspace hsettled]
  have hmembers : (normalizeWorkspace L sheet.document.settings).members = sheet.members := by
    rw [hsettings, normalizeWorkspace_settings h.workspace]
    rfl
  have hproject : (sheet.projects.map ProjectSheet.clean).any (fun p => p.id = sheet.activeProject) = true := by
    rw [List.any_map]
    exact h.activeProject
  have hdocument : sheet.document.activeProject = some sheet.activeProject := rfl
  rw [normalizeDocument, horganizations, hactive, hprojects, hmembers, hdocument, Sheet.cleaned, Sheet.mapDetails,
    h.organization, pick_map clean_id _ _ h.inhabited]
  simp only [hproject, if_true]
  rfl

end

end YiQiao
