import YiQiao.Server.Document

/-!
# How a workspace evolves

The operations on the workspace document, one after another from the default one. Every operation normalizes the
document before it changes it, and the next one normalizes what it left.
-/

namespace YiQiao

open Lib

/-! ## The operations -/

/-- What `_new_scoped_id` takes of a new UUID. -/
abbrev HexToken := { s : String // s.length = 12 ∧ s.toList.all (· ∈ "0123456789abcdef".toList) = true }

/-- `_new_scoped_id`. -/
def newScopedId (kind : String) (token : HexToken) : ScopeId :=
  ⟨kind ++ "_" ++ token.val, fun h => by
    have hlength := congrArg String.length h
    rw [String.length_append, token.property.1] at hlength
    exact absurd hlength (by simp)⟩

/-- The patch of `update_project`; `sections` changes the other keys that are allowed. -/
structure ProjectUpdate where
  name : Option String
  description : Option String
  sections : Entries → Entries

def ProjectUpdate.apply (id : ScopeId) (update : ProjectUpdate) (details : ProjectDetails) : ProjectDetails where
  name := match update.name with
    | some name => cleanName name id.val
    | none => details.name
  description := update.description.getD details.description
  sections := update.sections details.sections

/-- The arguments of `upsert_member`. -/
structure MemberUpsert where
  email : String
  role : String
  status : String
  project : Option ScopeId
  organization : Option ScopeId

section
variable (L : Lowering) (doc : Document)

/-- `upsert_member` on the document. -/
def upsertDocumentMember (member : MemberUpsert) : Document :=
  let sheet := normalizeDocument L doc
  let organization := (((member.project.bind sheet.findProject).map ProjectSheet.organization).or
    member.organization).getD sheet.activeOrganization
  { sheet.document with
    members := (sheet.members.filter fun m => ¬ m.isAt L member.email member.project organization).map Member.entry ++
      [⟨L.lower member.email, some (normalizeMemberRole L (some member.role)).text, some member.status,
        member.project, some organization⟩] }

/-- `remove_member` on the document. -/
def removeDocumentMember (email : String) (project organization : Option ScopeId) : Document :=
  let sheet := normalizeDocument L doc
  let organization := (organization.or
    ((project.bind sheet.findProject).map ProjectSheet.organization)).getD sheet.activeOrganization
  { sheet.document with
    members := (sheet.members.filter fun m => ¬ m.isAt L email project organization).map Member.entry }

/-- The operations, with the tokens that are drawn for what they create. -/
inductive WorkspaceOperation where
  | createOrganization (name : String) (token : HexToken)
  | updateOrganization (id : ScopeId) (name : Option String)
  | deleteOrganization (id : ScopeId)
  | createProject (organization : ScopeId) (name : String) (token : HexToken)
  | updateProject (id : ScopeId) (update : ProjectUpdate)
  | deleteProject (id : ScopeId)
  | upsertMember (member : MemberUpsert)
  | removeMember (email : String) (project organization : Option ScopeId)
  | activateMember (email : String)
  | replaceMemberEmail (oldEmail newEmail : String)

def WorkspaceOperation.apply : WorkspaceOperation → Document
  | .createOrganization name token => (YiQiao.createOrganization L doc name (newScopedId "org" token)).document
  | .updateOrganization id (some name) => (YiQiao.updateOrganization L doc id name).document
  | .updateOrganization _ none => (normalizeDocument L doc).document
  | .deleteOrganization id => (YiQiao.deleteOrganization L doc id).document
  | .createProject organization name token =>
      (YiQiao.createProject L doc organization name "" (newScopedId "project" token)).document
  | .updateProject id update => (YiQiao.updateProject L doc id (update.apply id)).document
  | .deleteProject id => (YiQiao.deleteProject L doc id).document
  | .upsertMember member => upsertDocumentMember L doc member
  | .removeMember email project organization => removeDocumentMember L doc email project organization
  | .activateMember email => (YiQiao.activateMember L doc email).document
  | .replaceMemberEmail oldEmail newEmail => (replaceDocumentEmail L doc oldEmail newEmail).document

def runOperations (operations : List WorkspaceOperation) : Document :=
  operations.foldl (fun doc operation => operation.apply L doc) doc

end

/-- `DEFAULT_WORKSPACE_SETTINGS`. -/
def defaultDocument : Document where
  organization := some defaultOrganization
  organizations := [defaultOrganization]
  activeOrganization := some defaultOrgId
  activeProject := some defaultProject.id
  projects := [defaultProjectRecord]
  members := []
  sections := newSections

/-! ## Well-formed workspaces -/

structure Sheet.WellFormed (sheet : Sheet) : Prop where
  organizations : (sheet.organizations.map Organization.id).Nodup
  projects : (sheet.projects.map ProjectSheet.id).Nodup
  projectOrganizations : ∀ p ∈ sheet.projects, p.organization ∈ sheet.organizations.map Organization.id
  memberOrganizations : ∀ m ∈ sheet.members, m.organization ∈ sheet.organizations.map Organization.id
  memberProjects : ∀ m ∈ sheet.members, ∀ id, m.project = some id →
    ∃ p ∈ sheet.projects, p.id = id ∧ m.organization = p.organization
  memberships : (sheet.members.map Member.key).Nodup
  activeOrganization : sheet.activeOrganization ∈ sheet.organizations.map Organization.id
  activeProject : sheet.activeProject ∈ sheet.projects.map ProjectSheet.id

/-- The id has no blanks around it. -/
def Tidy (id : ScopeId) : Prop := strip id.val = id.val

/-- What every operation keeps of the document it leaves. -/
structure Document.Sound (doc : Document) : Prop where
  active : ∃ active, doc.activeOrganization = some active ∧ active ∈ doc.organizations.map Organization.id
  base : defaultOrgId ∈ doc.organizations.map Organization.id
  populated : doc.projects ≠ []
  tidyOrganizations : ∀ organization ∈ doc.organizations, Tidy organization.id
  tidyProjects : ∀ p ∈ doc.projects, Tidy p.id
  projects : ∀ p ∈ doc.projects, ∃ organization ∈ doc.organizations, p.organization = some organization.id
  members : ∀ m ∈ doc.members, ∀ p ∈ doc.projects, m.project = some p.id → m.organization = p.organization

/-- The same of a normalized document. -/
structure Sheet.Sound (sheet : Sheet) : Prop where
  active : sheet.activeOrganization ∈ sheet.organizations.map Organization.id
  base : defaultOrgId ∈ sheet.organizations.map Organization.id
  populated : sheet.projects ≠ []
  tidyOrganizations : ∀ organization ∈ sheet.organizations, Tidy organization.id
  tidyProjects : ∀ p ∈ sheet.projects, Tidy p.id
  projects : ∀ p ∈ sheet.projects, p.organization ∈ sheet.organizations.map Organization.id
  members : ∀ m ∈ sheet.members, ∀ p ∈ sheet.projects, m.project = some p.id → m.organization = p.organization

section
variable {L : Lowering} {doc : Document} {sheet : Sheet}

theorem Sheet.Sound.wellFormed (h : sheet.Sound) (hnormal : sheet.Normal L) : sheet.WellFormed where
  organizations := hnormal.workspace.organizations
  projects := hnormal.projectIds
  projectOrganizations := h.projects
  memberOrganizations := by
    intro m hm
    rcases (hnormal.workspace.members m hm).settled with hsettled | hactive
    · exact hsettled
    · exact hactive ▸ h.active
  memberProjects := by
    intro m hm id hid
    have hproject := (hnormal.workspace.members m hm).project id hid
    obtain ⟨project, hmem, rfl⟩ := List.mem_map.mp hproject
    obtain ⟨p, hp, rfl⟩ := List.mem_map.mp hmem
    exact ⟨p, hp, rfl, h.members m hm p hp hid⟩
  memberships := hnormal.workspace.keys
  activeOrganization := h.active
  activeProject := by
    obtain ⟨p, hp, hid⟩ := List.any_eq_true.mp hnormal.activeProject
    exact of_decide_eq_true hid ▸ List.mem_map_of_mem hp

/-! ## Normalizing a sound document -/

theorem cleanName_clean {id : ScopeId} (h : Tidy id) (name : String) :
    cleanName (cleanName name id.val) id.val = cleanName name id.val := by
  unfold cleanName
  by_cases hname : strip name = ""
  · rw [if_pos hname, h, if_neg id.property]
  · rw [if_neg hname, strip_strip, if_neg hname]

theorem mem_normalizedOrganizations (hne : doc.organizations ≠ []) {organization : Organization} :
    organization ∈ normalizedOrganizations doc → ∃ o ∈ doc.organizations, organization = o.clean := by
  rw [normalizedOrganizations, if_neg hne]
  intro h
  obtain ⟨o, ho, rfl⟩ := List.mem_map.mp h
  exact ⟨o, (firstsBy_sublist _).subset ho, rfl⟩

theorem organizations_kept (hne : doc.organizations ≠ []) {id : ScopeId} (h : id ∈ doc.organizations.map Organization.id) :
    id ∈ (normalizedOrganizations doc).map Organization.id := by
  obtain ⟨o, ho, rfl⟩ := List.mem_map.mp h
  have hclean : (normalizedOrganizations doc).map Organization.id =
      (firstsBy Organization.id doc.organizations).map Organization.id := by
    rw [normalizedOrganizations, if_neg hne, List.map_map]
    rfl
  rw [hclean]
  exact key_mem_firstsBy ho

theorem Document.Sound.nonempty (h : doc.Sound) : doc.organizations ≠ [] := by
  intro hempty
  have hbase := h.base
  rw [hempty] at hbase
  cases hbase

theorem Document.Sound.settle (h : doc.Sound) {id : ScopeId} (hid : id ∈ doc.organizations.map Organization.id) :
    settleOrganization doc.settings id = id := by
  rw [settleOrganization, if_pos]
  rw [← organizations_ids]
  exact organizations_kept h.nonempty hid

theorem mem_normalizedProjects (h : doc.Sound) {p : ProjectSheet} (hp : p ∈ normalizedProjects doc) :
    ∃ record ∈ doc.projects, p.id = record.id ∧ record.organization = some p.organization ∧
      p.details = { record.details with name := cleanName record.details.name record.id.val } := by
  have hempty : doc.projects.isEmpty = false := by simpa using h.populated
  rw [normalizedProjects, if_neg (by simp [hempty])] at hp
  obtain ⟨record, hrecord, rfl⟩ := List.mem_map.mp hp
  have hmem := (firstsBy_sublist _).subset hrecord
  obtain ⟨organization, horg, hsome⟩ := h.projects record hmem
  refine ⟨record, hmem, rfl, ?_, rfl⟩
  rw [hsome, Option.getD_some, h.settle (List.mem_map_of_mem horg)]

theorem Document.Sound.normalize (L : Lowering) (h : doc.Sound) : (normalizeDocument L doc).Sound where
  active := by
    obtain ⟨active, hsome, hmem⟩ := h.active
    have hactive : (normalizeDocument L doc).activeOrganization = active := by
      change YiQiao.activeOrganization doc.settings = active
      simp [YiQiao.activeOrganization, Document.settings, hsome]
    rw [hactive]
    exact organizations_kept h.nonempty hmem
  base := organizations_kept h.nonempty h.base
  populated := (normal_normalizeDocument L doc).populated
  tidyOrganizations := by
    intro organization horg
    obtain ⟨o, ho, rfl⟩ := mem_normalizedOrganizations h.nonempty horg
    exact h.tidyOrganizations o ho
  tidyProjects := by
    intro p hp
    obtain ⟨record, hrecord, hid, _⟩ := mem_normalizedProjects h hp
    exact hid ▸ h.tidyProjects record hrecord
  projects := by
    intro p hp
    obtain ⟨record, hrecord, _, hsome, _⟩ := mem_normalizedProjects h hp
    obtain ⟨organization, horg, hsome'⟩ := h.projects record hrecord
    rw [Option.some.inj (hsome.symm.trans hsome')]
    exact organizations_kept h.nonempty (List.mem_map_of_mem horg)
  members := by
    intro m hm p hp hproject
    obtain ⟨entry, hentry, hnormal⟩ := List.mem_filterMap.mp ((firstsBy_sublist _).subset hm)
    obtain ⟨record, hrecord, hid, hsome, _⟩ := mem_normalizedProjects h hp
    obtain ⟨organization, horg, hsome'⟩ := h.projects record hrecord
    have hsame : p.organization = organization.id := Option.some.inj (hsome.symm.trans hsome')
    rw [normalizeMember] at hnormal
    split at hnormal
    · cases hnormal
    · split at hnormal
      · cases hnormal
      · cases hnormal
        have hkept : entry.organization = record.organization := h.members entry hentry record hrecord (hid ▸ hproject)
        rw [memberOrganization, hkept, hsome, Option.some_or, Option.getD_some]
        exact h.settle (hsame ▸ List.mem_map_of_mem horg)

/-- A sound document is normalized once and for all. -/
theorem Document.Sound.fixed (L : Lowering) (h : doc.Sound) :
    normalizeDocument L (normalizeDocument L doc).document = normalizeDocument L doc := by
  have hnormal := normal_normalizeDocument L doc
  rw [normalizeDocument_document hnormal, Sheet.cleaned, Sheet.mapDetails]
  have horganization : ∀ organization ∈ (normalizeDocument L doc).organizations, organization.clean = organization := by
    intro organization horg
    obtain ⟨o, ho, rfl⟩ := mem_normalizedOrganizations h.nonempty horg
    rw [Organization.clean, Organization.clean]
    dsimp only
    rw [cleanName_clean (h.tidyOrganizations o ho)]
  have hproject : ∀ p ∈ (normalizeDocument L doc).projects, p.clean = p := by
    intro p hp
    obtain ⟨record, hrecord, hid, _, hdetails⟩ := mem_normalizedProjects h hp
    obtain ⟨id, organization, details⟩ := p
    cases hid
    cases hdetails
    rw [ProjectSheet.clean]
    dsimp only
    rw [cleanName_clean (h.tidyProjects record hrecord)]
  have hpicked : (normalizeDocument L doc).organization ∈ (normalizeDocument L doc).organizations := by
    rw [hnormal.organization, pickOrganization]
    obtain ⟨first, rest, hcons⟩ := List.exists_cons_of_ne_nil hnormal.inhabited
    cases hfind : (normalizeDocument L doc).organizations.find? fun organization =>
        organization.id = (normalizeDocument L doc).activeOrganization with
    | none => simp [hcons]
    | some found => exact List.mem_of_find?_eq_some hfind
  rw [(List.map_congr_left horganization).trans (List.map_id _), (List.map_congr_left hproject).trans (List.map_id _),
    horganization _ hpicked]

/-! ## Storing a sound document -/

theorem Sheet.Sound.document (h : sheet.Sound) : sheet.document.Sound where
  active := ⟨sheet.activeOrganization, rfl, h.active⟩
  base := h.base
  populated := by simpa [Sheet.document] using h.populated
  tidyOrganizations := h.tidyOrganizations
  tidyProjects := by
    intro record hrecord
    obtain ⟨p, hp, rfl⟩ := List.mem_map.mp hrecord
    exact h.tidyProjects p hp
  projects := by
    intro record hrecord
    obtain ⟨p, hp, rfl⟩ := List.mem_map.mp hrecord
    obtain ⟨organization, horg, hid⟩ := List.mem_map.mp (h.projects p hp)
    exact ⟨organization, horg, congrArg some hid.symm⟩
  members := by
    intro entry hentry record hrecord hproject
    obtain ⟨m, hm, rfl⟩ := List.mem_map.mp hentry
    obtain ⟨p, hp, rfl⟩ := List.mem_map.mp hrecord
    exact congrArg some (h.members m hm p hp hproject)

/-! ## What each operation keeps -/

/-- A project that is put in place of none belongs to the default organization. -/
theorem mem_orDefaultProject {projects : List ProjectSheet} {p : ProjectSheet} (hp : p ∈ orDefaultProject projects) :
    p ∈ projects ∨ projects = [] ∧ p = ⟨defaultProject.id, defaultOrgId, defaultProjectRecord.details⟩ := by
  rw [orDefaultProject] at hp
  split at hp
  · exact .inr ⟨List.isEmpty_iff.mp ‹_›, List.mem_singleton.mp hp⟩
  · exact .inl hp

theorem orDefaultProject_ne (projects : List ProjectSheet) : orDefaultProject projects ≠ [] := by
  rw [orDefaultProject]
  split
  · exact List.cons_ne_nil _ _
  · rename_i hempty
    exact fun h => hempty (by rw [h]; rfl)

theorem mem_orDefaultProject_of_mem {projects : List ProjectSheet} {p : ProjectSheet} (hp : p ∈ projects) :
    p ∈ orDefaultProject projects := by
  rw [orDefaultProject, if_neg]
  · exact hp
  · intro hempty
    rw [List.isEmpty_iff.mp hempty] at hp
    cases hp

/-- The members, the projects and the organizations may shrink together. -/
theorem Sheet.Sound.shrink (h : sheet.Sound) (hnormal : sheet.Normal L) {sheet' : Sheet}
    (hbase : defaultOrgId ∈ sheet'.organizations.map Organization.id)
    (hactive : sheet'.activeOrganization ∈ sheet'.organizations.map Organization.id)
    (horganizations : ∀ organization ∈ sheet'.organizations, organization ∈ sheet.organizations)
    {kept : List ProjectSheet} (hprojects : sheet'.projects = orDefaultProject kept)
    (hkept : ∀ p ∈ kept, p ∈ sheet.projects ∧ p.organization ∈ sheet'.organizations.map Organization.id)
    (hmembers : ∀ m ∈ sheet'.members, m ∈ sheet.members ∧ ∀ p ∈ sheet.projects, m.project = some p.id → p ∈ kept) :
    sheet'.Sound where
  active := hactive
  base := hbase
  populated := hprojects ▸ orDefaultProject_ne kept
  tidyOrganizations := fun organization horg => h.tidyOrganizations organization (horganizations organization horg)
  tidyProjects := by
    intro p hp
    rcases mem_orDefaultProject (hprojects ▸ hp) with hp | ⟨_, rfl⟩
    · exact h.tidyProjects p (hkept p hp).1
    · change strip "default-project" = "default-project"
      decide
  projects := by
    intro p hp
    rcases mem_orDefaultProject (hprojects ▸ hp) with hp | ⟨_, rfl⟩
    · exact (hkept p hp).2
    · exact hbase
  members := by
    intro m hm p hp hproject
    obtain ⟨hm, hstays⟩ := hmembers m hm
    rcases mem_orDefaultProject (hprojects ▸ hp) with hp | ⟨hempty, rfl⟩
    · exact h.members m hm p (hkept p hp).1 hproject
    · -- the project of a membership is still there
      have hid := (hnormal.workspace.members m hm).project _ hproject
      obtain ⟨project, hmem, hsame⟩ := List.mem_map.mp hid
      obtain ⟨q, hq, rfl⟩ := List.mem_map.mp hmem
      have hgone := hstays q hq (hproject.trans (congrArg some hsame.symm))
      rw [hempty] at hgone
      cases hgone

theorem createOrganization_sound (h : (normalizeDocument L doc).Sound) {name : String} {newId : ScopeId}
    (htidy : Tidy newId) : (YiQiao.createOrganization L doc name newId).Sound := by
  have hgrow : ∀ id, id ∈ (normalizeDocument L doc).organizations.map Organization.id →
      id ∈ (YiQiao.createOrganization L doc name newId).organizations.map Organization.id := by
    intro id hid
    rw [YiQiao.createOrganization]
    dsimp only
    rw [List.map_append]
    exact List.mem_append_left _ hid
  constructor
  · rw [YiQiao.createOrganization]
    simp
  · exact hgrow _ h.base
  · exact h.populated
  · intro organization horg
    rcases List.mem_append.mp horg with horg | hnew
    · exact h.tidyOrganizations organization horg
    · rw [List.mem_singleton.mp hnew]
      exact htidy
  · exact h.tidyProjects
  · exact fun p hp => hgrow _ (h.projects p hp)
  · exact h.members

theorem updateOrganization_sound (h : (normalizeDocument L doc).Sound) (id : ScopeId) (name : String) :
    (YiQiao.updateOrganization L doc id name).Sound := by
  have hids : (YiQiao.updateOrganization L doc id name).organizations.map Organization.id =
      (normalizeDocument L doc).organizations.map Organization.id := by
    rw [YiQiao.updateOrganization]
    dsimp only
    rw [List.map_map]
    refine List.map_congr_left fun organization _ => ?_
    rw [Function.comp]
    split <;> rfl
  refine ⟨hids ▸ h.active, hids ▸ h.base, h.populated, fun organization horg => ?_, h.tidyProjects, fun p hp => ?_,
    h.members⟩
  · obtain ⟨old, hold, rfl⟩ := List.mem_map.mp horg
    split
    · exact h.tidyOrganizations old hold
    · exact h.tidyOrganizations old hold
  · rw [hids]
    exact h.projects p hp

theorem deleteOrganization_sound (h : (normalizeDocument L doc).Sound) (id : ScopeId) :
    (YiQiao.deleteOrganization L doc id).Sound := by
  rw [YiQiao.deleteOrganization]
  dsimp only
  split
  · exact h
  · rename_i hid
    have hnormal := normal_normalizeDocument L doc
    obtain ⟨base, hbase, hbaseId⟩ := List.mem_map.mp h.base
    have hkept : base ∈ (normalizeDocument L doc).organizations.filter fun organization => organization.id ≠ id :=
      List.mem_filter.mpr ⟨hbase, decide_eq_true (hbaseId ▸ Ne.symm hid)⟩
    have hne : (normalizeDocument L doc).organizations.filter (fun organization => organization.id ≠ id) ≠ [] :=
      List.ne_nil_of_mem hkept
    simp only [if_neg hne]
    refine h.shrink hnormal ?_ ?_ (fun organization horg => (List.mem_filter.mp horg).1) rfl ?_ ?_
    · exact hbaseId ▸ List.mem_map_of_mem hkept
    · obtain ⟨first, rest, hcons⟩ := List.exists_cons_of_ne_nil hne
      dsimp only
      rw [hcons]
      exact List.mem_cons_self
    · intro p hp
      obtain ⟨hp, hgone⟩ := List.mem_filter.mp hp
      refine ⟨hp, ?_⟩
      obtain ⟨organization, horg, hsame⟩ := List.mem_map.mp (h.projects p hp)
      refine List.mem_map.mpr ⟨organization, List.mem_filter.mpr ⟨horg, decide_eq_true fun heq => ?_⟩, hsame⟩
      refine (of_decide_eq_true hgone) (List.any_eq_true.mpr ⟨p, hp, ?_⟩)
      simp [← hsame, heq]
    · intro m hm
      obtain ⟨hm, hstays⟩ := List.mem_filter.mp hm
      refine ⟨hm, fun p hp hproject => List.mem_filter.mpr ⟨hp, decide_eq_true fun hgone => ?_⟩⟩
      rw [hproject, Option.any_some, hgone] at hstays
      simp at hstays

theorem createProject_sound (h : (normalizeDocument L doc).Sound) {organization newId : ScopeId} {name : String}
    (horg : organization ∈ (normalizeDocument L doc).organizations.map Organization.id) (htidy : Tidy newId)
    (hfresh : newId ∉ (normalizeDocument L doc).projects.map ProjectSheet.id) :
    (YiQiao.createProject L doc organization name "" newId).Sound where
  active := horg
  base := h.base
  populated := by simp [YiQiao.createProject]
  tidyOrganizations := h.tidyOrganizations
  tidyProjects := by
    intro p hp
    rcases List.mem_append.mp hp with hp | hnew
    · exact h.tidyProjects p hp
    · rw [List.mem_singleton.mp hnew]
      exact htidy
  projects := by
    intro p hp
    rcases List.mem_append.mp hp with hp | hnew
    · exact h.projects p hp
    · rw [List.mem_singleton.mp hnew]
      exact horg
  members := by
    intro m hm p hp hproject
    rcases List.mem_append.mp hp with hp | hnew
    · exact h.members m hm p hp hproject
    · -- nobody is a member of the new project yet
      rw [List.mem_singleton.mp hnew] at hproject
      have hid := ((normal_normalizeDocument L doc).workspace.members m hm).project _ hproject
      obtain ⟨project, hmem, hsame⟩ := List.mem_map.mp hid
      obtain ⟨q, hq, rfl⟩ := List.mem_map.mp hmem
      exact absurd (List.mem_map.mpr ⟨q, hq, hsame⟩) hfresh

theorem updateProject_sound (h : (normalizeDocument L doc).Sound) (id : ScopeId)
    (patch : ProjectDetails → ProjectDetails) : (YiQiao.updateProject L doc id patch).Sound := by
  have hold : ∀ p ∈ (YiQiao.updateProject L doc id patch).projects,
      ∃ old ∈ (normalizeDocument L doc).projects, p.id = old.id ∧ p.organization = old.organization := by
    intro p hp
    obtain ⟨old, hold, rfl⟩ := List.mem_map.mp hp
    refine ⟨old, hold, ?_⟩
    split
    · exact ⟨rfl, rfl⟩
    · exact ⟨rfl, rfl⟩
  refine ⟨h.active, h.base, ?_, h.tidyOrganizations, fun p hp => ?_, fun p hp => ?_, fun m hm p hp hproject => ?_⟩
  · simpa [YiQiao.updateProject] using h.populated
  · obtain ⟨old, hmem, hid, _⟩ := hold p hp
    exact hid ▸ h.tidyProjects old hmem
  · obtain ⟨old, hmem, _, horg⟩ := hold p hp
    exact horg ▸ h.projects old hmem
  · obtain ⟨old, hmem, hid, horg⟩ := hold p hp
    exact horg ▸ h.members m hm old hmem (hid ▸ hproject)

theorem deleteProject_sound (h : (normalizeDocument L doc).Sound) (id : ScopeId) :
    (YiQiao.deleteProject L doc id).Sound := by
  rw [YiQiao.deleteProject]
  dsimp only
  split
  · exact h
  · have hnormal := normal_normalizeDocument L doc
    have hkept : ∀ p ∈ (normalizeDocument L doc).projects.filter fun p => p.id ≠ id,
        p ∈ (normalizeDocument L doc).projects ∧
          p.organization ∈ (normalizeDocument L doc).organizations.map Organization.id := by
      intro p hp
      obtain ⟨hp, _⟩ := List.mem_filter.mp hp
      exact ⟨hp, h.projects p hp⟩
    have hmembers : ∀ m ∈ (normalizeDocument L doc).members.filter fun m => m.project ≠ some id,
        m ∈ (normalizeDocument L doc).members ∧ ∀ p ∈ (normalizeDocument L doc).projects, m.project = some p.id →
          p ∈ (normalizeDocument L doc).projects.filter fun p => p.id ≠ id := by
      intro m hm
      obtain ⟨hm, hne⟩ := List.mem_filter.mp hm
      refine ⟨hm, fun p hp hproject => List.mem_filter.mpr ⟨hp, decide_eq_true fun hid => ?_⟩⟩
      exact (of_decide_eq_true hne) (hid ▸ hproject)
    split
    · refine h.shrink hnormal h.base ?_ (fun _ horg => horg) rfl hkept hmembers
      dsimp only
      generalize hpick : Option.or (List.find? _ _) _ = picked
      cases picked with
      | none => exact h.base
      | some p =>
          rw [Option.map_some, Option.getD_some]
          have hp : p ∈ orDefaultProject ((normalizeDocument L doc).projects.filter fun p => p.id ≠ id) := by
            rcases Option.or_eq_some_iff.mp hpick with hfound | ⟨_, hhead⟩
            · exact List.mem_of_find?_eq_some hfound
            · exact List.mem_of_mem_head? hhead
          rcases mem_orDefaultProject hp with hp | ⟨_, rfl⟩
          · exact (hkept p hp).2
          · exact h.base
    · exact h.shrink hnormal h.base h.active (fun _ horg => horg) rfl hkept hmembers

theorem activateMember_sound (h : (normalizeDocument L doc).Sound) (email : String) :
    (YiQiao.activateMember L doc email).Sound := by
  refine ⟨h.active, h.base, h.populated, h.tidyOrganizations, h.tidyProjects, h.projects, fun m hm p hp hproject => ?_⟩
  obtain ⟨old, hold, rfl⟩ := List.mem_map.mp hm
  split at hproject
  · rw [if_pos ‹_›]
    exact h.members old hold p hp hproject
  · rw [if_neg ‹_›]
    exact h.members old hold p hp hproject

/-- Where a renamed membership counts does not change. -/
theorem replacedMember_place {m : Member} {oldEmail newEmail : String}
    (hm : m ∈ (replaceDocumentEmail L doc oldEmail newEmail).members) :
    ∃ old ∈ (normalizeDocument L doc).members, m.project = old.project ∧ m.organization = old.organization := by
  have hmembers : (replaceDocumentEmail L doc oldEmail newEmail).members =
      (normalizeWorkspace L (replaceMemberEmail L doc.settings oldEmail newEmail)).members := rfl
  have hnormal := normal_normalizeWorkspace L doc.settings
  rw [hmembers, replaceMemberEmail] at hm
  split at hm
  · rw [normalizeWorkspace_settings hnormal] at hm
    exact ⟨m, hm, rfl, rfl⟩
  · rename_i hchange
    have hnew : L.lower (strip (L.lower (strip newEmail))) = L.lower (strip newEmail) := by
      rw [L.strip_lower, L.lower_lower, strip_strip]
    rw [normalizeWorkspace_settings (normal_normalizeWorkspace L _),
      normalize_renamed hnormal (fun h => hchange (.inr (.inl h))) hnew] at hm
    obtain ⟨front, first, back, hsplit, rfl, _⟩ := mem_renamed.mp hm
    refine ⟨first, ?_, rename_project first, rename_organization first⟩
    change first ∈ (normalizeWorkspace L doc.settings).members
    rw [hsplit]
    exact List.mem_append_right _ List.mem_cons_self

theorem replaceDocumentEmail_sound (h : (normalizeDocument L doc).Sound) (oldEmail newEmail : String) :
    (replaceDocumentEmail L doc oldEmail newEmail).Sound := by
  refine ⟨h.active, h.base, h.populated, h.tidyOrganizations, h.tidyProjects, h.projects, fun m hm p hp hproject => ?_⟩
  obtain ⟨old, hold, hplace, horg⟩ := replacedMember_place hm
  exact horg ▸ h.members old hold p hp (hplace ▸ hproject)

/-- A document may have other memberships, each in the organization of its project. -/
theorem Sheet.Sound.withMembers (h : sheet.Sound) {members : List MemberEntry}
    (hmembers : ∀ m ∈ members, ∀ p ∈ sheet.projects, m.project = some p.id → m.organization = some p.organization) :
    Document.Sound { sheet.document with members } := by
  have hdocument := h.document
  refine ⟨hdocument.active, hdocument.base, hdocument.populated, hdocument.tidyOrganizations, hdocument.tidyProjects,
    hdocument.projects, fun m hm record hrecord hproject => ?_⟩
  obtain ⟨p, hp, rfl⟩ := List.mem_map.mp hrecord
  exact hmembers m hm p hp hproject

theorem removeDocumentMember_sound (h : (normalizeDocument L doc).Sound) (email : String)
    (project organization : Option ScopeId) : (removeDocumentMember L doc email project organization).Sound := by
  refine h.withMembers fun entry hentry p hp hproject => ?_
  obtain ⟨m, hm, rfl⟩ := List.mem_map.mp hentry
  exact congrArg some (h.members m (List.mem_filter.mp hm).1 p hp hproject)

theorem findProject_of_mem (hids : (sheet.projects.map ProjectSheet.id).Nodup) {p : ProjectSheet}
    (hp : p ∈ sheet.projects) : sheet.findProject p.id = some p := by
  have hfound : (sheet.findProject p.id).isSome := by
    rw [Sheet.findProject, List.find?_isSome]
    exact ⟨p, hp, by simp⟩
  obtain ⟨q, hq⟩ := Option.isSome_iff_exists.mp hfound
  have hid : q.id = p.id := by simpa using List.find?_some hq
  rw [hq, List.inj_on_of_nodup_map hids (List.mem_of_find?_eq_some hq) hp hid]

theorem upsertDocumentMember_sound (h : (normalizeDocument L doc).Sound) (member : MemberUpsert) :
    (upsertDocumentMember L doc member).Sound := by
  refine h.withMembers fun entry hentry p hp hproject => ?_
  rcases List.mem_append.mp hentry with hold | hnew
  · obtain ⟨m, hm, rfl⟩ := List.mem_map.mp hold
    exact congrArg some (h.members m (List.mem_filter.mp hm).1 p hp hproject)
  · rw [List.mem_singleton.mp hnew] at hproject ⊢
    have hnamed : member.project = some p.id := hproject
    have hfind := findProject_of_mem (normal_normalizeDocument L doc).projectIds hp
    simp [hnamed, hfind]

/-! ## Whole runs -/

/-- What is drawn is the id of nothing that is there. -/
def WorkspaceOperation.Fresh (L : Lowering) (doc : Document) : WorkspaceOperation → Prop
  | .createOrganization _ token =>
      newScopedId "org" token ∉ (normalizeDocument L doc).organizations.map Organization.id
  | .createProject _ _ token => newScopedId "project" token ∉ (normalizeDocument L doc).projects.map ProjectSheet.id
  | _ => True

/-- A project is created in an organization that is there, as the route makes sure. -/
def WorkspaceOperation.Housed (L : Lowering) (doc : Document) : WorkspaceOperation → Prop
  | .createProject organization _ _ => organization ∈ (normalizeDocument L doc).organizations.map Organization.id
  | _ => True

/-- Every operation meets the condition in the document that it finds. -/
def Throughout (L : Lowering) (P : Document → WorkspaceOperation → Prop) : Document → List WorkspaceOperation → Prop
  | _, [] => True
  | doc, operation :: rest => P doc operation ∧ Throughout L P (operation.apply L doc) rest

theorem hex_visible : ("0123456789abcdef".toList.all fun c => !isSpace c) = true := rfl

theorem tidy_newScopedId {kind : String} (token : HexToken) {first : Char} {rest : List Char}
    (hkind : kind.toList = first :: rest) (hfirst : isSpace first = false) : Tidy (newScopedId kind token) := by
  have hid : (newScopedId kind token).val.toList = first :: (rest ++ '_' :: token.val.toList) := by
    change (kind ++ "_" ++ token.val).toList = _
    rw [String.toList_append, String.toList_append, hkind, List.append_assoc]
    rfl
  have htoken : token.val.toList ≠ [] := by
    intro hempty
    have hlength := token.property.1
    rw [← String.length_toList, hempty] at hlength
    cases hlength
  obtain ⟨front, last, hends⟩ := List.eq_nil_or_concat' token.val.toList |>.resolve_left htoken
  have hlast : isSpace last = false := by
    have hhex : last ∈ "0123456789abcdef".toList := by
      have hall := token.property.2
      rw [hends, List.all_append] at hall
      simpa using (Bool.and_eq_true_iff.mp hall).2
    simpa using List.all_eq_true.mp hex_visible last hhex
  rw [Tidy, strip, hid, List.dropWhile_cons_of_neg (by simp [hfirst]), hends]
  have hreverse : (first :: (rest ++ '_' :: (front ++ [last]))).reverse =
      last :: (first :: (rest ++ '_' :: front)).reverse := by simp
  rw [hreverse, List.dropWhile_cons_of_neg (by simp [hlast]), ← hreverse, List.reverse_reverse, ← hends, ← hid,
    String.ofList_toList]

theorem apply_sound (h : doc.Sound) {operation : WorkspaceOperation} (hfresh : operation.Fresh L doc)
    (hhoused : operation.Housed L doc) :
    (operation.apply L doc).Sound := by
  have hsheet := h.normalize L
  cases operation with
  | createOrganization name token =>
      exact (createOrganization_sound hsheet (tidy_newScopedId token rfl (by decide))).document
  | updateOrganization id name =>
      cases name with
      | none => exact hsheet.document
      | some name => exact (updateOrganization_sound hsheet id name).document
  | deleteOrganization id => exact (deleteOrganization_sound hsheet id).document
  | createProject organization name token =>
      exact (createProject_sound hsheet hhoused (tidy_newScopedId token rfl (by decide)) hfresh).document
  | updateProject id update => exact (updateProject_sound hsheet id _).document
  | deleteProject id => exact (deleteProject_sound hsheet id).document
  | upsertMember member => exact upsertDocumentMember_sound hsheet member
  | removeMember email project organization => exact removeDocumentMember_sound hsheet email project organization
  | activateMember email => exact (activateMember_sound hsheet email).document
  | replaceMemberEmail oldEmail newEmail => exact (replaceDocumentEmail_sound hsheet oldEmail newEmail).document

theorem run_sound {operations : List WorkspaceOperation} (h : doc.Sound)
    (hfresh : Throughout L (WorkspaceOperation.Fresh L) doc operations)
    (hhoused : Throughout L (WorkspaceOperation.Housed L) doc operations) :
    (runOperations L doc operations).Sound := by
  induction operations generalizing doc with
  | nil => exact h
  | cons operation rest ih => exact ih (apply_sound h hfresh.1 hhoused.1) hfresh.2 hhoused.2

theorem defaultDocument_sound : defaultDocument.Sound where
  active := ⟨defaultOrgId, rfl, List.mem_singleton.mpr rfl⟩
  base := List.mem_singleton.mpr rfl
  populated := List.cons_ne_nil _ _
  tidyOrganizations := by
    intro organization horg
    rw [List.mem_singleton.mp horg]
    change strip "org_default" = "org_default"
    decide
  tidyProjects := by
    intro p hp
    rw [List.mem_singleton.mp hp]
    change strip "default-project" = "default-project"
    decide
  projects := fun p hp => ⟨defaultOrganization, List.mem_singleton.mpr rfl, by rw [List.mem_singleton.mp hp]; rfl⟩
  members := by
    intro m hm
    cases hm

end

/-- The normalized workspace is well formed, and normalizing it changes nothing. -/
def WellKept (L : Lowering) (doc : Document) : Prop :=
  (normalizeDocument L doc).WellFormed ∧
    normalizeDocument L (normalizeDocument L doc).document = normalizeDocument L doc

/-- Whatever the operations, as long as projects are created in organizations that are there. -/
theorem workspace_stays_well_formed (L : Lowering) (operations : List WorkspaceOperation)
    (hfresh : Throughout L (WorkspaceOperation.Fresh L) defaultDocument operations)
    (hhoused : Throughout L (WorkspaceOperation.Housed L) defaultDocument operations) :
    WellKept L (runOperations L defaultDocument operations) := by
  have hsound := run_sound defaultDocument_sound hfresh hhoused
  exact ⟨(hsound.normalize L).wellFormed (normal_normalizeDocument L _), hsound.fixed L⟩

def betaToken : HexToken := ⟨"0b5e7a5a5a5b", by decide⟩

/-- A second organization with a project, whose member then changes the address. -/
def betaOperations : List WorkspaceOperation :=
  [.createOrganization "Beta" betaToken, .createProject (newScopedId "org" betaToken) "Notes" betaToken,
    .upsertMember ⟨"dora@example.com", "editor", "invited", some (newScopedId "project" betaToken), none⟩,
    .activateMember "dora@example.com", .replaceMemberEmail "dora@example.com" "dora@example.org",
    .deleteOrganization (newScopedId "org" betaToken)]

theorem beta_stays_well_formed :
    WellKept Lowering.ascii (runOperations Lowering.ascii defaultDocument betaOperations) := by
  refine workspace_stays_well_formed Lowering.ascii betaOperations ?_ ?_
  · refine ⟨?_, ?_, trivial, trivial, trivial, trivial, trivial⟩
    · unfold WorkspaceOperation.Fresh
      decide
    · unfold WorkspaceOperation.Fresh
      decide
  · refine ⟨trivial, ?_, trivial, trivial, trivial, trivial, trivial⟩
    unfold WorkspaceOperation.Housed
    decide

/-- `create_project` takes the organization as it is given. -/
theorem stray_project : ¬ ∀ operations : List WorkspaceOperation,
    Throughout Lowering.ascii (WorkspaceOperation.Fresh Lowering.ascii) defaultDocument operations →
      WellKept Lowering.ascii (runOperations Lowering.ascii defaultDocument operations) := by
  intro h
  have hfresh : WorkspaceOperation.Fresh Lowering.ascii defaultDocument
      (.createProject ⟨"org_gone", by decide⟩ "Stray" betaToken) := by
    unfold WorkspaceOperation.Fresh
    decide
  have hactive := (h [_] ⟨hfresh, trivial⟩).1.activeOrganization
  revert hactive
  decide

end YiQiao
