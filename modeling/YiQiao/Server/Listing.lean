import YiQiao.Server.Secrecy

/-!
# Listing and reading

A user finds an organization in the list when one of its projects is visible, and reads it directly with a role in it or
in one of its projects.
-/

namespace YiQiao

open Lib

variable {L : Lowering} {account : Account} {doc : Document}

/-- A user that is signed in. -/
def Account.caller (account : Account) : Caller := ⟨.bearer, some account⟩

section

variable (L : Lowering) (account : Account) (doc : Document)

/-- The list of organizations names the organization. -/
def ListsOrg (orgId : ScopeId) : Prop :=
  ∃ organizations, listOrganizations L account.caller doc = .ok ⟨none, .organizations organizations⟩ ∧
    orgId ∈ organizations.map Organization.id

def ReadsOrg (orgId : ScopeId) : Prop := ∃ answer, getOrg L account.caller doc orgId = .ok answer

/-- The project is among the projects of the workspace that the user sees. -/
def ListsProject (orgId projectId : ScopeId) : Prop :=
  ∃ sheet, getWorkspaceSettings L account.caller doc = .ok ⟨none, .sheet sheet⟩ ∧
    ∃ p ∈ sheet.projects, p.id = projectId ∧ p.organization = orgId

def ReadsProject (orgId projectId : ScopeId) : Prop :=
  ∃ answer, getProject L account.caller doc orgId projectId = .ok answer

/-- The two ways to an organization or a project agree. -/
structure PathsAgree : Prop where
  organizations : ∀ orgId, ListsOrg L account doc orgId ↔ ReadsOrg L account doc orgId
  projects : ∀ orgId projectId, ListsProject L account doc orgId projectId ↔ ReadsProject L account doc orgId projectId

end

/-! ## Roles in an organization -/

theorem memberRole_isSome {sheet : Sheet} {email : Option String} (hids : (sheet.projects.map ProjectSheet.id).Nodup)
    {p : ProjectSheet} (hp : p ∈ sheet.projects) : (memberRole L sheet.workspace email p.id).isSome = true ↔
      ∃ address, email = some address ∧ address ≠ "" ∧ ∃ m ∈ sheet.members, m.isOf L email = true ∧
        m.status = .active ∧ (m.project = some p.id ∨ m.project = none ∧ m.organization = p.organization) := by
  have hfind : findProject sheet.workspace p.id = some ⟨p.id, p.organization⟩ := by
    have hmem : (⟨p.id, p.organization⟩ : Project) ∈ sheet.workspace.projects := List.mem_map_of_mem hp
    have hsome : (findProject sheet.workspace p.id).isSome = true := by
      rw [findProject, List.find?_isSome]
      exact ⟨_, hmem, decide_eq_true rfl⟩
    obtain ⟨found, hfound⟩ := Option.isSome_iff_exists.mp hsome
    have hid : found.id = p.id := by simpa using List.find?_some hfound
    obtain ⟨p', hp', rfl⟩ := List.mem_map.mp (List.mem_of_find?_eq_some hfound)
    rw [hfound, List.inj_on_of_nodup_map hids hp' hp hid]
  rw [memberRole, activeRoles_isSome]
  refine exists_congr fun address => and_congr_right fun _ => and_congr_right fun _ => exists_congr fun m =>
    and_congr_right fun _ => and_congr_right fun _ => and_congr_right fun _ => ?_
  cases m.project with
  | none => simp [hfind]
  | some id => simp

theorem organizationAccessRole_isSome {sheet : Sheet} {email : Option String} {orgId : ScopeId} :
    (organizationAccessRole L sheet.workspace email orgId).isSome = true ↔
      (organizationRole L sheet.workspace email orgId).isSome = true ∨
        ∃ address, email = some address ∧ address ≠ "" ∧ ∃ m ∈ sheet.members, m.isOf L email = true ∧
          m.status = .active ∧ ∃ p ∈ sheet.projects, m.project = some p.id ∧ p.organization = orgId := by
  rw [organizationAccessRole, strongestRole_isSome, activeRoles_isSome]
  refine or_congr_right <| exists_congr fun address => and_congr_right fun _ => and_congr_right fun _ =>
    exists_congr fun m => and_congr_right fun _ => and_congr_right fun _ => and_congr_right fun _ => ?_
  rw [Sheet.workspace]
  cases m.project with
  | none => simp
  | some id =>
      simp only [Option.any_some, List.any_map, List.any_eq_true, Function.comp, Bool.and_eq_true,
        decide_eq_true_eq, Option.some.injEq]
      exact exists_congr fun p => and_congr_right fun _ => and_congr_left fun _ => eq_comm

/-- An organization with a visible project is one the user has a role in, and the other way round where it has a
project at all. -/
theorem visible_organization_iff {sheet : Sheet} {email : Option String} {orgId : ScopeId}
    (hids : (sheet.projects.map ProjectSheet.id).Nodup) :
    (∃ p ∈ visibleProjects L sheet email, p.organization = orgId) ↔
      (organizationAccessRole L sheet.workspace email orgId).isSome = true ∧
        ∃ p ∈ sheet.projects, p.organization = orgId := by
  rw [organizationAccessRole_isSome, organizationRole, activeRoles_isSome]
  constructor
  · rintro ⟨p, hvisible, horg⟩
    obtain ⟨hp, hrole⟩ := mem_visibleProjects.mp hvisible
    obtain ⟨address, hemail, hne, m, hm, hisOf, hactive, hproject | ⟨hproject, hmember⟩⟩ :=
      (memberRole_isSome hids hp).mp hrole
    · exact ⟨.inr ⟨address, hemail, hne, m, hm, hisOf, hactive, p, hp, hproject, horg⟩, p, hp, horg⟩
    · refine ⟨.inl ⟨address, hemail, hne, m, hm, hisOf, hactive, ?_⟩, p, hp, horg⟩
      simp [hproject, hmember, horg]
  · rintro ⟨⟨address, hemail, hne, m, hm, hisOf, hactive, hcounts⟩ |
      ⟨address, hemail, hne, m, hm, hisOf, hactive, p, hp, hproject, horg⟩, p', hp', horg'⟩
    · simp only [Bool.and_eq_true, decide_eq_true_eq] at hcounts
      refine ⟨p', mem_visibleProjects.mpr ⟨hp', (memberRole_isSome hids hp').mpr ?_⟩, horg'⟩
      exact ⟨address, hemail, hne, m, hm, hisOf, hactive, .inr ⟨hcounts.1, hcounts.2.trans horg'.symm⟩⟩
    · refine ⟨p, mem_visibleProjects.mpr ⟨hp, (memberRole_isSome hids hp).mpr ?_⟩, horg⟩
      exact ⟨address, hemail, hne, m, hm, hisOf, hactive, .inl hproject⟩

/-! ## The routes -/

theorem view_of_user (hadmin : account.isAdmin = false) (sheet : Sheet) :
    view L account.caller sheet = visibleWorkspace L sheet (some account.email) false := by
  have hglobal : isGlobalAdmin account.caller = false := by simp [isGlobalAdmin, Account.caller, hadmin]
  rw [view, hglobal]
  rfl

theorem listsOrg_iff (hadmin : account.isAdmin = false) {orgId : ScopeId} : ListsOrg L account doc orgId ↔
    orgId ∈ (normalizeDocument L doc).organizations.map Organization.id ∧
      ∃ p ∈ visibleProjects L (normalizeDocument L doc) (some account.email), p.organization = orgId := by
  have hlist : listOrganizations L account.caller doc = .ok ⟨none, .organizations
      (visibleWorkspace L (normalizeDocument L doc) (some account.email) false).organizations⟩ := by
    rw [listOrganizations, view_of_user hadmin]
    rfl
  rw [ListsOrg, hlist]
  constructor
  · rintro ⟨organizations, hsame, hmem⟩
    cases hsame
    obtain ⟨organization, horg, rfl⟩ := List.mem_map.mp hmem
    obtain ⟨hmem, hany⟩ := List.mem_filter.mp horg
    obtain ⟨p, hp, heq⟩ := List.any_eq_true.mp hany
    exact ⟨List.mem_map_of_mem hmem, p, hp, of_decide_eq_true heq⟩
  · rintro ⟨hmem, p, hp, heq⟩
    obtain ⟨organization, horg, rfl⟩ := List.mem_map.mp hmem
    refine ⟨_, rfl, List.mem_map_of_mem (List.mem_filter.mpr ⟨horg, ?_⟩)⟩
    exact List.any_eq_true.mpr ⟨p, hp, decide_eq_true heq⟩

theorem ensureReads_user (hadmin : account.isAdmin = false) {role : Option Role} {detail : String} :
    (∃ u, ensureReads account.caller role detail = .ok u) ↔ role.isSome = true := by
  have hglobal : isGlobalAdmin account.caller = false := by simp [isGlobalAdmin, Account.caller, hadmin]
  have hdeny : denyProjectApiKeyControlPlane account.caller = .ok () := rfl
  simp only [ensureReads, hdeny, hglobal, require, Bool.false_eq_true, false_or]
  cases role.isSome with
  | true => simp [bind, Except.bind]
  | false => simp [bind, Except.bind]

theorem readsOrg_iff (hadmin : account.isAdmin = false) {orgId : ScopeId} : ReadsOrg L account doc orgId ↔
    orgId ∈ (normalizeDocument L doc).organizations.map Organization.id ∧
      (organizationAccessRole L (normalizeDocument L doc).workspace (some account.email) orgId).isSome = true := by
  have hreads : (∃ u, ensureReads account.caller (organizationAccessRole L (normalizeDocument L doc).workspace
      (some account.email) orgId) "Organization access denied." = .ok u) ↔ _ := ensureReads_user hadmin
  have hfound : (∃ organization, findOrg (normalizeDocument L doc) orgId = .ok organization) ↔
      orgId ∈ (normalizeDocument L doc).organizations.map Organization.id := by
    rw [findOrg, Sheet.findOrganization]
    cases hfind : (normalizeDocument L doc).organizations.find? fun organization => organization.id = orgId with
    | none =>
        refine iff_of_false (by simp) fun hmem => ?_
        obtain ⟨organization, horg, hid⟩ := List.mem_map.mp hmem
        exact List.find?_eq_none.mp hfind organization horg (decide_eq_true hid)
    | some organization =>
        refine iff_of_true ⟨organization, rfl⟩ ?_
        have hid : organization.id = orgId := by simpa using List.find?_some hfind
        exact hid ▸ List.mem_map_of_mem (List.mem_of_find?_eq_some hfind)
  rw [← hfound, ← hreads, ReadsOrg, getOrg]
  simp only [Fallible.bind_ok, Fallible.pure_ok]
  constructor
  · rintro ⟨_, organization, horg, u, hu, rfl⟩
    exact ⟨⟨organization, horg⟩, u, hu⟩
  · rintro ⟨⟨organization, horg⟩, u, hu⟩
    exact ⟨_, organization, horg, u, hu, rfl⟩

theorem project_paths (hadmin : account.isAdmin = false) (orgId projectId : ScopeId) :
    ListsProject L account doc orgId projectId ↔ ReadsProject L account doc orgId projectId := by
  have hids := (normal_normalizeDocument L doc).projectIds
  have hreads : (∃ u, ensureReads account.caller (memberRole L (normalizeDocument L doc).workspace (some account.email)
      projectId) "Project access denied." = .ok u) ↔ _ := ensureReads_user hadmin
  have hlist : getWorkspaceSettings L account.caller doc = .ok ⟨none, .sheet
      (visibleWorkspace L (normalizeDocument L doc) (some account.email) false)⟩ := by
    rw [getWorkspaceSettings, view_of_user hadmin]
    rfl
  have hfound : (∃ project, findProjectInOrg (normalizeDocument L doc) orgId projectId = .ok project) ↔
      ∃ p ∈ (normalizeDocument L doc).projects, p.id = projectId ∧ p.organization = orgId := by
    rw [findProjectInOrg, Sheet.findProject]
    cases hfind : (normalizeDocument L doc).projects.find? fun p => p.id = projectId with
    | none =>
        refine iff_of_false (by simp) ?_
        rintro ⟨p, hp, hid, _⟩
        exact List.find?_eq_none.mp hfind p hp (decide_eq_true hid)
    | some p =>
        have hp := List.mem_of_find?_eq_some hfind
        have hid : p.id = projectId := by simpa using List.find?_some hfind
        dsimp only
        split
        · exact iff_of_true ⟨p, rfl⟩ ⟨p, hp, hid, ‹_›⟩
        · rename_i horg
          refine iff_of_false (by simp) ?_
          rintro ⟨p', hp', hid', horg'⟩
          exact horg (List.inj_on_of_nodup_map hids hp' hp (hid'.trans hid.symm) ▸ horg')
  have hread : ReadsProject L account doc orgId projectId ↔
      (∃ p ∈ (normalizeDocument L doc).projects, p.id = projectId ∧ p.organization = orgId) ∧
        (memberRole L (normalizeDocument L doc).workspace (some account.email) projectId).isSome = true := by
    rw [← hfound, ← hreads, ReadsProject, getProject]
    simp only [Fallible.bind_ok, Fallible.pure_ok]
    constructor
    · rintro ⟨_, project, hproject, u, hu, rfl⟩
      exact ⟨⟨project, hproject⟩, u, hu⟩
    · rintro ⟨⟨project, hproject⟩, u, hu⟩
      exact ⟨_, project, hproject, u, hu, rfl⟩
  rw [hread, ListsProject, hlist]
  constructor
  · rintro ⟨sheet, hsame, p, hp, rfl, horg⟩
    cases hsame
    obtain ⟨hp, hrole⟩ := mem_visibleProjects.mp hp
    exact ⟨⟨p, hp, rfl, horg⟩, hrole⟩
  · rintro ⟨⟨p, hp, rfl, horg⟩, hrole⟩
    exact ⟨_, rfl, p, mem_visibleProjects.mpr ⟨hp, hrole⟩, rfl, horg⟩

/-! ## When the paths agree -/

/-- The list and the direct access agree for a user exactly when no organization without projects has the user as an
active member. -/
theorem paths_agree_iff (L : Lowering) (doc : Document) (account : Account) (hadmin : account.isAdmin = false) :
    PathsAgree L account doc ↔ ∀ organization ∈ (normalizeDocument L doc).organizations,
      (∀ p ∈ (normalizeDocument L doc).projects, p.organization ≠ organization.id) →
        organizationRole L (normalizeDocument L doc).workspace (some account.email) organization.id = none := by
  have hids := (normal_normalizeDocument L doc).projectIds
  constructor
  · intro h organization horg hempty
    by_contra hrole
    have hread : ReadsOrg L account doc organization.id := by
      refine (readsOrg_iff hadmin).mpr ⟨List.mem_map_of_mem horg, organizationAccessRole_isSome.mpr (.inl ?_)⟩
      exact Option.isSome_iff_ne_none.mpr hrole
    obtain ⟨p, hp, hsame⟩ := ((listsOrg_iff hadmin).mp ((h.organizations _).mpr hread)).2
    exact hempty p (mem_visibleProjects.mp hp).1 hsame
  · intro h
    refine ⟨fun orgId => ?_, project_paths hadmin⟩
    rw [listsOrg_iff hadmin, readsOrg_iff hadmin]
    refine and_congr_right fun hmem => (visible_organization_iff hids).trans ?_
    refine ⟨And.left, fun hrole => ⟨hrole, ?_⟩⟩
    obtain ⟨organization, horg, rfl⟩ := List.mem_map.mp hmem
    by_contra hnone
    have hempty : ∀ p ∈ (normalizeDocument L doc).projects, p.organization ≠ organization.id :=
      fun p hp hsame => hnone ⟨p, hp, hsame⟩
    rcases organizationAccessRole_isSome.mp hrole with hown | ⟨_, _, _, _, _, _, _, p, hp, _, hsame⟩
    · rw [h organization horg hempty] at hown
      cases hown
    · exact hempty p hp hsame

def annAccount : Account := ⟨"ann@example.com", false⟩

def betaId : ScopeId := ⟨"org_beta", by decide⟩

/-- An organization of Ann's beside the default one, with the projects that are given. -/
def betaDocument (projects : List ProjectRecord) : Document where
  organization := none
  organizations := [defaultOrganization, ⟨betaId, "Beta"⟩]
  activeOrganization := none
  activeProject := none
  projects := defaultProjectRecord :: projects
  members := [⟨annAccount.email, some "OWNER", some "active", none, some betaId⟩]
  sections := []

theorem beta_with_project : PathsAgree .ascii annAccount
    (betaDocument [⟨⟨"project_beta", by decide⟩, some betaId, ⟨"Beta", "", []⟩⟩]) :=
  (paths_agree_iff .ascii _ annAccount rfl).mpr (by decide +kernel)

/-- Ann reads her organization and does not find it in the list. -/
theorem empty_organization_unlisted :
    ReadsOrg .ascii annAccount (betaDocument []) betaId ∧ ¬ ListsOrg .ascii annAccount (betaDocument []) betaId := by
  rw [readsOrg_iff rfl, listsOrg_iff rfl]
  decide +kernel

end YiQiao
