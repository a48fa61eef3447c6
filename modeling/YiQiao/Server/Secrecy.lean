import YiQiao.Server.Routes

/-!
# What a caller can learn

Two documents that show a caller the same projects, organizations and members give the caller the same answers.
-/

namespace YiQiao

open Lib Lib.Fallible

/-! ## What a document shows to a caller -/

section
variable (L : Lowering)

/-- The caller has a role in the organization or in one of its projects. -/
def Sheet.accessible (sheet : Sheet) (email : Option String) (organization : Organization) : Bool :=
  (organizationAccessRole L sheet.workspace email organization.id).isSome

def Sheet.showsMember (sheet : Sheet) (email : Option String) (m : Member) : Bool :=
  m.isOf L email || m.isManaged L sheet email

/-- An organization with a project in which the caller has a role. -/
def Sheet.showsOrganization (sheet : Sheet) (email : Option String) (organization : Organization) : Bool :=
  (visibleProjects L sheet email).any fun p => p.organization = organization.id

/-- The two documents agree on the projects in which the caller has a role, on the organizations in which or in whose
projects the caller has one, on the caller's own memberships and those of what the caller manages, on the sections that
are for all projects, and, where the caller sees no project or no organization, on which of them is active. -/
structure Sheet.Agrees (email : Option String) (a b : Sheet) : Prop where
  projects : visibleProjects L a email = visibleProjects L b email
  organizations : a.organizations.filter (a.accessible L email) = b.organizations.filter (b.accessible L email)
  members : a.members.filter (a.showsMember L email) = b.members.filter (b.showsMember L email)
  sections : a.sections = b.sections
  activeProject : visibleProjects L a email = [] → a.activeProject = b.activeProject
  activeOrganization : a.organizations.filter (a.showsOrganization L email) = [] →
    a.activeOrganization = b.activeOrganization ∧ a.organization = b.organization

end

/-! ## Roles -/

section
variable {L : Lowering} {w w' : Workspace} {email : Option String}

theorem bestRole_isSome {best : Option Role} {roles : List Role} :
    (bestRole best roles).isSome = true ↔ best.isSome = true ∨ roles ≠ [] := by
  induction roles generalizing best with
  | nil => simp [bestRole]
  | cons role roles ih =>
      rw [bestRole]
      split
      · simp
      · rw [ih]
        have hsome : (strongestRole best (some role)).isSome = true := by
          unfold strongestRole
          split
          · next h => cases best with
              | none => cases role <;> simp [Role.rank] at h
              | some _ => rfl
          · rfl
        simp [hsome]

theorem strongestRole_isSome {left right : Option Role} :
    (strongestRole left right).isSome = true ↔ left.isSome = true ∨ right.isSome = true := by
  have hrank : ∀ role : Option Role, role.isSome = true ↔ 0 < Role.rank role := by
    intro role
    rcases role with _ | _ | _ | _ <;> decide
  rw [hrank, hrank, hrank, rank_strongest, lt_max_iff]

theorem activeRoles_isSome {counts : Member → Bool} : (activeRoles L w email counts).isSome = true ↔
    ∃ address, email = some address ∧ address ≠ "" ∧
      ∃ m ∈ w.members, m.isOf L email = true ∧ m.status = .active ∧ counts m = true := by
  cases email with
  | none => simp [activeRoles]
  | some address =>
      by_cases hne : address = ""
      · simp [activeRoles, hne]
      · simp only [activeRoles, if_neg hne, bestRole_isSome, ne_eq, List.map_eq_nil_iff, List.filter_eq_nil_iff]
        simp [hne, Member.isOf, and_assoc]

/-- A role depends on one's own memberships, and on which of those that are active count. -/
theorem activeRoles_congr {counts counts' : Member → Bool}
    (hown : w.members.filter (Member.isOf L email) = w'.members.filter (Member.isOf L email))
    (hcounts : ∀ m ∈ w.members, m.isOf L email = true → m.status = .active → counts m = counts' m) :
    activeRoles L w email counts = activeRoles L w' email counts' := by
  cases email with
  | none => rfl
  | some address =>
      have hfilter : ∀ (v : Workspace) (f : Member → Bool), (v.members.filter fun m =>
          L.lower m.email = L.lower address && m.status = .active && f m) =
          (v.members.filter (Member.isOf L (some address))).filter fun m => m.status = .active && f m := by
        intro v f
        rw [List.filter_filter]
        exact List.filter_congr fun m _ => by simp [Member.isOf, Bool.and_assoc, Bool.and_comm]
      simp only [activeRoles]
      rw [hfilter, hfilter, hown]
      have hsame : (w'.members.filter (Member.isOf L (some address))).filter (fun m => m.status = .active && counts m) =
          (w'.members.filter (Member.isOf L (some address))).filter (fun m => m.status = .active && counts' m) := by
        refine List.filter_congr fun m hm => ?_
        rw [← hown] at hm
        obtain ⟨hmem, hisOf⟩ := List.mem_filter.mp hm
        by_cases hactive : m.status = .active
        · rw [hcounts m hmem hisOf hactive]
        · simp [hactive]
      rw [hsame]

end

/-! ## What agreement gives -/

section
variable {L : Lowering} {email : Option String} {a b : Sheet}

theorem Sheet.Agrees.own (h : Sheet.Agrees L email a b) :
    a.members.filter (Member.isOf L email) = b.members.filter (Member.isOf L email) := by
  have hfilter : ∀ sheet : Sheet, sheet.members.filter (Member.isOf L email) =
      (sheet.members.filter (sheet.showsMember L email)).filter (Member.isOf L email) := by
    intro sheet
    rw [List.filter_filter]
    refine List.filter_congr fun m _ => ?_
    cases hisOf : m.isOf L email <;> simp [Sheet.showsMember, hisOf]
  rw [hfilter a, hfilter b, h.members]

theorem Sheet.Agrees.organizationRole (h : Sheet.Agrees L email a b) (id : ScopeId) :
    organizationRole L a.workspace email id = organizationRole L b.workspace email id :=
  activeRoles_congr h.own fun _ _ _ _ => rfl

theorem findProject_workspace {sheet : Sheet} {id : ScopeId} :
    findProject sheet.workspace id = (sheet.findProject id).map fun p => ⟨p.id, p.organization⟩ := by
  rw [findProject, Sheet.workspace, List.find?_map, Sheet.findProject]
  rfl

theorem findProject_mem {sheet : Sheet} (hs : sheet.Normal L) {p : ProjectSheet} (hp : p ∈ sheet.projects) :
    sheet.findProject p.id = some p := by
  cases hfind : sheet.findProject p.id with
  | none => exact absurd (List.find?_eq_none.mp hfind p hp) (by simp)
  | some q =>
      have hq := List.mem_of_find?_eq_some hfind
      have hid : q.id = p.id := by simpa using List.find?_some hfind
      rw [List.inj_on_of_nodup_map hs.projectIds hq hp hid]

theorem findOrganization_mem {sheet : Sheet} (hs : sheet.Normal L) {organization : Organization}
    (h : organization ∈ sheet.organizations) : sheet.findOrganization organization.id = some organization := by
  cases hfind : sheet.findOrganization organization.id with
  | none => exact absurd (List.find?_eq_none.mp hfind organization h) (by simp)
  | some found =>
      have hfound := List.mem_of_find?_eq_some hfind
      have hid : found.id = organization.id := by simpa using List.find?_some hfind
      rw [List.inj_on_of_nodup_map hs.workspace.organizations hfound h hid]

theorem mem_visibleProjects {sheet : Sheet} {p : ProjectSheet} :
    p ∈ visibleProjects L sheet email ↔
      p ∈ sheet.projects ∧ (memberRole L sheet.workspace email p.id).isSome = true :=
  List.mem_filter

/-- A project with a role in the one document is in the other one, with the same role. -/
theorem Sheet.Agrees.project (h : Sheet.Agrees L email a b) (ha : a.Normal L) (hb : b.Normal L) {p : ProjectSheet}
    (hp : p ∈ visibleProjects L a email) :
    b.findProject p.id = some p ∧ memberRole L a.workspace email p.id = memberRole L b.workspace email p.id := by
  have hpa := findProject_mem ha (mem_visibleProjects.mp hp).1
  have hpb := findProject_mem hb (mem_visibleProjects.mp (h.projects ▸ hp)).1
  refine ⟨hpb, activeRoles_congr h.own fun m _ _ _ => ?_⟩
  cases m.project with
  | some id => rfl
  | none => simp [findProject_workspace, hpa, hpb]

/-- A membership that counts for a project of an organization is one for a visible project. -/
theorem visible_of_membership {sheet : Sheet} {p : ProjectSheet} (hp : p ∈ sheet.projects) {m : Member}
    (hm : m ∈ sheet.members) (hisOf : m.isOf L email = true) (hactive : m.status = .active) (hproject : m.project = some p.id)
    (haddress : ∃ address, email = some address ∧ address ≠ "") : p ∈ visibleProjects L sheet email := by
  obtain ⟨address, hemail, hne⟩ := haddress
  refine mem_visibleProjects.mpr ⟨hp, activeRoles_isSome.mpr ⟨address, hemail, hne, m, hm, hisOf, hactive, ?_⟩⟩
  simp [hproject]

theorem Sheet.Agrees.accessRole (h : Sheet.Agrees L email a b) (id : ScopeId) :
    organizationAccessRole L a.workspace email id = organizationAccessRole L b.workspace email id := by
  rw [organizationAccessRole, organizationAccessRole, h.organizationRole]
  by_cases haddress : ∃ address, email = some address ∧ address ≠ ""
  · refine congrArg _ (activeRoles_congr h.own fun m hm hisOf hactive => ?_)
    cases hproject : m.project with
    | none => rfl
    | some project =>
        have hmb : m ∈ b.members := (List.mem_filter.mp (h.own ▸ List.mem_filter.mpr ⟨hm, hisOf⟩)).1
        rw [Bool.eq_iff_iff]
        simp only [Option.any_some, List.any_eq_true, Bool.and_eq_true, decide_eq_true_eq, Sheet.workspace, List.mem_map]
        constructor
        · rintro ⟨_, ⟨p, hp, rfl⟩, rfl, horganization⟩
          have hvisible := visible_of_membership hp hm hisOf hactive hproject haddress
          exact ⟨_, ⟨p, (mem_visibleProjects.mp (h.projects ▸ hvisible)).1, rfl⟩, rfl, horganization⟩
        · rintro ⟨_, ⟨p, hp, rfl⟩, rfl, horganization⟩
          have hvisible := visible_of_membership hp hmb hisOf hactive hproject haddress
          exact ⟨_, ⟨p, (mem_visibleProjects.mp (h.projects.symm ▸ hvisible)).1, rfl⟩, rfl, horganization⟩
  · have hnone : ∀ (w : Workspace) (counts : Member → Bool), activeRoles L w email counts = none := by
      intro w counts
      by_contra hsome
      obtain ⟨address, hemail, hne, -⟩ := activeRoles_isSome.mp (Option.ne_none_iff_isSome.mp hsome)
      exact haddress ⟨address, hemail, hne⟩
    rw [hnone, hnone]

theorem showsOrganization_accessible {sheet : Sheet} (hs : sheet.Normal L) {organization : Organization}
    (h : sheet.showsOrganization L email organization = true) : sheet.accessible L email organization = true := by
  obtain ⟨p, hp, horganization⟩ := List.any_eq_true.mp h
  obtain ⟨hmem, hrole⟩ := mem_visibleProjects.mp hp
  obtain ⟨address, hemail, hne, m, hm, hisOf, hactive, hcounts⟩ := activeRoles_isSome.mp hrole
  have hfind := findProject_mem hs hmem
  rw [Sheet.accessible, organizationAccessRole, strongestRole_isSome]
  cases hproject : m.project with
  | none =>
      simp only [hproject, findProject_workspace, hfind] at hcounts
      refine .inl (activeRoles_isSome.mpr ⟨address, hemail, hne, m, hm, hisOf, hactive, ?_⟩)
      simp only [decide_eq_true_eq] at horganization
      simpa [hproject, horganization] using hcounts
  | some id =>
      simp only [hproject, decide_eq_true_eq] at hcounts
      refine .inr (activeRoles_isSome.mpr ⟨address, hemail, hne, m, hm, hisOf, hactive, ?_⟩)
      simp only [decide_eq_true_eq] at horganization
      simp only [hproject, Option.any_some, List.any_eq_true, Bool.and_eq_true, decide_eq_true_eq, Sheet.workspace, List.mem_map]
      exact ⟨_, ⟨p, hmem, rfl⟩, hcounts.symm, horganization⟩

theorem Sheet.Agrees.shownOrganizations (h : Sheet.Agrees L email a b) (ha : a.Normal L) (hb : b.Normal L) :
    a.organizations.filter (a.showsOrganization L email) = b.organizations.filter (b.showsOrganization L email) := by
  have hfilter : ∀ sheet : Sheet, sheet.Normal L → sheet.organizations.filter (sheet.showsOrganization L email) =
      (sheet.organizations.filter (sheet.accessible L email)).filter (sheet.showsOrganization L email) := by
    intro sheet hs
    rw [List.filter_filter]
    refine List.filter_congr fun organization _ => ?_
    cases hshows : sheet.showsOrganization L email organization with
    | false => rfl
    | true => rw [showsOrganization_accessible hs hshows]; rfl
  have hsame : a.showsOrganization L email = b.showsOrganization L email := by
    funext organization
    rw [Sheet.showsOrganization, Sheet.showsOrganization, h.projects]
  rw [hfilter a ha, hfilter b hb, h.organizations, hsame]

theorem Sheet.Agrees.symm (h : Sheet.Agrees L email a b) (ha : a.Normal L) (hb : b.Normal L) :
    Sheet.Agrees L email b a where
  projects := h.projects.symm
  organizations := h.organizations.symm
  members := h.members.symm
  sections := h.sections.symm
  activeProject := fun hnone => (h.activeProject (h.projects.trans hnone)).symm
  activeOrganization := fun hnone =>
    (h.activeOrganization ((h.shownOrganizations ha hb).trans hnone)).imp Eq.symm Eq.symm

/-- The caller sees the same of both. -/
theorem Sheet.Agrees.view (h : Sheet.Agrees L email a b) (ha : a.Normal L) (hb : b.Normal L) :
    visibleWorkspace L a email false = visibleWorkspace L b email false := by
  have horganizations := h.shownOrganizations ha hb
  have hproject : ((visibleProjects L a email).head?.map ProjectSheet.id).getD a.activeProject =
      ((visibleProjects L b email).head?.map ProjectSheet.id).getD b.activeProject := by
    rw [← h.projects]
    cases hprojects : visibleProjects L a email with
    | nil => exact h.activeProject hprojects
    | cons p ps => rfl
  have hactive : ((a.organizations.filter (a.showsOrganization L email)).head?.map Organization.id).getD
      a.activeOrganization = ((b.organizations.filter (b.showsOrganization L email)).head?.map Organization.id).getD
      b.activeOrganization := by
    rw [← horganizations]
    cases hshown : a.organizations.filter (a.showsOrganization L email) with
    | nil => exact (h.activeOrganization hshown).1
    | cons o os => rfl
  have horganization : (a.organizations.filter (a.showsOrganization L email)).head?.getD a.organization =
      (b.organizations.filter (b.showsOrganization L email)).head?.getD b.organization := by
    rw [← horganizations]
    cases hshown : a.organizations.filter (a.showsOrganization L email) with
    | nil => exact (h.activeOrganization hshown).2
    | cons o os => rfl
  have hmembers := h.members
  simp only [visibleWorkspace, Bool.false_eq_true, if_false]
  rw [Sheet.mk.injEq]
  exact ⟨horganizations, hactive, horganization, hproject, h.projects, hmembers, h.sections⟩

end

/-! ## Changed details -/

section
variable {L : Lowering} {email : Option String} {a b : Sheet} {f : Organization → Organization}
  {g : ProjectSheet → ProjectSheet} (hf : ∀ organization, (f organization).id = organization.id)
  (hg : ∀ p, (g p).id = p.id ∧ (g p).organization = p.organization)
include hf hg

theorem visibleProjects_mapDetails (sheet : Sheet) :
    visibleProjects L (sheet.mapDetails f g) email = (visibleProjects L sheet email).map g := by
  rw [visibleProjects, mapDetails_workspace hf hg]
  exact List.filter_map.trans (congrArg _ (List.filter_congr fun p _ => by rw [Function.comp, (hg p).1]))

theorem accessible_mapDetails (sheet : Sheet) :
    (sheet.mapDetails f g).organizations.filter ((sheet.mapDetails f g).accessible L email) =
      (sheet.organizations.filter (sheet.accessible L email)).map f := by
  refine List.filter_map.trans (congrArg _ (List.filter_congr fun organization _ => ?_))
  rw [Function.comp, Sheet.accessible, Sheet.accessible, mapDetails_workspace hf hg, hf]

theorem showsOrganization_mapDetails (sheet : Sheet) :
    (sheet.mapDetails f g).organizations.filter ((sheet.mapDetails f g).showsOrganization L email) =
      (sheet.organizations.filter (sheet.showsOrganization L email)).map f := by
  refine List.filter_map.trans (congrArg _ (List.filter_congr fun organization _ => ?_))
  rw [Function.comp, Sheet.showsOrganization, Sheet.showsOrganization, visibleProjects_mapDetails hf hg, hf, List.any_map]
  exact congrArg _ (funext fun p => by rw [Function.comp, (hg p).2])

theorem showsMember_mapDetails (sheet : Sheet) :
    (sheet.mapDetails f g).showsMember L email = sheet.showsMember L email := by
  funext m
  rw [Sheet.showsMember, Sheet.showsMember, Member.isManaged, Member.isManaged, mapDetails_workspace hf hg,
    visibleProjects_mapDetails hf hg]
  simp only [List.any_map, Function.comp_def, (hg _).1]
  rw [Sheet.mapDetails, List.any_map]
  simp only [Function.comp_def, hf]

omit hf in
theorem findProject_mapDetails (sheet : Sheet) (id : ScopeId) :
    (sheet.mapDetails f g).findProject id = (sheet.findProject id).map g := by
  have hsame : (fun p : ProjectSheet => decide (p.id = id)) ∘ g = fun p => decide (p.id = id) :=
    funext fun p => by rw [Function.comp, (hg p).1]
  rw [Sheet.findProject, Sheet.mapDetails, List.find?_map, hsame]
  rfl

/-- What the caller may change in both keeps them in agreement. -/
theorem Sheet.Agrees.mapDetails (h : Sheet.Agrees L email a b) :
    Sheet.Agrees L email (a.mapDetails f g) (b.mapDetails f g) where
  projects := by rw [visibleProjects_mapDetails hf hg, visibleProjects_mapDetails hf hg, h.projects]
  organizations := by rw [accessible_mapDetails hf hg, accessible_mapDetails hf hg, h.organizations]
  members := by
    rw [showsMember_mapDetails hf hg, showsMember_mapDetails hf hg]
    exact h.members
  sections := h.sections
  activeProject := by
    rw [visibleProjects_mapDetails hf hg, List.map_eq_nil_iff]
    exact h.activeProject
  activeOrganization := by
    rw [showsOrganization_mapDetails hf hg, List.map_eq_nil_iff]
    exact fun hnone => (h.activeOrganization hnone).imp id (congrArg f)

end

/-! ## The routes -/

/-- Where the route answers for the one document, it answers the same for the other one. -/
def Tells (a b : Except HttpError Answer) : Prop :=
  ∀ answer, a = .ok answer → ∃ answer', b = .ok answer' ∧ answer'.response = answer.response

section
variable {L : Lowering} {caller : Caller} {a b : Document}

theorem ensureReads_ok {role : Option Role} {detail : String} {u : Unit} (hcaller : isGlobalAdmin caller = false)
    (h : ensureReads caller role detail = .ok u) : role.isSome = true := by
  simp only [ensureReads, bind_ok] at h
  obtain ⟨_, _, h⟩ := h
  exact (require_ok h).resolve_left (by simp [hcaller])

theorem ensureManages_ok {role : Option Role} {detail : String} {u : Unit} (hcaller : isGlobalAdmin caller = false)
    (h : ensureManages caller role detail = .ok u) : role = some .owner := by
  simp only [ensureManages, bind_ok] at h
  obtain ⟨_, _, h⟩ := h
  exact (require_ok h).resolve_left (by simp [hcaller])

theorem findOrg_ok {sheet : Sheet} {id : ScopeId} {organization : Organization} :
    findOrg sheet id = .ok organization ↔ sheet.findOrganization id = some organization := by
  unfold findOrg
  cases sheet.findOrganization id with
  | none => simp
  | some found => simp

theorem findProjectInOrg_ok {sheet : Sheet} {orgId id : ScopeId} {p : ProjectSheet} :
    findProjectInOrg sheet orgId id = .ok p ↔ sheet.findProject id = some p ∧ p.organization = orgId := by
  unfold findProjectInOrg
  cases sheet.findProject id with
  | none => simp
  | some found =>
      by_cases horganization : found.organization = orgId
      · simp [horganization]
        rintro rfl
        exact horganization
      · simp [horganization]
        rintro rfl
        exact horganization

theorem manager_reads {w : Workspace} {email : Option String} {id : ScopeId} (h : organizationRole L w email id = some .owner) :
    (organizationAccessRole L w email id).isSome = true := by
  rw [organizationAccessRole, strongestRole_isSome, h]
  exact .inl rfl

theorem organization_found (h : Sheet.Agrees L caller.email (normalizeDocument L a) (normalizeDocument L b)) {id : ScopeId}
    {organization : Organization} (hfind : findOrg (normalizeDocument L a) id = .ok organization)
    (hrole : (organizationAccessRole L (normalizeDocument L a).workspace caller.email id).isSome = true) :
    findOrg (normalizeDocument L b) id = .ok organization := by
  rw [findOrg_ok] at hfind ⊢
  have hid : organization.id = id := by simpa using List.find?_some hfind
  subst hid
  have hmem : organization ∈
      (normalizeDocument L a).organizations.filter ((normalizeDocument L a).accessible L caller.email) :=
    List.mem_filter.mpr ⟨List.mem_of_find?_eq_some hfind, hrole⟩
  exact findOrganization_mem (normal_normalizeDocument L b) (List.mem_filter.mp (h.organizations ▸ hmem)).1

theorem project_found (h : Sheet.Agrees L caller.email (normalizeDocument L a) (normalizeDocument L b)) {id : ScopeId}
    {p : ProjectSheet} (hfind : (normalizeDocument L a).findProject id = some p)
    (hrole : (memberRole L (normalizeDocument L a).workspace caller.email id).isSome = true) :
    (normalizeDocument L b).findProject id = some p ∧ memberRole L (normalizeDocument L a).workspace caller.email id =
      memberRole L (normalizeDocument L b).workspace caller.email id := by
  have hid : p.id = id := by simpa using List.find?_some hfind
  subst hid
  exact h.project (normal_normalizeDocument L a) (normal_normalizeDocument L b)
    (mem_visibleProjects.mpr ⟨List.mem_of_find?_eq_some hfind, hrole⟩)

variable (hcaller : isGlobalAdmin caller = false)
  (h : Sheet.Agrees L caller.email (normalizeDocument L a) (normalizeDocument L b))
include hcaller h

theorem getWorkspace_tells : Tells (getWorkspaceSettings L caller a) (getWorkspaceSettings L caller b) := by
  intro answer hanswer
  simp only [getWorkspaceSettings, bind_ok, pure_ok] at hanswer
  obtain ⟨_, hdeny, rfl⟩ := hanswer
  have hview := h.view (normal_normalizeDocument L a) (normal_normalizeDocument L b)
  refine ⟨⟨none, .sheet (view L caller (normalizeDocument L b))⟩, ?_, ?_⟩
  · simp only [getWorkspaceSettings, bind_ok]
    exact ⟨_, hdeny, rfl⟩
  · simp only [view, hcaller, hview]

theorem listOrganizations_tells : Tells (listOrganizations L caller a) (listOrganizations L caller b) := by
  intro answer hanswer
  simp only [listOrganizations, bind_ok, pure_ok] at hanswer
  obtain ⟨_, hdeny, rfl⟩ := hanswer
  have hview := h.view (normal_normalizeDocument L a) (normal_normalizeDocument L b)
  refine ⟨⟨none, .organizations (view L caller (normalizeDocument L b)).organizations⟩, ?_, ?_⟩
  · simp only [listOrganizations, bind_ok]
    exact ⟨_, hdeny, rfl⟩
  · simp only [view, hcaller, hview]

omit h in
theorem createOrg_tells (name : String) (newId : ScopeId) :
    Tells (createOrg L caller a name newId) (createOrg L caller b name newId) := by
  intro answer hanswer
  simp only [createOrg, bind_ok, pure_ok] at hanswer
  obtain ⟨_, hadmin, rfl⟩ := hanswer
  exact absurd (require_ok hadmin) (by simp [hcaller])

theorem getOrg_tells (orgId : ScopeId) : Tells (getOrg L caller a orgId) (getOrg L caller b orgId) := by
  intro answer hanswer
  simp only [getOrg, bind_ok, pure_ok] at hanswer
  obtain ⟨organization, hfind, _, hread, rfl⟩ := hanswer
  refine ⟨⟨none, .organization organization⟩, ?_, rfl⟩
  simp only [getOrg, bind_ok, pure_ok]
  refine ⟨organization, organization_found h hfind (ensureReads_ok hcaller hread), (), ?_, rfl⟩
  rw [ensureOrgRead, ← h.accessRole]
  exact hread

omit hcaller h in
/-- The renamed organization, as it is read anew. -/
theorem updateOrganization_find {id : ScopeId} {organization : Organization} (name : String)
    (hfind : findOrg (normalizeDocument L a) id = .ok organization) :
    findOrg (normalizeDocument L (updateOrganization L a id name).document) id =
      .ok (Organization.clean ⟨id, cleanName name id.val⟩) := by
  let rename : Organization → Organization := fun organization =>
    if organization.id = id then { organization with name := cleanName name id.val } else organization
  have hrename : ∀ organization, (rename organization).id = organization.id := by
    intro organization
    dsimp only [rename]
    split <;> rfl
  have hnormal := normal_normalizeDocument L a
  have hmap : (updateOrganization L a id name).organizations = (normalizeDocument L a).organizations.map rename := rfl
  have hids : ((updateOrganization L a id name).organizations.map Organization.id).Nodup := by
    rw [hmap, List.map_map]
    refine (List.map_congr_left fun organization _ => ?_) ▸ hnormal.workspace.organizations
    exact (hrename organization).symm
  have hne : (updateOrganization L a id name).organizations ≠ [] := by
    rw [hmap, Ne, List.map_eq_nil_iff]
    exact hnormal.inhabited
  have hsame : (fun organization : Organization => decide (organization.id = id)) ∘ (Organization.clean ∘ rename) =
      fun organization => decide (organization.id = id) := funext fun organization => by
    rw [Function.comp, Function.comp, clean_id, hrename]
  rw [findOrg_ok] at hfind ⊢
  have hid : organization.id = id := by simpa using List.find?_some hfind
  rw [Sheet.findOrganization, normalizeDocument]
  dsimp only
  rw [organizations_document hne hids, hmap, List.map_map, List.find?_map, hsame]
  rw [Sheet.findOrganization] at hfind
  rw [hfind, Option.map_some, Function.comp]
  dsimp only [rename]
  rw [if_pos hid, hid]

theorem updateOrg_tells (orgId : ScopeId) (name : String) :
    Tells (updateOrg L caller a orgId name) (updateOrg L caller b orgId name) := by
  intro answer hanswer
  simp only [updateOrg, bind_ok, pure_ok] at hanswer
  obtain ⟨organization, hfind, _, hwrite, saved, hsaved, rfl⟩ := hanswer
  have hrole := ensureManages_ok hcaller hwrite
  have hfound := organization_found h hfind (manager_reads hrole)
  rw [updateOrganization_find name hfind] at hsaved
  refine ⟨⟨some (updateOrganization L b orgId name).document, .organization saved⟩, ?_, rfl⟩
  simp only [updateOrg, bind_ok]
  refine ⟨organization, hfound, (), ?_, saved, (updateOrganization_find name hfound).trans hsaved, rfl⟩
  rw [ensureOrgWrite, ← Caller.email, ← h.organizationRole]
  exact hwrite

omit hcaller h in
/-- The new project, as it is read anew. -/
theorem createProject_find {orgId newId : ScopeId} {organization : Organization} (name description : String)
    (hfind : findOrg (normalizeDocument L a) orgId = .ok organization)
    (hfresh : ∀ p ∈ (normalizeDocument L a).projects, p.id ≠ newId) :
    (normalizeDocument L (createProject L a orgId name description newId).document).findProject newId =
      some (ProjectSheet.clean ⟨newId, orgId, ⟨cleanName name newId.val, description, newSections⟩⟩) := by
  let saved := createProject L a orgId name description newId
  have hnormal := normal_normalizeDocument L a
  have hprojects : saved.projects = (normalizeDocument L a).projects ++
      [⟨newId, orgId, ⟨cleanName name newId.val, description, newSections⟩⟩] := rfl
  have hids : (saved.projects.map ProjectSheet.id).Nodup := by
    rw [hprojects, List.map_append]
    refine List.nodup_append.mpr ⟨hnormal.projectIds, List.nodup_singleton _, fun id hid other hother => ?_⟩
    obtain ⟨p, hp, rfl⟩ := List.mem_map.mp hid
    rw [List.mem_singleton.mp hother]
    exact hfresh p hp
  have hne : saved.projects ≠ [] := by simp [hprojects]
  have hsettled : settleOrganization saved.document.settings orgId = orgId := by
    rw [findOrg_ok] at hfind
    have hid : organization.id = orgId := by simpa using List.find?_some hfind
    have horganizations : normalizedOrganizations saved.document = saved.organizations.map Organization.clean :=
      organizations_document hnormal.inhabited hnormal.workspace.organizations
    have hmem : orgId ∈ normalizeOrganizations saved.document.settings := by
      rw [← organizations_ids, horganizations]
      exact List.mem_map.mpr ⟨organization.clean, List.mem_map_of_mem (List.mem_of_find?_eq_some hfind), hid⟩
    exact if_pos hmem
  have hsame : (fun p : ProjectSheet => decide (p.id = newId)) ∘ (fun p : ProjectSheet =>
      ({ p with organization := settleOrganization saved.document.settings p.organization } : ProjectSheet).clean) =
      fun p => decide (p.id = newId) := rfl
  have hold : (normalizeDocument L a).projects.find? (fun p => decide (p.id = newId)) = none :=
    List.find?_eq_none.mpr fun p hp => by simpa using hfresh p hp
  change (normalizedProjects saved.document).find? _ = _
  rw [projects_document hne hids, List.find?_map, hsame, hprojects, List.find?_append, hold]
  simp [hsettled]

theorem createProject_tells (orgId : ScopeId) (name description : String) (newId : ScopeId)
    (hfresh : ∀ p ∈ (normalizeDocument L a).projects, p.id ≠ newId)
    (hfresh' : ∀ p ∈ (normalizeDocument L b).projects, p.id ≠ newId) :
    Tells (createProjectRoute L caller a orgId name description newId)
      (createProjectRoute L caller b orgId name description newId) := by
  intro answer hanswer
  simp only [createProjectRoute, bind_ok, pure_ok] at hanswer
  obtain ⟨organization, hfind, _, hwrite, rfl⟩ := hanswer
  have hrole := ensureManages_ok hcaller hwrite
  have hfound := organization_found h hfind (manager_reads hrole)
  refine ⟨⟨some (createProject L b orgId name description newId).document,
    .project ((normalizeDocument L (createProject L b orgId name description newId).document).findProject newId)⟩, ?_, ?_⟩
  · simp only [createProjectRoute, bind_ok]
    refine ⟨organization, hfound, (), ?_, rfl⟩
    rw [ensureOrgWrite, ← Caller.email, ← h.organizationRole]
    exact hwrite
  · rw [createProject_find name description hfind hfresh, createProject_find name description hfound hfresh']

/-- The change of one project's details. -/
def changeDetails (id : ScopeId) (details : ProjectDetails) (p : ProjectSheet) : ProjectSheet :=
  if p.id = id then { p with details := details } else p

omit hcaller h in
theorem changeDetails_keeps (id : ScopeId) (details : ProjectDetails) (p : ProjectSheet) :
    (changeDetails id details p).id = p.id ∧ (changeDetails id details p).organization = p.organization := by
  unfold changeDetails
  split <;> exact ⟨rfl, rfl⟩

omit hcaller h in
theorem updateProject_eq (id : ScopeId) (details : ProjectDetails) :
    updateProject L a id (fun _ => details) = (normalizeDocument L a).mapDetails (fun o => o) (changeDetails id details) := by
  rw [updateProject, Sheet.mapDetails, List.map_id']
  rfl

omit hcaller h in
theorem updateProject_normal (id : ScopeId) (details : ProjectDetails) :
    (updateProject L a id fun _ => details).Normal L :=
  (updateProject_eq id details).symm ▸
    (normal_normalizeDocument L a).mapDetails (fun _ => rfl) (changeDetails_keeps id details)

omit hcaller h in
/-- The changed project, as it is read anew. -/
theorem updateProject_find {id : ScopeId} {p : ProjectSheet} (details : ProjectDetails)
    (hfind : (normalizeDocument L a).findProject id = some p) :
    (normalizeDocument L (updateProject L a id fun _ => details).document).findProject id =
      some ({ p with details := details } : ProjectSheet).clean := by
  have hid : p.id = id := by simpa using List.find?_some hfind
  rw [normalizeDocument_document (updateProject_normal id details), Sheet.cleaned,
    findProject_mapDetails clean_keeps, updateProject_eq,
    findProject_mapDetails (changeDetails_keeps id details), hfind]
  simp only [Option.map_some, changeDetails, if_pos hid]

theorem updateProject_tells (orgId projectId : ScopeId) (patch : ProjectPatch) :
    Tells (updateProjectRoute L caller a orgId projectId patch) (updateProjectRoute L caller b orgId projectId patch) := by
  intro answer hanswer
  simp only [updateProjectRoute, bind_ok, pure_ok] at hanswer
  obtain ⟨p, hfind, _, hwrite, details, hpatch, rfl⟩ := hanswer
  rw [findProjectInOrg_ok] at hfind
  have howner := ensureManages_ok hcaller hwrite
  obtain ⟨hfound, hrole⟩ := project_found h hfind.1 (by rw [Caller.email, howner]; rfl)
  refine ⟨⟨some (updateProject L b projectId fun _ => details).document,
    .project ((normalizeDocument L (updateProject L b projectId fun _ => details).document).findProject projectId)⟩, ?_, ?_⟩
  · simp only [updateProjectRoute, bind_ok]
    refine ⟨p, findProjectInOrg_ok.mpr ⟨hfound, hfind.2⟩, (), ?_, details, hpatch, rfl⟩
    rw [ensureProjectWrite, ← Caller.email, ← hrole]
    exact hwrite
  · rw [updateProject_find details hfind.1, updateProject_find details hfound]

omit hcaller h in
/-- What `PATCH /workspace` answers from, by the document it started with. -/
theorem updateWorkspace_sheet (id : ScopeId) (details : ProjectDetails) :
    normalizeDocument L (normalizeDocument L
      (updateProject L (normalizeDocument L a).document id fun _ => details).document).document =
      (((normalizeDocument L a).cleaned.mapDetails (fun o => o) (changeDetails id details)).cleaned).cleaned := by
  rw [normalizeDocument_document (normal_normalizeDocument L _), normalizeDocument_document (updateProject_normal id details),
    updateProject_eq, normalizeDocument_document (normal_normalizeDocument L a)]

theorem updateWorkspace_tells (active : Option String) (request : ProjectId) (patch : ProjectPatch) :
    Tells (updateWorkspaceSettings L caller a active request patch)
      (updateWorkspaceSettings L caller b active request patch) := by
  intro answer hanswer
  have ha := normal_normalizeDocument L a
  have hb := normal_normalizeDocument L b
  simp only [updateWorkspaceSettings] at hanswer
  rw [normalizeDocument_document ha, Sheet.cleaned, findProject_mapDetails clean_keeps] at hanswer
  cases hfind : (normalizeDocument L a).findProject (targetProject active request) with
  | none => simp [hfind] at hanswer
  | some p =>
      simp only [hfind, Option.map_some, bind_ok, pure_ok] at hanswer
      obtain ⟨_, hwrite, details, hpatch, rfl⟩ := hanswer
      have howner := ensureManages_ok hcaller hwrite
      obtain ⟨hfound, hrole⟩ := project_found h hfind (by rw [Caller.email, howner]; rfl)
      let saved (doc : Document) : Sheet := normalizeDocument L
        (updateProject L (normalizeDocument L doc).document (targetProject active request) fun _ => details).document
      have hview : view L caller (normalizeDocument L (saved a).document) =
          view L caller (normalizeDocument L (saved b).document) := by
        have hkeeps := changeDetails_keeps (targetProject active request) details
        have hagrees := (((h.mapDetails clean_id clean_keeps).mapDetails (fun _ => rfl) hkeeps).mapDetails
          clean_id clean_keeps).mapDetails clean_id clean_keeps
        simp only [saved, updateWorkspace_sheet, view, hcaller]
        exact hagrees.view (ha.cleaned.mapDetails (fun _ => rfl) hkeeps).cleaned.cleaned
          (hb.cleaned.mapDetails (fun _ => rfl) hkeeps).cleaned.cleaned
      have hfind' : (normalizeDocument L (normalizeDocument L b).document).findProject (targetProject active request) =
          some p.clean := by
        rw [normalizeDocument_document hb, Sheet.cleaned, findProject_mapDetails clean_keeps, hfound, Option.map_some]
      refine ⟨⟨some (saved b).document, .sheet (view L caller (normalizeDocument L (saved b).document))⟩, ?_,
        congrArg Response.sheet hview.symm⟩
      simp only [updateWorkspaceSettings, hfind', bind_ok]
      refine ⟨(), ?_, details, hpatch, rfl⟩
      rw [ensureProjectWrite, ← Caller.email, ← hrole]
      exact hwrite

theorem deleteOrg_tells (orgId : ScopeId) : Tells (deleteOrg L caller a orgId) (deleteOrg L caller b orgId) := by
  intro answer hanswer
  simp only [deleteOrg, bind_ok, pure_ok] at hanswer
  obtain ⟨organization, hfind, _, hwrite, _, hdefault, rfl⟩ := hanswer
  have hrole := ensureManages_ok hcaller hwrite
  refine ⟨⟨some (deleteOrganization L b orgId).document, .message "Organization deleted"⟩, ?_, rfl⟩
  simp only [deleteOrg, bind_ok]
  refine ⟨organization, organization_found h hfind (manager_reads hrole), (), ?_, (), hdefault, rfl⟩
  rw [ensureOrgWrite, ← Caller.email, ← h.organizationRole]
  exact hwrite

theorem listProjects_tells (orgId : ScopeId) : Tells (listProjects L caller a orgId) (listProjects L caller b orgId) := by
  intro answer hanswer
  simp only [listProjects, bind_ok, pure_ok] at hanswer
  obtain ⟨organization, hfind, _, hread, rfl⟩ := hanswer
  have hview := h.view (normal_normalizeDocument L a) (normal_normalizeDocument L b)
  refine ⟨⟨none, .projects ((view L caller (normalizeDocument L b)).projects.filter fun p => p.organization = orgId)⟩, ?_, ?_⟩
  · simp only [listProjects, bind_ok]
    refine ⟨organization, organization_found h hfind (ensureReads_ok hcaller hread), (), ?_, rfl⟩
    rw [ensureOrgRead, ← h.accessRole]
    exact hread
  · simp only [view, hcaller, hview]

theorem getProject_tells (orgId projectId : ScopeId) :
    Tells (getProject L caller a orgId projectId) (getProject L caller b orgId projectId) := by
  intro answer hanswer
  simp only [getProject, bind_ok, pure_ok] at hanswer
  obtain ⟨p, hfind, _, hread, rfl⟩ := hanswer
  rw [findProjectInOrg_ok] at hfind
  obtain ⟨hfound, hrole⟩ := project_found h hfind.1 (ensureReads_ok hcaller hread)
  refine ⟨⟨none, .project (some p)⟩, ?_, rfl⟩
  simp only [getProject, bind_ok]
  refine ⟨p, findProjectInOrg_ok.mpr ⟨hfound, hfind.2⟩, (), ?_, rfl⟩
  rw [ensureProjectRead, ← hrole]
  exact hread

theorem deleteProject_tells (orgId projectId : ScopeId) :
    Tells (deleteProjectRoute L caller a orgId projectId) (deleteProjectRoute L caller b orgId projectId) := by
  intro answer hanswer
  simp only [deleteProjectRoute, bind_ok, pure_ok] at hanswer
  obtain ⟨p, hfind, _, hwrite, _, hdefault, rfl⟩ := hanswer
  rw [findProjectInOrg_ok] at hfind
  have howner := ensureManages_ok hcaller hwrite
  obtain ⟨hfound, hrole⟩ := project_found h hfind.1 (by rw [Caller.email, howner]; rfl)
  refine ⟨⟨some (deleteProject L b projectId).document, .message "Project deleted"⟩, ?_, rfl⟩
  simp only [deleteProjectRoute, bind_ok]
  refine ⟨p, findProjectInOrg_ok.mpr ⟨hfound, hfind.2⟩, (), ?_, (), hdefault, rfl⟩
  rw [ensureProjectWrite, ← Caller.email, ← hrole]
  exact hwrite

/-! ### The routes that list members -/

theorem getOrgMembers_tells (orgId : ScopeId)
    (hmembers : orgMembers (normalizeDocument L a) orgId = orgMembers (normalizeDocument L b) orgId) :
    Tells (getOrgMembers L caller a orgId) (getOrgMembers L caller b orgId) := by
  intro answer hanswer
  simp only [getOrgMembers, bind_ok, pure_ok] at hanswer
  obtain ⟨organization, hfind, _, hread, rfl⟩ := hanswer
  refine ⟨⟨none, .members (orgMembers (normalizeDocument L b) orgId)⟩, ?_, by rw [hmembers]⟩
  simp only [getOrgMembers, bind_ok]
  refine ⟨organization, organization_found h hfind (ensureReads_ok hcaller hread), (), ?_, rfl⟩
  rw [ensureOrgRead, ← h.accessRole]
  exact hread

theorem getProjectMembers_tells (orgId projectId : ScopeId)
    (hmembers : projectMembers (normalizeDocument L a) projectId = projectMembers (normalizeDocument L b) projectId) :
    Tells (getProjectMembers L caller a orgId projectId) (getProjectMembers L caller b orgId projectId) := by
  intro answer hanswer
  simp only [getProjectMembers, bind_ok, pure_ok] at hanswer
  obtain ⟨p, hfind, _, hread, rfl⟩ := hanswer
  rw [findProjectInOrg_ok] at hfind
  obtain ⟨hfound, hrole⟩ := project_found h hfind.1 (ensureReads_ok hcaller hread)
  refine ⟨⟨none, .members (projectMembers (normalizeDocument L b) projectId)⟩, ?_, by rw [hmembers]⟩
  simp only [getProjectMembers, bind_ok]
  refine ⟨p, findProjectInOrg_ok.mpr ⟨hfound, hfind.2⟩, (), ?_, rfl⟩
  rw [ensureProjectRead, ← hrole]
  exact hread

end

/-! ## Answers -/

/-- What a route answers, when it does not refuse. -/
def answerTo (L : Lowering) (caller : Caller) (doc : Document) (request : WorkspaceRequest) : Option Response :=
  (respond L caller doc request).toOption.map Answer.response

/-- What the answer of a route shows beyond what the documents agree on. A route that changes members answers with
the whole document; the two that list members list them all; the id of a new project is drawn anew. -/
def WorkspaceRequest.Covered (a b : Sheet) : WorkspaceRequest → Prop
  | .member _ => False
  | .getOrgMembers orgId => orgMembers a orgId = orgMembers b orgId
  | .getProjectMembers _ projectId => projectMembers a projectId = projectMembers b projectId
  | .createProject _ _ _ newId => (∀ p ∈ a.projects, p.id ≠ newId) ∧ ∀ p ∈ b.projects, p.id ≠ newId
  | _ => True

theorem Tells.map_le {a b : Except HttpError Answer} (h : Tells a b) {response : Response}
    (hresponse : a.toOption.map Answer.response = some response) : b.toOption.map Answer.response = some response := by
  cases a with
  | error fault => cases hresponse
  | ok answer =>
      obtain ⟨answer', rfl, hsame⟩ := h answer rfl
      exact (congrArg some hsame).trans hresponse

theorem covered_symm {a b : Sheet} {request : WorkspaceRequest} (h : request.Covered a b) : request.Covered b a := by
  cases request with
  | member call => exact h
  | getOrgMembers orgId => exact Eq.symm h
  | getProjectMembers orgId projectId => exact Eq.symm h
  | createProject orgId name description newId => exact And.symm h
  | _ => trivial

theorem tells_of_agrees {L : Lowering} {caller : Caller} {a b : Document} (hcaller : isGlobalAdmin caller = false)
    (h : Sheet.Agrees L caller.email (normalizeDocument L a) (normalizeDocument L b)) {request : WorkspaceRequest}
    (hcovered : request.Covered (normalizeDocument L a) (normalizeDocument L b)) :
    Tells (respond L caller a request) (respond L caller b request) := by
  cases request with
  | getWorkspace => exact getWorkspace_tells hcaller h
  | updateWorkspace active request patch => exact updateWorkspace_tells hcaller h active request patch
  | member call => exact hcovered.elim
  | listOrganizations => exact listOrganizations_tells hcaller h
  | createOrg name newId => exact createOrg_tells hcaller name newId
  | getOrg orgId => exact getOrg_tells hcaller h orgId
  | updateOrg orgId name => exact updateOrg_tells hcaller h orgId name
  | deleteOrg orgId => exact deleteOrg_tells hcaller h orgId
  | getOrgMembers orgId => exact getOrgMembers_tells hcaller h orgId hcovered
  | listProjects orgId => exact listProjects_tells hcaller h orgId
  | createProject orgId name description newId =>
      exact createProject_tells hcaller h orgId name description newId hcovered.1 hcovered.2
  | getProject orgId projectId => exact getProject_tells hcaller h orgId projectId
  | updateProject orgId projectId patch => exact updateProject_tells hcaller h orgId projectId patch
  | deleteProject orgId projectId => exact deleteProject_tells hcaller h orgId projectId
  | getProjectMembers orgId projectId => exact getProjectMembers_tells hcaller h orgId projectId hcovered

/-- Agreement on no more than the projects in which the caller has a role, their organizations, and the members of
what the caller manages. -/
structure Sheet.AgreesOnScopes (L : Lowering) (email : Option String) (a b : Sheet) : Prop where
  projects : visibleProjects L a email = visibleProjects L b email
  organizations : a.organizations.filter (a.showsOrganization L email) = b.organizations.filter (b.showsOrganization L email)
  members : a.members.filter (Member.isManaged L a email) = b.members.filter (Member.isManaged L b email)

def ann : Caller := ⟨.bearer, some ⟨"ann@example.com", false⟩⟩

/-- A workspace with a project of Ann's and perhaps another one. -/
def annsDocument (organizationName : String) (hidden : List ProjectRecord) (members : List MemberEntry) : Document where
  organization := none
  organizations := [⟨defaultOrgId, organizationName⟩]
  activeOrganization := some defaultOrgId
  activeProject := some defaultProject.id
  projects := defaultProjectRecord :: hidden
  members
  sections := []

def hiddenProject : ProjectRecord := ⟨⟨"project_hidden", by decide⟩, some defaultOrgId, ⟨"Hidden", "", []⟩⟩

def annOwns : MemberEntry :=
  ⟨"ann@example.com", some "OWNER", some "active", some defaultProject.id, some defaultOrgId⟩

def annInvites : WorkspaceRequest :=
  .member (.addProjectMember (fun _ => false) defaultOrgId defaultProject.id
    ⟨⟨"carol@example.com", by decide, by decide⟩, "READER", none⟩)

/-- A few words of an answer. -/
def Response.words : Response → List String
  | .sheet shown => [shown.organization.name]
  | .saved stored => stored.projects.map fun p => p.details.name
  | .members listed => listed.map Member.email
  | _ => []

def annReads : MemberEntry :=
  ⟨"ann@example.com", some "READER", some "active", some defaultProject.id, some defaultOrgId⟩

def carlOwns : MemberEntry := ⟨"carl@example.com", some "OWNER", some "active", none, some defaultOrgId⟩

theorem hidden_project_agrees :
    Sheet.Agrees .ascii ann.email (normalizeDocument .ascii (annsDocument "Alpha" [] [annOwns]))
      (normalizeDocument .ascii (annsDocument "Alpha" [hiddenProject] [annOwns])) where
  projects := rfl
  organizations := by decide +kernel
  members := by decide +kernel
  sections := rfl
  activeProject := fun _ => rfl
  activeOrganization := fun _ => ⟨rfl, rfl⟩

theorem hidden_owner_agrees :
    Sheet.Agrees .ascii ann.email (normalizeDocument .ascii (annsDocument "Alpha" [] [annReads]))
      (normalizeDocument .ascii (annsDocument "Alpha" [] [annReads, carlOwns])) where
  projects := rfl
  organizations := by decide +kernel
  members := by decide +kernel
  sections := rfl
  activeProject := fun _ => rfl
  activeOrganization := fun _ => ⟨rfl, rfl⟩

end YiQiao
