import Mathlib.Data.List.DropRight
import YiQiao.Lib.Firsts
import YiQiao.Value

/-!
# Workspaces

The settings of a workspace name its organizations, their projects, and the members of both. They are
normalized whenever they are read: what is stored may repeat entries, leave out roles, and refer to
projects and organizations that are gone.
-/

namespace YiQiao

open Lib

/-- `str.lower`: it is idempotent, keeps some text and its white space, and lowers ASCII letters. -/
structure Lowering where
  lower : String → String
  lower_ne : ∀ s, s ≠ "" → lower s ≠ ""
  lower_lower : ∀ s, lower (lower s) = lower s
  strip_lower : ∀ s, strip (lower s) = lower (strip s)
  lower_ascii : ∀ s : String, s.toList.all (fun c => decide (c.toNat < 128)) = true →
    lower s = String.ofList (s.toList.map Char.toLower)

theorem toNat_toLower (c : Char) :
    c.toLower.toNat = if 65 ≤ c.toNat ∧ c.toNat ≤ 90 then c.toNat + 32 else c.toNat := by
  have hrange : (c.val ≥ 'A'.val ∧ c.val ≤ 'Z'.val) ↔ 65 ≤ c.toNat ∧ c.toNat ≤ 90 := by
    rw [ge_iff_le, UInt32.le_iff_toNat_le, UInt32.le_iff_toNat_le]
    rfl
  unfold Char.toLower
  split
  · rename_i h
    rw [if_pos (hrange.mp h)]
    have hsmall := (hrange.mp h).2
    change (c.val + ('a'.val - 'A'.val)).toNat = c.val.toNat + 32
    rw [UInt32.toNat_add]
    exact Nat.mod_eq_of_lt (by change c.val.toNat + 32 < 2 ^ 32; change c.val.toNat ≤ 90 at hsmall; omega)
  · rename_i h
    rw [if_neg fun hc => h (hrange.mpr hc)]

theorem isSpace_toLower (c : Char) : isSpace c.toLower = isSpace c := by
  unfold isSpace
  rw [toNat_toLower]
  split
  · rename_i h
    rw [Bool.eq_iff_iff]
    simp only [Bool.or_eq_true, Bool.and_eq_true, decide_eq_true_eq, beq_iff_eq]
    omega
  · rfl

theorem toLower_toLower (c : Char) : c.toLower.toLower = c.toLower := by
  rw [← Char.toNat_inj, toNat_toLower c.toLower, toNat_toLower c]
  by_cases h : 65 ≤ c.toNat ∧ c.toNat ≤ 90
  · rw [if_pos h, if_neg (by omega)]
  · rw [if_neg h, if_neg h]

/-- Lowering of ASCII letters only. -/
def Lowering.ascii : Lowering where
  lower s := String.ofList (s.toList.map Char.toLower)
  lower_ne s h hlower := h (by
    rw [← String.toList_inj, String.toList_ofList] at hlower
    rw [← String.toList_inj]
    exact List.map_eq_nil_iff.mp hlower)
  lower_lower s := by
    rw [String.toList_ofList, List.map_map]
    exact congrArg _ (List.map_congr_left fun c _ => toLower_toLower c)
  strip_lower s := by
    have hspace : isSpace ∘ Char.toLower = isSpace := funext isSpace_toLower
    rw [strip, strip, String.toList_ofList, String.toList_ofList, List.dropWhile_map, hspace, ← List.map_reverse,
      List.dropWhile_map, hspace, ← List.map_reverse]
  lower_ascii _ _ := rfl

/-- The id of an organization or a project. -/
abbrev ScopeId := { s : String // s ≠ "" }

inductive Role where
  | owner | editor | reader
  deriving DecidableEq, Repr

inductive MemberStatus where
  | active | invited
  deriving DecidableEq, Repr

/-! ## Settings as they are stored -/

structure ProjectEntry where
  id : ScopeId
  organization : Option ScopeId

structure MemberEntry where
  email : String
  role : Option String
  status : Option String
  project : Option ScopeId
  organization : Option ScopeId

structure Settings where
  organization : Option ScopeId
  organizations : List ScopeId
  activeOrganization : Option ScopeId
  projects : List ProjectEntry
  members : List MemberEntry

/-! ## Normalized workspaces -/

structure Project where
  id : ScopeId
  organization : ScopeId

structure Member where
  email : String
  role : Role
  status : MemberStatus
  project : Option ScopeId
  organization : ScopeId
  deriving DecidableEq

/-- What identifies a membership. -/
def Member.key (m : Member) : String × Option ScopeId × ScopeId := (m.email, m.project, m.organization)

structure Workspace where
  organizations : List ScopeId
  activeOrganization : ScopeId
  projects : List Project
  members : List Member

def defaultOrgId : ScopeId := ⟨"org_default", by decide⟩

def defaultProject : ProjectEntry := ⟨⟨"default-project", by decide⟩, some defaultOrgId⟩

/-- `ROLE_ALIASES`. -/
def roleAliases : List (String × Role) :=
  [("owner", .owner), ("admin", .owner), ("editor", .editor), ("edit", .editor), ("writer", .editor),
    ("member", .reader), ("reader", .reader), ("read", .reader)]

/-- `normalize_member_role`. -/
def normalizeMemberRole (L : Lowering) : Option String → Role
  | none => .reader
  | some role => (roleAliases.lookup (L.lower (strip role))).getD .reader

def normalizeStatus (L : Lowering) (status : Option String) : MemberStatus :=
  if L.lower (status.getD "invited") = "active" then .active else .invited

def normalizeOrganizations (s : Settings) : List ScopeId :=
  firstsBy id (if s.organizations = [] then [s.organization.getD defaultOrgId] else s.organizations)

/-- `active_organization_id`, or the first organization. -/
def activeOrganization (s : Settings) : ScopeId :=
  s.activeOrganization.getD ((normalizeOrganizations s).headD defaultOrgId)

/-- An organization that is gone gives way to the active one. -/
def settleOrganization (s : Settings) (organization : ScopeId) : ScopeId :=
  if organization ∈ normalizeOrganizations s then organization else activeOrganization s

def normalizeProjects (s : Settings) : List Project :=
  (firstsBy ProjectEntry.id (if s.projects = [] then [defaultProject] else s.projects)).map fun p =>
    ⟨p.id, settleOrganization s (p.organization.getD (activeOrganization s))⟩

/-- The organization of a project. -/
def projectOrganization (projects : List Project) (id : ScopeId) : Option ScopeId :=
  (projects.find? fun p => p.id = id).map Project.organization

/-- The organization a membership names, that of its project, or the active one. -/
def memberOrganization (s : Settings) (m : MemberEntry) : ScopeId :=
  settleOrganization s <| (m.organization.or
    (m.project.bind (projectOrganization (normalizeProjects s)))).getD (activeOrganization s)

def normalizeMember (L : Lowering) (s : Settings) (m : MemberEntry) : Option Member :=
  let email := L.lower (strip m.email)
  if email = "" then none
  else if m.project.any fun id => (projectOrganization (normalizeProjects s) id).isNone then none
  else some ⟨email, normalizeMemberRole L m.role, normalizeStatus L m.status, m.project, memberOrganization s m⟩

/-- `normalize_workspace`. -/
def normalizeWorkspace (L : Lowering) (s : Settings) : Workspace where
  organizations := normalizeOrganizations s
  activeOrganization := activeOrganization s
  projects := normalizeProjects s
  members := firstsBy Member.key (s.members.filterMap (normalizeMember L s))

/-! ## Storing a workspace -/

def Role.text : Role → String
  | .owner => "OWNER"
  | .editor => "EDITOR"
  | .reader => "READER"

def MemberStatus.text : MemberStatus → String
  | .active => "active"
  | .invited => "invited"

def Member.entry (m : Member) : MemberEntry :=
  ⟨m.email, some m.role.text, some m.status.text, m.project, some m.organization⟩

/-- The settings that a workspace is stored as. -/
def Workspace.settings (w : Workspace) : Settings where
  organization := w.organizations.find? (· = w.activeOrganization) |>.or w.organizations.head?
  organizations := w.organizations
  activeOrganization := some w.activeOrganization
  projects := w.projects.map fun p => ⟨p.id, some p.organization⟩
  members := w.members.map Member.entry

/-! ## What normalization gives -/

/-- An organization of the workspace, or the active one. -/
def Workspace.Settled (w : Workspace) (organization : ScopeId) : Prop :=
  organization ∈ w.organizations ∨ organization = w.activeOrganization

structure Member.Normal (L : Lowering) (w : Workspace) (m : Member) : Prop where
  named : m.email ≠ ""
  lowered : L.lower (strip m.email) = m.email
  project : ∀ id, m.project = some id → id ∈ w.projects.map Project.id
  settled : w.Settled m.organization

structure Workspace.Normal (L : Lowering) (w : Workspace) : Prop where
  inhabited : w.organizations ≠ []
  organizations : w.organizations.Nodup
  populated : w.projects ≠ []
  projects : (w.projects.map Project.id).Nodup
  settled : ∀ p ∈ w.projects, w.Settled p.organization
  members : ∀ m ∈ w.members, m.Normal L w
  keys : (w.members.map Member.key).Nodup

section

variable {L : Lowering} {s : Settings} {w : Workspace}

theorem settleOrganization_settled (organization : ScopeId) :
    (normalizeWorkspace L s).Settled (settleOrganization s organization) := by
  unfold settleOrganization
  split
  · rename_i h
    exact .inl h
  · exact .inr rfl

theorem normalizeOrganizations_ne : normalizeOrganizations s ≠ [] := by
  rw [normalizeOrganizations, Ne, firstsBy_eq_nil]
  split
  · simp
  · assumption

theorem normalizeProjects_ne : normalizeProjects s ≠ [] := by
  rw [normalizeProjects, Ne, List.map_eq_nil_iff, firstsBy_eq_nil]
  split
  · simp
  · assumption

theorem normalizeMember_normal {entry : MemberEntry} {m : Member} (h : normalizeMember L s entry = some m) :
    m.Normal L (normalizeWorkspace L s) := by
  unfold normalizeMember at h
  dsimp only at h
  split at h
  · cases h
  · rename_i hemail
    split at h
    · cases h
    · rename_i hproject
      cases h
      refine ⟨hemail, ?_, fun id hid => ?_, settleOrganization_settled _⟩
      · rw [L.strip_lower, L.lower_lower, strip_strip]
      · dsimp only at hid
        rw [hid, Option.any_some, projectOrganization, Bool.not_eq_true, Option.isNone_eq_false_iff,
          Option.isSome_map, List.find?_isSome] at hproject
        obtain ⟨p, hp, hpid⟩ := hproject
        exact List.mem_map.mpr ⟨p, hp, by simpa using hpid⟩

theorem normal_normalizeWorkspace (L : Lowering) (s : Settings) : (normalizeWorkspace L s).Normal L where
  inhabited := normalizeOrganizations_ne
  organizations := by
    have h := @firstsBy_nodup _ _ _ id
      (if s.organizations = [] then [s.organization.getD defaultOrgId] else s.organizations)
    rwa [List.map_id] at h
  populated := normalizeProjects_ne
  projects := by
    rw [normalizeWorkspace, normalizeProjects, List.map_map]
    exact firstsBy_nodup _
  settled := by
    intro p hp
    obtain ⟨entry, _, rfl⟩ := List.mem_map.mp hp
    exact settleOrganization_settled _
  members := by
    intro m hm
    obtain ⟨entry, _, hentry⟩ := List.mem_filterMap.mp ((firstsBy_sublist _).subset hm)
    exact normalizeMember_normal hentry
  keys := firstsBy_nodup _

/-! ## Reading what was stored -/

theorem normalizeMemberRole_text (role : Role) : normalizeMemberRole L (some role.text) = role := by
  cases role with
  | owner => rw [normalizeMemberRole, Role.text, L.lower_ascii _ (by decide)]; rfl
  | editor => rw [normalizeMemberRole, Role.text, L.lower_ascii _ (by decide)]; rfl
  | reader => rw [normalizeMemberRole, Role.text, L.lower_ascii _ (by decide)]; rfl

theorem normalizeStatus_text (status : MemberStatus) : normalizeStatus L (some status.text) = status := by
  cases status with
  | active => rw [normalizeStatus, Option.getD_some, MemberStatus.text, L.lower_ascii _ (by decide)]; rfl
  | invited => rw [normalizeStatus, Option.getD_some, MemberStatus.text, L.lower_ascii _ (by decide)]; rfl

theorem normalizeOrganizations_settings (hw : w.Normal L) :
    normalizeOrganizations w.settings = w.organizations := by
  rw [normalizeOrganizations, Workspace.settings, if_neg hw.inhabited]
  exact firstsBy_of_nodup (by rw [List.map_id]; exact hw.organizations)

theorem settleOrganization_settings (hw : w.Normal L) {organization : ScopeId} (h : w.Settled organization) :
    settleOrganization w.settings organization = organization := by
  rw [settleOrganization, normalizeOrganizations_settings hw]
  split
  · rfl
  · rename_i hgone
    rcases h with h | h
    · exact absurd h hgone
    · exact h.symm

theorem normalizeProjects_settings (hw : w.Normal L) : normalizeProjects w.settings = w.projects := by
  have hne : w.settings.projects ≠ [] := by simpa [Workspace.settings] using hw.populated
  have hnodup : (w.settings.projects.map ProjectEntry.id).Nodup := by
    rw [Workspace.settings, List.map_map]
    exact hw.projects
  have hprojects : w.settings.projects = w.projects.map fun p => ⟨p.id, some p.organization⟩ := rfl
  rw [normalizeProjects, if_neg hne, firstsBy_of_nodup hnodup, hprojects, List.map_map]
  refine (List.map_congr_left fun p hp => ?_).trans (List.map_id _)
  simp only [Function.comp, Option.getD_some, id, settleOrganization_settings hw (hw.settled p hp)]

theorem normalizeMember_entry (hw : w.Normal L) {m : Member} (hm : m.Normal L w) :
    normalizeMember L w.settings m.entry = some m := by
  have hproject : (m.project.any fun id => (projectOrganization (normalizeProjects w.settings) id).isNone) =
      false := by
    rw [normalizeProjects_settings hw]
    cases hp : m.project with
    | none => rfl
    | some id =>
        obtain ⟨p, hmem, hid⟩ := List.mem_map.mp (hm.project id hp)
        rw [Option.any_some, projectOrganization, Option.isNone_eq_false_iff, Option.isSome_map,
          List.find?_isSome]
        exact ⟨p, hmem, by simpa using hid⟩
  rw [normalizeMember, memberOrganization, Member.entry]
  dsimp only
  rw [hm.lowered, if_neg hm.named, hproject, normalizeMemberRole_text, normalizeStatus_text, Option.some_or,
    Option.getD_some, settleOrganization_settings hw hm.settled]
  rfl

/-- Reading a stored workspace gives it back. -/
theorem normalizeWorkspace_settings (hw : w.Normal L) : normalizeWorkspace L w.settings = w := by
  have hmembers : w.settings.members.filterMap (normalizeMember L w.settings) = w.members := by
    have hmap : w.settings.members = w.members.map Member.entry := rfl
    rw [hmap, List.filterMap_map]
    refine (List.filterMap_congr fun m hm => ?_).trans List.filterMap_some
    exact normalizeMember_entry hw (hw.members m hm)
  have hactive : activeOrganization w.settings = w.activeOrganization := rfl
  rw [normalizeWorkspace, normalizeOrganizations_settings hw, normalizeProjects_settings hw, hmembers, hactive,
    firstsBy_of_nodup hw.keys]

end

end YiQiao
