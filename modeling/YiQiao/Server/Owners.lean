import YiQiao.Server.Members

/-!
# Owners

Which membership routes leave every organization and every project that has an active owner with one.
The routes of an organization's and of a project's members ask before they take the last one away; those
of the workspace's members, and those that add a member who is there already, do not.
-/

namespace YiQiao

open Lib.Fallible

/-! ## Calls -/

inductive MemberCall where
  | inviteWorkspaceMember (request : ProjectId) (body : MemberInvite)
  | updateWorkspaceMember (request : ProjectId) (email : EmailAddress) (body : MemberUpdate)
  | deleteWorkspaceMember (request : ProjectId) (email : EmailAddress) (project : Option String)
  | addOrgMember (registered : String → Bool) (orgId : ScopeId) (body : MemberInvite)
  | updateOrgMember (orgId : ScopeId) (body : MemberInvite)
  | removeOrgMember (orgId : ScopeId) (email : String)
  | addProjectMember (registered : String → Bool) (orgId projectId : ScopeId) (body : MemberInvite)
  | updateProjectMember (orgId projectId : ScopeId) (body : MemberInvite)
  | deleteProjectMember (orgId projectId : ScopeId) (email : EmailAddress)

def MemberCall.run (L : Lowering) (caller : Caller) : MemberCall → Settings → Except HttpError Settings
  | .inviteWorkspaceMember request body => YiQiao.inviteWorkspaceMember L caller request body
  | .updateWorkspaceMember request email body => YiQiao.updateWorkspaceMember L caller request email body
  | .deleteWorkspaceMember request email project => YiQiao.deleteWorkspaceMember L caller request email project
  | .addOrgMember registered orgId body => YiQiao.addOrgMember L registered caller orgId body
  | .updateOrgMember orgId body => YiQiao.updateOrgMember L caller orgId body
  | .removeOrgMember orgId email => YiQiao.removeOrgMember L caller orgId email
  | .addProjectMember registered orgId projectId body =>
      YiQiao.addProjectMember L registered caller orgId projectId body
  | .updateProjectMember orgId projectId body => YiQiao.updateProjectMember L caller orgId projectId body
  | .deleteProjectMember orgId projectId email => YiQiao.deleteProjectMember L caller orgId projectId email

/-- A call that fails stores nothing. -/
def MemberCall.apply (L : Lowering) (s : Settings) (call : Caller × MemberCall) : Settings :=
  match call.2.run L call.1 s with
  | .ok s' => s'
  | .error _ => s

def applyMemberCalls (L : Lowering) (s : Settings) (calls : List (Caller × MemberCall)) : Settings :=
  calls.foldl (MemberCall.apply L) s

/-! ## Owned organizations and projects -/

inductive OwnerScope where
  | organization (id : ScopeId)
  | project (id : ScopeId)

/-- An active owner of the organization; of the project or of its organization. -/
def Member.Owns (w : Workspace) (m : Member) : OwnerScope → Prop
  | .organization id => m.isActiveOwner = true ∧ m.project = none ∧ m.organization = id
  | .project id => m.isActiveOwner = true ∧
      (m.project = some id ∨ m.project = none ∧ projectOrganization w.projects id = some m.organization)

def Workspace.Owned (w : Workspace) (scope : OwnerScope) : Prop := ∃ m ∈ w.members, m.Owns w scope

/-- The membership that a call is about. -/
structure Seat where
  email : String
  project : Option ScopeId
  organization : ScopeId

def Seat.scope (seat : Seat) : OwnerScope :=
  match seat.project with
  | none => .organization seat.organization
  | some id => .project id

def Seat.Holds (L : Lowering) (seat : Seat) (m : Member) : Prop :=
  m.isAt L seat.email seat.project seat.organization

/-- Someone else owns what the membership is in. -/
def Seat.Shared (L : Lowering) (w : Workspace) (seat : Seat) : Prop :=
  ∃ m ∈ w.members, ¬ seat.Holds L m ∧ m.Owns w seat.scope

def MemberCall.seat (w : Workspace) : MemberCall → Seat
  | .inviteWorkspaceMember request body =>
      ⟨body.email.text, some (targetProject body.project request),
        organizationOf w (targetProject body.project request)⟩
  | .updateWorkspaceMember request email body =>
      ⟨email.text, some (targetProject body.project request),
        organizationOf w (targetProject body.project request)⟩
  | .deleteWorkspaceMember request email project =>
      ⟨email.text, some (targetProject project request), organizationOf w (targetProject project request)⟩
  | .addOrgMember _ orgId body => ⟨body.email.text, none, orgId⟩
  | .updateOrgMember orgId body => ⟨body.email.text, none, orgId⟩
  | .removeOrgMember orgId email => ⟨email, none, orgId⟩
  | .addProjectMember _ orgId projectId body => ⟨body.email.text, some projectId, orgId⟩
  | .updateProjectMember orgId projectId body => ⟨body.email.text, some projectId, orgId⟩
  | .deleteProjectMember orgId projectId email => ⟨email.text, some projectId, orgId⟩

/-- The routes that ask whether an owner remains. -/
def MemberCall.asks : MemberCall → Bool
  | .updateOrgMember .. | .removeOrgMember .. | .updateProjectMember .. | .deleteProjectMember .. => true
  | _ => false

/-- What a request says makes the member an active owner, or leaves an active owner one. -/
def MemberCall.confirmsOwner (L : Lowering) : MemberCall → Prop
  | .updateWorkspaceMember _ _ body =>
      normalizeMemberRole L (some (orElseText body.role Role.owner.text)) = .owner ∧
        L.lower (strip (orElseText body.status MemberStatus.active.text)) = "active"
  | .addOrgMember registered _ body | .addProjectMember registered _ _ body =>
      normalizeMemberRole L (some body.role) = .owner ∧ registered body.email.text = true
  | _ => False

/-- The call does not take away the last active owner unasked. -/
def MemberCall.Spares (L : Lowering) (w : Workspace) (call : MemberCall) : Prop :=
  call.asks = true ∨ call.confirmsOwner L ∨
    ∀ m ∈ w.members, (call.seat w).Holds L m → m.isActiveOwner = true → (call.seat w).Shared L w

/-! ## What a call writes -/

/-- The workspace in which this is all that the membership is. -/
def Workspace.put (L : Lowering) (w : Workspace) (seat : Seat) (next : Option (Role × MemberStatus)) :
    Workspace :=
  { w with members := (w.members.filter fun m => ¬ m.isAt L seat.email seat.project seat.organization) ++
      next.toList.map fun n => ⟨L.lower seat.email, n.1, n.2, seat.project, seat.organization⟩ }

/-- The membership can be in the workspace. -/
structure Seat.Valid (w : Workspace) (seat : Seat) : Prop where
  named : seat.email ≠ ""
  stripped : strip seat.email = seat.email
  project : ∀ id, seat.project = some id → projectOrganization w.projects id = some seat.organization
  settled : w.Settled seat.organization

section

variable {L : Lowering} {w : Workspace} {seat : Seat} {next : Option (Role × MemberStatus)}

theorem Member.Normal.strip_email {m : Member} (h : m.Normal L w) : strip m.email = m.email := by
  have hlowered := h.lowered
  rw [← L.strip_lower] at hlowered
  calc strip m.email = strip (strip (L.lower m.email)) := by rw [hlowered]
    _ = strip (L.lower m.email) := strip_strip _
    _ = m.email := hlowered

theorem Member.Normal.lower_email {m : Member} (h : m.Normal L w) : L.lower m.email = m.email := by
  have hlowered := h.lowered
  rwa [h.strip_email] at hlowered

/-- White space around the address in a request names no one else. -/
theorem holds_strip {m : Member} (h : m.Normal L w) (hm : seat.Holds L m) :
    m.isAt L (strip seat.email) seat.project seat.organization := by
  refine ⟨?_, hm.2⟩
  rw [← L.strip_lower, ← hm.1, h.lower_email, h.strip_email]

theorem holds_unique (seat : Seat) (hw : w.Normal L) {m m' : Member} (hm : m ∈ w.members) (hm' : m' ∈ w.members)
    (h : seat.Holds L m) (h' : seat.Holds L m') : m = m' := by
  refine List.inj_on_of_nodup_map hw.keys hm hm' ?_
  have hemail : m.email = m'.email := by
    rw [← (hw.members m hm).lower_email, ← (hw.members m' hm').lower_email, h.1, h'.1]
  rw [Member.key, Member.key, hemail, h.2.1, h.2.2, h'.2.1, h'.2.2]

theorem mem_put {m : Member} : m ∈ (w.put L seat next).members ↔
    m ∈ w.members ∧ ¬ seat.Holds L m ∨
      ∃ n, next = some n ∧ m = ⟨L.lower seat.email, n.1, n.2, seat.project, seat.organization⟩ := by
  rw [Workspace.put, List.mem_append, List.mem_filter, decide_eq_true_eq, List.mem_map]
  simp only [Option.mem_toList]
  constructor
  · rintro (h | ⟨n, hn, rfl⟩)
    · exact .inl h
    · exact .inr ⟨n, hn, rfl⟩
  · rintro (h | ⟨n, hn, rfl⟩)
    · exact .inl h
    · exact .inr ⟨n, hn, rfl⟩

theorem put_normal (hw : w.Normal L) (hseat : next.isSome → seat.Valid w) : (w.put L seat next).Normal L where
  inhabited := hw.inhabited
  organizations := hw.organizations
  populated := hw.populated
  projects := hw.projects
  settled := hw.settled
  members := by
    intro m hm
    rcases mem_put.mp hm with ⟨hm, _⟩ | ⟨n, hn, rfl⟩
    · exact ⟨(hw.members m hm).named, (hw.members m hm).lowered, (hw.members m hm).project,
        (hw.members m hm).settled⟩
    · have hvalid := hseat (by rw [hn]; rfl)
      refine ⟨L.lower_ne _ hvalid.named, ?_, fun id hid => ?_, hvalid.settled⟩
      · dsimp only
        rw [L.strip_lower, L.lower_lower, hvalid.stripped]
      · have hproject := hvalid.project id hid
        rw [projectOrganization, Option.map_eq_some_iff] at hproject
        obtain ⟨p, hp, _⟩ := hproject
        exact List.mem_map.mpr ⟨p, List.mem_of_find?_eq_some hp, by simpa using List.find?_some hp⟩
  keys := by
    rw [Workspace.put, List.map_append, List.nodup_append]
    refine ⟨hw.keys.sublist (List.filter_sublist.map _), ?_, ?_⟩
    · cases next with
      | none => exact List.nodup_nil
      | some n => exact List.nodup_singleton _
    · rintro key hkey key' hkey' rfl
      obtain ⟨m, hm, rfl⟩ := List.mem_map.mp hkey
      obtain ⟨m', hm', hsame⟩ := List.mem_map.mp hkey'
      obtain ⟨n, _, rfl⟩ := List.mem_map.mp hm'
      rw [List.mem_filter, decide_eq_true_eq] at hm
      rw [Member.key, Member.key, Prod.mk.injEq, Prod.mk.injEq] at hsame
      refine hm.2 ⟨?_, hsame.2.1.symm, hsame.2.2.symm⟩
      rw [← hsame.1, L.lower_lower]

/-! ## What it does to owners -/

/-- An active owner who loses the membership leaves another behind. -/
def Seat.Kept (L : Lowering) (w : Workspace) (seat : Seat) (next : Option (Role × MemberStatus)) : Prop :=
  ∀ m ∈ w.members, seat.Holds L m → m.isActiveOwner = true →
    next = some (.owner, .active) ∨ seat.Shared L w

/-- Who owns what the membership is in owns whatever its holder owned. -/
theorem owns_of_seat {m m' : Member} {scope : OwnerScope} (hm : seat.Holds L m) (h : m.Owns w scope)
    (h' : m'.Owns w seat.scope) : m'.Owns w scope := by
  have hproject := hm.2.1
  have horganization := hm.2.2
  unfold Seat.scope at h'
  cases scope with
  | organization id =>
      rw [← hproject, h.2.1, ← horganization, h.2.2] at h'
      exact h'
  | project id =>
      rcases h.2 with howner | ⟨hnone, howner⟩
      · rw [← hproject, howner] at h'
        exact h'
      · rw [← hproject, hnone, ← horganization] at h'
        exact ⟨h'.1, .inr ⟨h'.2.1, by rw [howner, h'.2.2]⟩⟩

theorem put_owned (h : seat.Kept L w next) {scope : OwnerScope} (howned : w.Owned scope) :
    (w.put L seat next).Owned scope := by
  obtain ⟨m, hm, howns⟩ := howned
  have hstays : ∀ m' ∈ w.members, ¬ seat.Holds L m' → m'.Owns w scope → (w.put L seat next).Owned scope :=
    fun m' hm' hother howns' => ⟨m', mem_put.mpr (.inl ⟨hm', hother⟩), by cases scope <;> exact howns'⟩
  by_cases hholds : seat.Holds L m
  · have howner : m.isActiveOwner = true := by cases scope <;> exact howns.1
    rcases h m hm hholds howner with hnext | ⟨m', hm', hother, hshared⟩
    · refine ⟨⟨L.lower seat.email, .owner, .active, seat.project, seat.organization⟩,
        mem_put.mpr (.inr ⟨_, hnext, rfl⟩), ?_⟩
      cases scope with
      | organization id => exact ⟨rfl, by rw [← hholds.2.1, howns.2.1], by rw [← hholds.2.2, howns.2.2]⟩
      | project id =>
          refine ⟨rfl, ?_⟩
          rw [← hholds.2.1, ← hholds.2.2]
          exact howns.2
    · exact hstays m' hm' hother (owns_of_seat hholds howns hshared)
  · exact hstays m hm hholds howns

/-- Nothing less keeps every owned organization and project owned. -/
theorem kept_of_put_owned (h : ∀ scope, w.Owned scope → (w.put L seat next).Owned scope) :
    seat.Kept L w next := by
  intro m hm hholds howner
  have howns : m.Owns w seat.scope := by
    unfold Seat.scope
    cases hproject : seat.project with
    | none => exact ⟨howner, hholds.2.1.trans hproject, hholds.2.2⟩
    | some id => exact ⟨howner, .inl (hholds.2.1.trans hproject)⟩
  obtain ⟨m', hm', howns'⟩ := h _ ⟨m, hm, howns⟩
  rcases mem_put.mp hm' with ⟨hm', hother⟩ | ⟨n, hn, rfl⟩
  · refine .inr ⟨m', hm', hother, ?_⟩
    cases hscope : seat.scope <;> rw [hscope] at howns' <;> exact howns'
  · left
    have howner' : (n.2 = .active) ∧ n.1 = .owner := by
      cases hscope : seat.scope <;> rw [hscope] at howns' <;> simpa [Member.isActiveOwner] using howns'.1
    rw [hn, ← howner'.1, ← howner'.2]

end

/-! ## What the routes write -/

section

variable {L : Lowering} {s s' : Settings} {caller : Caller}

theorem findProject_any {w : Workspace} {id organization : ScopeId}
    (h : (findProject w id).any (fun p => decide (p.organization = organization)) = true) :
    projectOrganization w.projects id = some organization := by
  rw [Option.any_eq_true] at h
  obtain ⟨p, hp, horganization⟩ := h
  have hfind : w.projects.find? (fun p => decide (p.id = id)) = some p := hp
  rw [projectOrganization, hfind, Option.map_some, of_decide_eq_true horganization]

theorem organizationOf_of_isSome {w : Workspace} {id : ScopeId} (h : (findProject w id).isSome = true) :
    projectOrganization w.projects id = some (organizationOf w id) := by
  obtain ⟨p, hp⟩ := Option.isSome_iff_exists.mp h
  rw [organizationOf, hp]
  have hfind : w.projects.find? (fun p => decide (p.id = id)) = some p := hp
  rw [projectOrganization, hfind, Option.map_some, Option.getD_some]

theorem projectOrganization_settled {w : Workspace} (hw : w.Normal L) {id organization : ScopeId}
    (h : projectOrganization w.projects id = some organization) : w.Settled organization := by
  rw [projectOrganization, Option.map_eq_some_iff] at h
  obtain ⟨p, hp, rfl⟩ := h
  exact hw.settled p (List.mem_of_find?_eq_some hp)

/-- The membership of an address in a project that is there. -/
theorem valid_project {w : Workspace} (hw : w.Normal L) (email : EmailAddress) {id organization : ScopeId}
    (h : projectOrganization w.projects id = some organization) :
    Seat.Valid w ⟨email.text, some id, organization⟩ where
  named := email.named
  stripped := email.stripped
  project := by
    rintro _ ⟨⟩
    exact h
  settled := projectOrganization_settled hw h

theorem valid_organization {w : Workspace} (email : EmailAddress) {id : ScopeId} (h : id ∈ w.organizations) :
    Seat.Valid w ⟨email.text, none, id⟩ where
  named := email.named
  stripped := email.stripped
  project := by
    rintro _ ⟨⟩
  settled := .inl h

theorem ensureOrgExists_ok {w : Workspace} {id : ScopeId} {u : Unit} (h : ensureOrgExists w id = .ok u) :
    id ∈ w.organizations := by
  obtain ⟨id', hid', heq⟩ := List.any_eq_true.mp (require_ok h)
  rwa [← of_decide_eq_true heq]

theorem upsertMember_eq {seat : Seat} (hseat : seat.Valid (normalizeWorkspace L s)) (role : Role)
    (status : MemberStatus) : upsertMember L s seat.email role status seat.project seat.organization =
      ((normalizeWorkspace L s).put L seat (some (role, status))).settings := by
  have horganization : ((seat.project.bind (findProject (normalizeWorkspace L s))).map
      Project.organization).getD seat.organization = seat.organization := by
    cases hproject : seat.project with
    | none => rfl
    | some id =>
        have hsome : (findProject (normalizeWorkspace L s) id).map Project.organization =
            some seat.organization := hseat.project id hproject
        rw [Option.bind_some, hsome, Option.getD_some]
  rw [upsertMember, horganization]
  rfl

theorem removeMember_eq (seat : Seat) : removeMember L s seat.email seat.project seat.organization =
    ((normalizeWorkspace L s).put L seat none).settings := by
  rw [removeMember, Workspace.put, Option.toList_none, List.map_nil, List.append_nil]

theorem isActiveOwner_iff {m : Member} : m.isActiveOwner = true ↔ m.status = .active ∧ m.role = .owner := by
  simp [Member.isActiveOwner]

/-- The membership that a request looks up is the one it names. -/
theorem findMember_of_holds {w : Workspace} (seat : Seat) (hw : w.Normal L) {existing m : Member}
    (h : findMember L w seat.email seat.project seat.organization = .ok existing) (hm : m ∈ w.members)
    (hholds : seat.Holds L m) : existing = m := by
  unfold findMember at h
  split at h
  · rename_i found hfound
    cases h
    have hat : existing.isAt L seat.email seat.project seat.organization := by
      simpa using List.find?_some hfound
    exact holds_unique seat hw (List.mem_of_find?_eq_some hfound) hm hat hholds
  · cases h

/-- The check leaves another owner, or no owner loses the membership. -/
theorem ensureOwnerRemains_ok {w : Workspace} (seat : Seat) (hw : w.Normal L) {nextRole : Option Role} {u : Unit}
    (hproject : ∀ id, seat.project = some id → projectOrganization w.projects id = some seat.organization)
    (h : ensureOwnerRemains L w seat.email seat.organization seat.project nextRole = .ok u) {m : Member}
    (hm : m ∈ w.members) (hholds : seat.Holds L m) (howner : m.isActiveOwner = true) :
    nextRole = some .owner ∨ seat.Shared L w := by
  unfold ensureOwnerRemains at h
  split at h
  · rename_i hnext
    exact .inl hnext
  · right
    split at h
    · rename_i hnone
      exact absurd (by simpa using holds_strip (hw.members m hm) hholds)
        (by simpa using List.find?_eq_none.mp hnone m hm)
    · rename_i target htarget
      have hsame : target = m := by
        have hat : target.isAt L (strip seat.email) seat.project seat.organization := by
          simpa using List.find?_some htarget
        exact holds_unique ⟨strip seat.email, seat.project, seat.organization⟩ hw
          (List.mem_of_find?_eq_some htarget) hm hat (holds_strip (hw.members m hm) hholds)
      rw [hsame, if_pos howner] at h
      have hother := require_ok h
      rw [otherOwnerExists, List.any_eq_true] at hother
      obtain ⟨m', hm', hother⟩ := hother
      simp only [Bool.and_eq_true, Bool.or_eq_true, decide_eq_true_eq, ne_eq] at hother
      obtain ⟨⟨⟨hemail, howner'⟩, horganization⟩, hplace⟩ := hother
      refine ⟨m', hm', fun hholds' => hemail ?_, ?_⟩
      · exact (holds_strip (hw.members m' hm') hholds').1
      · unfold Seat.scope
        cases hp : seat.project with
        | none =>
            rw [hp] at hplace
            exact ⟨howner', by simpa using hplace, horganization⟩
        | some id =>
            rw [hp] at hplace
            refine ⟨howner', ?_⟩
            rcases hplace with hplace | hplace
            · exact .inl hplace
            · refine .inr ⟨by simpa using hplace, ?_⟩
              rw [hproject id hp, horganization]

/-- What a call that succeeded wrote, and what became of an active owner who was the member. -/
def Outcome (L : Lowering) (w : Workspace) (call : MemberCall) (s' : Settings) : Prop :=
  ∃ next, s' = (w.put L (call.seat w) next).settings ∧ (next.isSome → (call.seat w).Valid w) ∧
    (call.asks = true → (call.seat w).Kept L w next) ∧
    (call.asks = false → ∀ m ∈ w.members, (call.seat w).Holds L m → m.isActiveOwner = true →
      (next = some (.owner, .active) ↔ call.confirmsOwner L))

theorem inviteWorkspaceMember_outcome {request : ProjectId} {body : MemberInvite}
    (h : inviteWorkspaceMember L caller request body s = .ok s') :
    Outcome L (normalizeWorkspace L s) (.inviteWorkspaceMember request body) s' := by
  simp only [inviteWorkspaceMember, bind_ok, pure_ok] at h
  obtain ⟨_, hexists, _, _, rfl⟩ := h
  have hvalid := valid_project (normal_normalizeWorkspace L s) body.email
    (organizationOf_of_isSome (require_ok hexists))
  refine ⟨_, upsertMember_eq hvalid _ _, fun _ => hvalid, by rintro ⟨⟩, fun _ m _ _ _ => ?_⟩
  simp [MemberCall.confirmsOwner]

theorem orElseText_ne {given : Option String} {existing : String} (h : existing ≠ "") :
    orElseText given existing ≠ "" := by
  unfold orElseText
  split
  · split
    · exact h
    · assumption
  · exact h

theorem normalizeStatusArgument_active {text : String} {status : MemberStatus} (hne : text ≠ "")
    (h : normalizeStatusArgument L text = .ok status) :
    status = .active ↔ L.lower (strip text) = "active" := by
  unfold normalizeStatusArgument at h
  rw [if_neg hne] at h
  split at h
  · rename_i hactive
    cases h
    exact iff_of_true rfl hactive
  · rename_i hactive
    split at h
    · cases h
      exact iff_of_false (by rintro ⟨⟩) hactive
    · cases h

theorem updateWorkspaceMember_outcome {request : ProjectId} {email : EmailAddress} {body : MemberUpdate}
    (h : updateWorkspaceMember L caller request email body s = .ok s') :
    Outcome L (normalizeWorkspace L s) (.updateWorkspaceMember request email body) s' := by
  simp only [updateWorkspaceMember, bind_ok, pure_ok] at h
  obtain ⟨_, hexists, _, _, existing, hexisting, status, hstatus, rfl⟩ := h
  have hnormal := normal_normalizeWorkspace L s
  have hvalid := valid_project hnormal email (organizationOf_of_isSome (require_ok hexists))
  refine ⟨_, upsertMember_eq hvalid _ _, fun _ => hvalid, by rintro ⟨⟩,
    fun _ m hm hholds howner => ?_⟩
  have hsame : existing = m := findMember_of_holds ⟨_, some _, _⟩ hnormal hexisting hm hholds
  rw [isActiveOwner_iff] at howner
  rw [hsame, howner.1] at hstatus
  rw [hsame, howner.2, Option.some.injEq, Prod.mk.injEq, MemberCall.confirmsOwner]
  exact and_congr_right fun _ => normalizeStatusArgument_active (orElseText_ne (by decide)) hstatus

theorem deleteWorkspaceMember_outcome {request : ProjectId} {email : EmailAddress} {project : Option String}
    (h : deleteWorkspaceMember L caller request email project s = .ok s') :
    Outcome L (normalizeWorkspace L s) (.deleteWorkspaceMember request email project) s' := by
  simp only [deleteWorkspaceMember, bind_ok, pure_ok] at h
  obtain ⟨_, _, _, _, _, _, _, _, rfl⟩ := h
  refine ⟨_, removeMember_eq ⟨_, some _, _⟩, by rintro ⟨⟩, by rintro ⟨⟩, fun _ m _ _ _ => ?_⟩
  simp [MemberCall.confirmsOwner]

theorem addOrgMember_outcome {registered : String → Bool} {orgId : ScopeId} {body : MemberInvite}
    (h : addOrgMember L registered caller orgId body s = .ok s') :
    Outcome L (normalizeWorkspace L s) (.addOrgMember registered orgId body) s' := by
  simp only [addOrgMember, bind_ok, pure_ok] at h
  obtain ⟨_, hexists, _, _, rfl⟩ := h
  have hvalid := valid_organization body.email (ensureOrgExists_ok hexists)
  refine ⟨_, upsertMember_eq hvalid _ _, fun _ => hvalid, by rintro ⟨⟩, fun _ m _ _ _ => ?_⟩
  simp [MemberCall.confirmsOwner, invitationStatus]

theorem updateOrgMember_outcome {orgId : ScopeId} {body : MemberInvite}
    (h : updateOrgMember L caller orgId body s = .ok s') :
    Outcome L (normalizeWorkspace L s) (.updateOrgMember orgId body) s' := by
  simp only [updateOrgMember, bind_ok, pure_ok] at h
  obtain ⟨_, hexists, _, _, existing, hexisting, _, hremains, rfl⟩ := h
  have hnormal := normal_normalizeWorkspace L s
  have hvalid := valid_organization body.email (ensureOrgExists_ok hexists)
  refine ⟨_, upsertMember_eq hvalid _ _, fun _ => hvalid, fun _ m hm hholds howner => ?_,
    by rintro ⟨⟩⟩
  have hsame : existing = m := findMember_of_holds ⟨_, none, _⟩ hnormal hexisting hm hholds
  refine (ensureOwnerRemains_ok ⟨_, none, _⟩ hnormal (by rintro _ ⟨⟩) hremains hm hholds howner).imp_left ?_
  intro hnext
  rw [isActiveOwner_iff] at howner
  rw [hsame, howner.1, Option.some.inj hnext]

theorem removeOrgMember_outcome {orgId : ScopeId} {email : String}
    (h : removeOrgMember L caller orgId email s = .ok s') :
    Outcome L (normalizeWorkspace L s) (.removeOrgMember orgId email) s' := by
  simp only [removeOrgMember, bind_ok, pure_ok] at h
  obtain ⟨_, _, _, _, _, _, _, _, _, _, _, hremains, rfl⟩ := h
  have hnormal := normal_normalizeWorkspace L s
  refine ⟨_, removeMember_eq ⟨_, none, _⟩, by rintro ⟨⟩, fun _ m hm hholds howner => ?_, by rintro ⟨⟩⟩
  exact (ensureOwnerRemains_ok ⟨_, none, _⟩ hnormal (by rintro _ ⟨⟩) hremains hm hholds howner).imp_left
    (by rintro ⟨⟩)

theorem addProjectMember_outcome {registered : String → Bool} {orgId projectId : ScopeId} {body : MemberInvite}
    (h : addProjectMember L registered caller orgId projectId body s = .ok s') :
    Outcome L (normalizeWorkspace L s) (.addProjectMember registered orgId projectId body) s' := by
  simp only [addProjectMember, bind_ok, pure_ok] at h
  obtain ⟨_, hexists, _, _, rfl⟩ := h
  have hvalid := valid_project (normal_normalizeWorkspace L s) body.email
    (findProject_any (require_ok hexists))
  refine ⟨_, upsertMember_eq hvalid _ _, fun _ => hvalid, by rintro ⟨⟩, fun _ m _ _ _ => ?_⟩
  simp [MemberCall.confirmsOwner, invitationStatus]

theorem updateProjectMember_outcome {orgId projectId : ScopeId} {body : MemberInvite}
    (h : updateProjectMember L caller orgId projectId body s = .ok s') :
    Outcome L (normalizeWorkspace L s) (.updateProjectMember orgId projectId body) s' := by
  simp only [updateProjectMember, bind_ok, pure_ok] at h
  obtain ⟨_, hexists, _, _, existing, hexisting, _, hremains, rfl⟩ := h
  have hnormal := normal_normalizeWorkspace L s
  have hvalid := valid_project hnormal body.email (findProject_any (require_ok hexists))
  refine ⟨_, upsertMember_eq hvalid _ _, fun _ => hvalid, fun _ m hm hholds howner => ?_,
    by rintro ⟨⟩⟩
  have hsame : existing = m := findMember_of_holds ⟨_, some _, _⟩ hnormal hexisting hm hholds
  refine (ensureOwnerRemains_ok ⟨_, some _, _⟩ hnormal hvalid.project hremains hm hholds
    howner).imp_left ?_
  intro hnext
  rw [isActiveOwner_iff] at howner
  rw [hsame, howner.1, Option.some.inj hnext]

theorem deleteProjectMember_outcome {orgId projectId : ScopeId} {email : EmailAddress}
    (h : deleteProjectMember L caller orgId projectId email s = .ok s') :
    Outcome L (normalizeWorkspace L s) (.deleteProjectMember orgId projectId email) s' := by
  simp only [deleteProjectMember, bind_ok, pure_ok] at h
  obtain ⟨_, _, _, _, _, hexists, _, _, _, hremains, rfl⟩ := h
  have hnormal := normal_normalizeWorkspace L s
  have hvalid := valid_project hnormal email (findProject_any (require_ok hexists))
  refine ⟨_, removeMember_eq ⟨_, some _, _⟩, by rintro ⟨⟩, fun _ m hm hholds howner => ?_,
    by rintro ⟨⟩⟩
  exact (ensureOwnerRemains_ok ⟨_, some _, _⟩ hnormal hvalid.project hremains hm hholds
    howner).imp_left (by rintro ⟨⟩)

theorem run_outcome {call : MemberCall} (h : call.run L caller s = .ok s') :
    Outcome L (normalizeWorkspace L s) call s' := by
  cases call with
  | inviteWorkspaceMember request body => exact inviteWorkspaceMember_outcome h
  | updateWorkspaceMember request email body => exact updateWorkspaceMember_outcome h
  | deleteWorkspaceMember request email project => exact deleteWorkspaceMember_outcome h
  | addOrgMember registered orgId body => exact addOrgMember_outcome h
  | updateOrgMember orgId body => exact updateOrgMember_outcome h
  | removeOrgMember orgId email => exact removeOrgMember_outcome h
  | addProjectMember registered orgId projectId body => exact addProjectMember_outcome h
  | updateProjectMember orgId projectId body => exact updateProjectMember_outcome h
  | deleteProjectMember orgId projectId email => exact deleteProjectMember_outcome h

/-! ## Runs -/

/-- A call that succeeds keeps what is owned owned exactly when it spares the last owners. -/
theorem spares_iff {call : MemberCall} (h : call.run L caller s = .ok s') :
    (∀ scope, (normalizeWorkspace L s).Owned scope → (normalizeWorkspace L s').Owned scope) ↔
      call.Spares L (normalizeWorkspace L s) := by
  obtain ⟨next, rfl, hvalid, hasks, hconfirms⟩ := run_outcome h
  rw [normalizeWorkspace_settings (put_normal (normal_normalizeWorkspace L s) hvalid)]
  have hkept : (call.seat (normalizeWorkspace L s)).Kept L (normalizeWorkspace L s) next ↔
      call.Spares L (normalizeWorkspace L s) := by
    cases hcase : call.asks with
    | true => exact iff_of_true (hasks hcase) (.inl hcase)
    | false =>
        constructor
        · intro hkept
          by_cases hconfirm : call.confirmsOwner L
          · exact .inr (.inl hconfirm)
          · refine .inr (.inr fun m hm hholds howner => ?_)
            refine (hkept m hm hholds howner).resolve_left fun hnext => hconfirm ?_
            exact (hconfirms hcase m hm hholds howner).mp hnext
        · rintro (hask | hconfirm | hshared) m hm hholds howner
          · rw [hcase] at hask
            cases hask
          · exact .inl ((hconfirms hcase m hm hholds howner).mpr hconfirm)
          · exact .inr (hshared m hm hholds howner)
  rw [← hkept]
  exact ⟨kept_of_put_owned, fun h scope => put_owned h⟩

/-- Every call of a run spares the last owners of the workspace it finds. -/
def AllSpare (L : Lowering) : Settings → List (Caller × MemberCall) → Prop
  | _, [] => True
  | s, call :: calls => call.2.Spares L (normalizeWorkspace L s) ∧ AllSpare L (MemberCall.apply L s call) calls

theorem owned_apply {call : Caller × MemberCall} (h : call.2.Spares L (normalizeWorkspace L s))
    {scope : OwnerScope} (howned : (normalizeWorkspace L s).Owned scope) :
    (normalizeWorkspace L (MemberCall.apply L s call)).Owned scope := by
  unfold MemberCall.apply
  cases hrun : call.2.run L call.1 s with
  | ok s' => exact (spares_iff hrun).mpr h scope howned
  | error e => exact howned

/-- A run of calls that spare the last owners leaves every organization and every project that has an
active owner with one. -/
theorem owners_remain (L : Lowering) (s : Settings) (calls : List (Caller × MemberCall))
    (hspare : AllSpare L s calls) (scope : OwnerScope) (howned : (normalizeWorkspace L s).Owned scope) :
    (normalizeWorkspace L (applyMemberCalls L s calls)).Owned scope := by
  induction calls generalizing s with
  | nil => exact howned
  | cons call calls ih => exact ih _ hspare.2 (owned_apply hspare.1 howned)

end

/-- A project with one owner, in an organization with none. -/
def soleOwner : Settings where
  organization := some defaultOrgId
  organizations := [defaultOrgId]
  activeOrganization := some defaultOrgId
  projects := [defaultProject]
  members := [⟨"ann@example.com", some "OWNER", some "active", some defaultProject.id, some defaultOrgId⟩]

def confirmSoleOwner : Caller × MemberCall :=
  (⟨.adminApiKey, none⟩, .updateProjectMember defaultOrgId defaultProject.id
    ⟨⟨"ann@example.com", by decide, by decide⟩, "owner", none⟩)

theorem owners_remain_confirmed : (normalizeWorkspace .ascii
    (applyMemberCalls .ascii soleOwner [confirmSoleOwner])).Owned (.project defaultProject.id) :=
  owners_remain .ascii soleOwner [confirmSoleOwner] ⟨.inl rfl, trivial⟩ _
    ⟨⟨"ann@example.com", .owner, .active, some defaultProject.id, defaultOrgId⟩, by decide, rfl, .inl rfl⟩

/-- An administrator removes the owner from the workspace. -/
def removeSoleOwner : Caller × MemberCall :=
  (⟨.adminApiKey, none⟩, .deleteWorkspaceMember ProjectId.default
    ⟨"ann@example.com", by decide, by decide⟩ none)

theorem sole_owner_removed :
    ¬ ∀ (L : Lowering) (s : Settings) (calls : List (Caller × MemberCall)) (scope : OwnerScope),
      (normalizeWorkspace L s).Owned scope → (normalizeWorkspace L (applyMemberCalls L s calls)).Owned scope := by
  intro h
  have howned := h .ascii soleOwner [removeSoleOwner] (.project defaultProject.id)
    ⟨⟨"ann@example.com", .owner, .active, some defaultProject.id, defaultOrgId⟩, by decide, rfl, .inl rfl⟩
  have hempty : (normalizeWorkspace .ascii (applyMemberCalls .ascii soleOwner [removeSoleOwner])).members = [] :=
    by decide
  obtain ⟨m, hm, _⟩ := howned
  rw [hempty] at hm
  cases hm

end YiQiao
