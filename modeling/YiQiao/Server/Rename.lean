import YiQiao.Server.Owners

/-!
# Renaming a member

An account that changes its address takes its memberships along. Where memberships are recorded under the new
address already, the first of those in one place stays.
-/

namespace YiQiao

open Lib

/-- The membership of a renamed account. -/
def Member.rename (L : Lowering) (old new : String) (m : Member) : Member :=
  if L.lower m.email = old then { m with email := new } else m

/-- `replace_member_email`. -/
def replaceMemberEmail (L : Lowering) (s : Settings) (oldEmail newEmail : String) : Settings :=
  let w := normalizeWorkspace L s
  let old := L.lower (strip oldEmail)
  let new := L.lower (strip newEmail)
  if old = "" ∨ new = "" ∨ old = new then w.settings
  else Workspace.settings (normalizeWorkspace L
    (Workspace.settings { w with members := w.members.map (Member.rename L old new) }))

/-! ## Roles -/

/-- The role in a project or in an organization. -/
def roleAt (L : Lowering) (w : Workspace) (email : String) : OwnerScope → Option Role
  | .organization id => organizationRole L w (some email) id
  | .project id => memberRole L w (some email) id

/-- The membership is active, and counts in the project or in the organization. -/
def Member.GivesAt (w : Workspace) (m : Member) (scope : OwnerScope) : Prop :=
  m.status = .active ∧ match scope with
    | .organization id => m.project = none ∧ m.organization = id
    | .project id => match m.project with
        | some p => p = id
        | none => ∃ project, findProject w id = some project ∧ m.organization = project.organization

/-- The one membership stands before the other one, in the same place. -/
def Workspace.Before (w : Workspace) (first later : Member) : Prop :=
  first.project = later.project ∧ first.organization = later.organization ∧
    ∃ front back, w.members = front ++ later :: back ∧ first ∈ front

/-- The membership is the first of those that get the new address, in its place. -/
def Workspace.Stays (w : Workspace) (old new : String) (m : Member) : Prop :=
  m ∈ w.members ∧ (m.email = old ∨ m.email = new) ∧
    ∀ other ∈ w.members, other.email = old ∨ other.email = new → ¬ w.Before other m

/-- No membership of the new address stays that gives more than those of the old one, and what is lost behind one
is given by another. -/
def Workspace.Clear (w : Workspace) (old new : String) : Prop :=
  ∀ scope : OwnerScope,
    (∀ m, w.Stays old new m → m.email = new → m.GivesAt w scope →
      ∃ m' ∈ w.members, m'.email = old ∧ m'.GivesAt w scope ∧ Role.rank (some m.role) ≤ Role.rank (some m'.role)) ∧
    ∀ m ∈ w.members, m.email = old → m.GivesAt w scope → ¬ w.Stays old new m →
      ∃ m', w.Stays old new m' ∧ m'.GivesAt w scope ∧ Role.rank (some m.role) ≤ Role.rank (some m'.role)

section
variable {L : Lowering} {w : Workspace}

theorem rank_le_owner (role : Option Role) : Role.rank role ≤ 3 := by
  cases role with
  | none => decide
  | some role => cases role <;> decide

theorem rank_injective {left right : Option Role} (h : Role.rank left = Role.rank right) : left = right := by
  revert h
  rcases left with _ | _ | _ | _ <;> rcases right with _ | _ | _ | _ <;> decide

theorem rank_strongest (left right : Option Role) :
    Role.rank (strongestRole left right) = max (Role.rank left) (Role.rank right) := by
  unfold strongestRole
  split
  · next h => exact (Nat.max_eq_left h).symm
  · next h => exact (Nat.max_eq_right (Nat.le_of_not_le h)).symm

theorem le_rank_bestRole {k : Nat} {best : Option Role} {roles : List Role} :
    k ≤ Role.rank (bestRole best roles) ↔ k ≤ Role.rank best ∨ ∃ role ∈ roles, k ≤ Role.rank (some role) := by
  induction roles generalizing best with
  | nil => simp [bestRole]
  | cons role roles ih =>
      rw [bestRole]
      split
      · next howner =>
        subst howner
        constructor
        · intro h
          exact .inr ⟨.owner, List.mem_cons_self, h⟩
        · rintro (h | ⟨role, -, h⟩)
          · exact Nat.le_trans h (rank_le_owner best)
          · exact Nat.le_trans h (rank_le_owner (some role))
      · rw [ih, rank_strongest, le_max_iff]
        simp [or_assoc]

theorem le_rank_roleAt {email : String} (hne : email ≠ "") {scope : OwnerScope} {k : Nat} (hk : 0 < k) :
    k ≤ Role.rank (roleAt L w email scope) ↔
      ∃ m ∈ w.members, L.lower m.email = L.lower email ∧ m.GivesAt w scope ∧ k ≤ Role.rank (some m.role) := by
  have hnone : ¬ k ≤ Role.rank none := Nat.not_le_of_gt hk
  have hactive : ∀ counts : Member → Bool, k ≤ Role.rank (activeRoles L w (some email) counts) ↔
      ∃ m ∈ w.members, L.lower m.email = L.lower email ∧ (m.status = .active ∧ counts m = true) ∧
        k ≤ Role.rank (some m.role) := by
    intro counts
    simp only [activeRoles, if_neg hne, le_rank_bestRole, hnone, false_or, List.mem_map, List.mem_filter,
      Bool.and_eq_true, decide_eq_true_eq]
    constructor
    · rintro ⟨_, ⟨m, ⟨hm, ⟨hemail, hstatus⟩, hcounts⟩, rfl⟩, hle⟩
      exact ⟨m, hm, hemail, ⟨hstatus, hcounts⟩, hle⟩
    · rintro ⟨m, hm, hemail, ⟨hstatus, hcounts⟩, hle⟩
      exact ⟨m.role, ⟨m, ⟨hm, ⟨hemail, hstatus⟩, hcounts⟩, rfl⟩, hle⟩
  cases scope with
  | organization id =>
      rw [roleAt, organizationRole, hactive]
      simp only [Member.GivesAt, Bool.and_eq_true, decide_eq_true_eq]
  | project id =>
      rw [roleAt, memberRole, hactive]
      refine exists_congr fun m => and_congr_right fun _ => and_congr_right fun _ => and_congr_left fun _ => ?_
      refine and_congr_right fun _ => ?_
      cases m.project with
      | some p => simp
      | none => simp [Option.any_eq_true]

/-- Two roles are the same when what gives the one is matched by what gives the other. -/
theorem roleAt_eq_iff {w' : Workspace} {email email' : String} (hne : email ≠ "") (hne' : email' ≠ "")
    {scope : OwnerScope} : roleAt L w email scope = roleAt L w' email' scope ↔
      (∀ m ∈ w.members, L.lower m.email = L.lower email → m.GivesAt w scope → ∃ m' ∈ w'.members,
        L.lower m'.email = L.lower email' ∧ m'.GivesAt w' scope ∧ Role.rank (some m.role) ≤ Role.rank (some m'.role)) ∧
      ∀ m' ∈ w'.members, L.lower m'.email = L.lower email' → m'.GivesAt w' scope → ∃ m ∈ w.members,
        L.lower m.email = L.lower email ∧ m.GivesAt w scope ∧ Role.rank (some m'.role) ≤ Role.rank (some m.role) := by
  have hpos : ∀ role : Role, 0 < Role.rank (some role) := fun role => by cases role <;> decide
  constructor
  · intro heq
    constructor
    · intro m hm hemail hgives
      have hle := (le_rank_roleAt hne (hpos m.role)).mpr ⟨m, hm, hemail, hgives, Nat.le_refl _⟩
      exact (le_rank_roleAt hne' (hpos m.role)).mp (heq ▸ hle)
    · intro m hm hemail hgives
      have hle := (le_rank_roleAt hne' (hpos m.role)).mpr ⟨m, hm, hemail, hgives, Nat.le_refl _⟩
      exact (le_rank_roleAt hne (hpos m.role)).mp (heq ▸ hle)
  · rintro ⟨hleft, hright⟩
    refine rank_injective (Nat.le_antisymm ?_ ?_)
    · cases hk : Role.rank (roleAt L w email scope) with
      | zero => exact Nat.zero_le _
      | succ k =>
          obtain ⟨m, hm, hemail, hgives, hle⟩ := (le_rank_roleAt hne k.succ_pos).mp (Nat.le_of_eq hk.symm)
          obtain ⟨m', hm', hemail', hgives', hle'⟩ := hleft m hm hemail hgives
          exact (le_rank_roleAt hne' k.succ_pos).mpr ⟨m', hm', hemail', hgives', Nat.le_trans hle hle'⟩
    · cases hk : Role.rank (roleAt L w' email' scope) with
      | zero => exact Nat.zero_le _
      | succ k =>
          obtain ⟨m, hm, hemail, hgives, hle⟩ := (le_rank_roleAt hne' k.succ_pos).mp (Nat.le_of_eq hk.symm)
          obtain ⟨m', hm', hemail', hgives', hle'⟩ := hright m hm hemail hgives
          exact (le_rank_roleAt hne k.succ_pos).mpr ⟨m', hm', hemail', hgives', Nat.le_trans hle hle'⟩

end

/-! ## The renamed workspace -/

section
variable {L : Lowering} {w : Workspace} {old new : String}

def Workspace.renamed (L : Lowering) (w : Workspace) (old new : String) : Workspace :=
  { w with members := firstsBy Member.key (w.members.map (Member.rename L old new)) }

theorem Member.Normal.rename {m : Member} (h : m.Normal L w) (hne : new ≠ "") (hnew : L.lower (strip new) = new) :
    (m.rename L old new).Normal L w := by
  unfold Member.rename
  split
  · exact ⟨hne, hnew, h.project, h.settled⟩
  · exact h

theorem normalize_renamed (hw : w.Normal L) (hne : new ≠ "") (hnew : L.lower (strip new) = new) :
    normalizeWorkspace L (Workspace.settings { w with members := w.members.map (Member.rename L old new) }) =
      w.renamed L old new := by
  let settings : Settings := Workspace.settings { w with members := w.members.map (Member.rename L old new) }
  have horganizations : normalizeOrganizations settings = w.organizations :=
    (normalizeOrganizations_settings hw : normalizeOrganizations w.settings = w.organizations)
  have hprojects : normalizeProjects settings = w.projects :=
    (normalizeProjects_settings hw : normalizeProjects w.settings = w.projects)
  have hmembers : settings.members.filterMap (normalizeMember L settings) = w.members.map (Member.rename L old new) := by
    have hentries : settings.members = (w.members.map (Member.rename L old new)).map Member.entry := rfl
    rw [hentries, List.map_map, List.filterMap_map, ← List.filterMap_eq_map]
    refine List.filterMap_congr fun m hm => ?_
    exact normalizeMember_entry hw ((hw.members m hm).rename hne hnew)
  have hactive : activeOrganization settings = w.activeOrganization := rfl
  change normalizeWorkspace L settings = _
  rw [normalizeWorkspace, horganizations, hprojects, hmembers, hactive]
  rfl

theorem mem_renamed {m : Member} : m ∈ (w.renamed L old new).members ↔ ∃ front first back,
    w.members = front ++ first :: back ∧ first.rename L old new = m ∧
      ∀ b ∈ front, (b.rename L old new).key ≠ m.key := by
  rw [Workspace.renamed, mem_firstsBy]
  constructor
  · rintro ⟨front, back, hsplit, hfront⟩
    obtain ⟨front', rest, hmembers, rfl, hrest⟩ := List.map_eq_append_iff.mp hsplit
    obtain ⟨first, back', rfl, rfl, rfl⟩ := List.map_eq_cons_iff.mp hrest
    exact ⟨front', first, back', hmembers, rfl, fun b hb => hfront _ (List.mem_map_of_mem hb)⟩
  · rintro ⟨front, first, back, hmembers, rfl, hfront⟩
    refine ⟨front.map (Member.rename L old new), back.map (Member.rename L old new), by simp [hmembers], ?_⟩
    intro b hb
    obtain ⟨other, hother, rfl⟩ := List.mem_map.mp hb
    exact hfront other hother

theorem rename_of_email {m : Member} (hm : m.Normal L w) (h : m.email = old ∨ m.email = new) :
    (m.rename L old new).email = new := by
  unfold Member.rename
  split
  · rfl
  · next hne => exact h.resolve_left fun hold => hne (hm.lower_email.trans hold)

theorem rename_of_other {m : Member} (hm : m.Normal L w) (h : m.email ≠ old) : m.rename L old new = m := by
  rw [Member.rename, if_neg (by rwa [hm.lower_email])]

theorem email_of_rename {m : Member} (hm : m.Normal L w) (h : (m.rename L old new).email = new) :
    m.email = old ∨ m.email = new := by
  by_cases hold : m.email = old
  · exact .inl hold
  · exact .inr (rename_of_other hm hold ▸ h)

@[simp] theorem rename_project (m : Member) : (m.rename L old new).project = m.project := by
  unfold Member.rename; split <;> rfl

@[simp] theorem rename_organization (m : Member) : (m.rename L old new).organization = m.organization := by
  unfold Member.rename; split <;> rfl

@[simp] theorem rename_role (m : Member) : (m.rename L old new).role = m.role := by
  unfold Member.rename; split <;> rfl

@[simp] theorem rename_status (m : Member) : (m.rename L old new).status = m.status := by
  unfold Member.rename; split <;> rfl

theorem rename_givesAt {m : Member} {scope : OwnerScope} :
    (m.rename L old new).GivesAt (w.renamed L old new) scope ↔ m.GivesAt w scope := by
  simp only [Member.GivesAt, rename_project, rename_organization, rename_status]
  rfl

/-- Who has the new address afterwards is who stays. -/
theorem mem_renamed_new (hw : w.Normal L) {m : Member} :
    m ∈ (w.renamed L old new).members ∧ m.email = new ↔ ∃ m', w.Stays old new m' ∧ m'.rename L old new = m := by
  have hmembers : w.members.Nodup := List.Nodup.of_map _ hw.keys
  constructor
  · rintro ⟨hm, hemail⟩
    obtain ⟨front, first, back, hsplit, rfl, hfront⟩ := mem_renamed.mp hm
    have hfirst : first ∈ w.members := hsplit ▸ List.mem_append_right _ List.mem_cons_self
    have haddress := email_of_rename (hw.members first hfirst) hemail
    refine ⟨first, ⟨hfirst, haddress, fun other hother hemail' hbefore => ?_⟩, rfl⟩
    obtain ⟨hproject, horganization, front', back', hsplit', hother'⟩ := hbefore
    have hfront' : front = front' := by
      have hnotMem : first ∉ front' ++ back' := (List.nodup_cons.mp (List.nodup_middle.mp (hsplit' ▸ hmembers))).1
      rw [List.mem_append, not_or] at hnotMem
      have hnotMem' : first ∉ front ++ back := (List.nodup_cons.mp (List.nodup_middle.mp (hsplit ▸ hmembers))).1
      rw [List.mem_append, not_or] at hnotMem'
      exact ((List.append_cons_inj_of_notMem hnotMem'.1 hnotMem'.2).mp (hsplit.symm.trans hsplit')).1
    refine hfront other (hfront'.symm ▸ hother') ?_
    simp only [Member.key, rename_of_email (hw.members other hother) hemail', hemail, rename_project, hproject,
      rename_organization, horganization]
  · rintro ⟨m', ⟨hm', haddress, hstays⟩, rfl⟩
    obtain ⟨front, back, hsplit⟩ := List.append_of_mem hm'
    have hemail := rename_of_email (hw.members m' hm') haddress
    refine ⟨mem_renamed.mpr ⟨front, m', back, hsplit, rfl, fun b hb hkey => ?_⟩, hemail⟩
    have hmem : b ∈ w.members := hsplit ▸ List.mem_append_left _ hb
    simp only [Member.key, Prod.mk.injEq, rename_project, rename_organization, hemail] at hkey
    exact hstays b hmem (email_of_rename (hw.members b hmem) hkey.1) ⟨hkey.2.1, hkey.2.2, front, back, hsplit, hb⟩

/-- Nobody else changes. -/
theorem mem_renamed_other (hw : w.Normal L) {m : Member} (hold : m.email ≠ old) (hnew : m.email ≠ new) :
    m ∈ (w.renamed L old new).members ↔ m ∈ w.members := by
  constructor
  · intro hm
    obtain ⟨front, first, back, hsplit, rfl, -⟩ := mem_renamed.mp hm
    have hfirst : first ∈ w.members := hsplit ▸ List.mem_append_right _ List.mem_cons_self
    have hne : first.email ≠ old := fun h => hnew (rename_of_email (hw.members first hfirst) (.inl h))
    rwa [rename_of_other (hw.members first hfirst) hne]
  · intro hm
    obtain ⟨front, back, hsplit⟩ := List.append_of_mem hm
    refine mem_renamed.mpr ⟨front, m, back, hsplit, rename_of_other (hw.members m hm) hold, fun b hb hkey => ?_⟩
    have hmem : b ∈ w.members := hsplit ▸ List.mem_append_left _ hb
    have hne : b.email ≠ old := by
      intro h
      have hemail : (b.rename L old new).email = new := rename_of_email (hw.members b hmem) (.inl h)
      exact hnew ((congrArg Prod.fst hkey).symm.trans hemail)
    rw [rename_of_other (hw.members b hmem) hne] at hkey
    have hkeys := hw.keys
    rw [hsplit, List.map_append, List.map_cons] at hkeys
    refine (List.nodup_cons.mp (List.nodup_middle.mp hkeys)).1 (List.mem_append_left _ ?_)
    exact hkey ▸ List.mem_map_of_mem hb

/-! ## Access -/

theorem roles_renamed (hw : w.Normal L) (hrenamed : (w.renamed L old new).Normal L) {email email' : String}
    (hne : email ≠ "") (hne' : email' ≠ "") (hold : L.lower email = old) (hnew : L.lower email' = new)
    {scope : OwnerScope} :
    roleAt L (w.renamed L old new) email' scope = roleAt L w email scope ↔
      (∀ m, w.Stays old new m → m.email = new → m.GivesAt w scope →
        ∃ m' ∈ w.members, m'.email = old ∧ m'.GivesAt w scope ∧ Role.rank (some m.role) ≤ Role.rank (some m'.role)) ∧
      ∀ m ∈ w.members, m.email = old → m.GivesAt w scope → ¬ w.Stays old new m →
        ∃ m', w.Stays old new m' ∧ m'.GivesAt w scope ∧ Role.rank (some m.role) ≤ Role.rank (some m'.role) := by
  rw [roleAt_eq_iff hne' hne, hold, hnew]
  constructor
  · rintro ⟨hgained, hkept⟩
    constructor
    · intro m hstays hemail hgives
      have hm := (mem_renamed_new (L := L) hw).mpr ⟨m, hstays, rfl⟩
      obtain ⟨m', hm', hemail', hgives', hle⟩ := hgained _ hm.1 (by rw [(hrenamed.members _ hm.1).lower_email, hm.2])
        (rename_givesAt.mpr hgives)
      exact ⟨m', hm', by rwa [(hw.members m' hm').lower_email] at hemail', hgives', by simpa using hle⟩
    · intro m hm hemail hgives hgone
      obtain ⟨x, hx, hemail', hgives', hle⟩ := hkept m hm (by rw [(hw.members m hm).lower_email, hemail]) hgives
      rw [(hrenamed.members x hx).lower_email] at hemail'
      obtain ⟨m', hstays, rfl⟩ := (mem_renamed_new hw).mp ⟨hx, hemail'⟩
      exact ⟨m', hstays, rename_givesAt.mp hgives', by simpa using hle⟩
  · rintro ⟨hgained, hkept⟩
    constructor
    · intro x hx hemail hgives
      rw [(hrenamed.members x hx).lower_email] at hemail
      obtain ⟨m, hstays, rfl⟩ := (mem_renamed_new hw).mp ⟨hx, hemail⟩
      rw [rename_givesAt] at hgives
      cases hstays.2.1 with
      | inl hold' => exact ⟨m, hstays.1, by rw [(hw.members m hstays.1).lower_email, hold'], hgives, by simp⟩
      | inr hnew' =>
          obtain ⟨m', hm', hemail', hgives', hle⟩ := hgained m hstays hnew' hgives
          exact ⟨m', hm', by rw [(hw.members m' hm').lower_email, hemail'], hgives', by simpa using hle⟩
    · intro m hm hemail hgives
      rw [(hw.members m hm).lower_email] at hemail
      have hback : ∃ m', w.Stays old new m' ∧ m'.GivesAt w scope ∧
          Role.rank (some m.role) ≤ Role.rank (some m'.role) := by
        by_cases hstays : w.Stays old new m
        · exact ⟨m, hstays, hgives, Nat.le_refl _⟩
        · exact hkept m hm hemail hgives hstays
      obtain ⟨m', hstays, hgives', hle⟩ := hback
      obtain ⟨hx, hnew'⟩ := (mem_renamed_new (L := L) hw).mpr ⟨m', hstays, rfl⟩
      refine ⟨m'.rename L old new, hx, ?_, rename_givesAt.mpr hgives', by simpa using hle⟩
      rw [(hrenamed.members _ hx).lower_email, hnew']

theorem roles_of_others (hw : w.Normal L) (hrenamed : (w.renamed L old new).Normal L) {email : String}
    (hold : L.lower email ≠ old) (hnew : L.lower email ≠ new) (scope : OwnerScope) :
    roleAt L (w.renamed L old new) email scope = roleAt L w email scope := by
  by_cases hne : email = ""
  · subst hne
    cases scope <;> rfl
  have hmem : ∀ {m : Member}, L.lower m.email = L.lower email → m.Normal L w →
      (m ∈ (w.renamed L old new).members ↔ m ∈ w.members) := by
    intro m hemail hm
    rw [hm.lower_email] at hemail
    exact mem_renamed_other hw (hemail ▸ hold) (hemail ▸ hnew)
  refine (roleAt_eq_iff hne hne).mpr ⟨fun m hm hemail hgives => ?_, fun m hm hemail hgives => ?_⟩
  · have hthere := hrenamed.members m hm
    have hnormal : m.Normal L w := ⟨hthere.named, hthere.lowered, hthere.project, hthere.settled⟩
    exact ⟨m, (hmem hemail hnormal).mp hm, hemail, hgives, Nat.le_refl _⟩
  · exact ⟨m, (hmem hemail (hw.members m hm)).mpr hm, hemail, hgives, Nat.le_refl _⟩

theorem roleAt_congr {email email' : String} (hne : email ≠ "") (hne' : email' ≠ "")
    (h : L.lower email = L.lower email') (scope : OwnerScope) : roleAt L w email scope = roleAt L w email' scope :=
  (roleAt_eq_iff hne hne').mpr ⟨fun m hm hemail hgives => ⟨m, hm, hemail.trans h, hgives, Nat.le_refl _⟩,
    fun m hm hemail hgives => ⟨m, hm, hemail.trans h.symm, hgives, Nat.le_refl _⟩⟩

theorem replaceMemberEmail_same {s : Settings} {old new : EmailAddress} (h : L.lower old.text = L.lower new.text) :
    normalizeWorkspace L (replaceMemberEmail L s old.text new.text) = normalizeWorkspace L s := by
  rw [replaceMemberEmail, old.stripped, new.stripped, if_pos (.inr (.inr h)), normalizeWorkspace_settings (normal_normalizeWorkspace L s)]

theorem replaceMemberEmail_renamed {s : Settings} {old new : EmailAddress} (h : L.lower old.text ≠ L.lower new.text) :
    normalizeWorkspace L (replaceMemberEmail L s old.text new.text) =
      (normalizeWorkspace L s).renamed L (L.lower old.text) (L.lower new.text) := by
  have hlower : L.lower (strip (L.lower new.text)) = L.lower new.text := by
    rw [L.strip_lower, L.lower_lower, new.stripped]
  have hguard : ¬ (L.lower old.text = "" ∨ L.lower new.text = "" ∨ L.lower old.text = L.lower new.text) := by
    rintro (hempty | hempty | hsame)
    · exact L.lower_ne _ old.named hempty
    · exact L.lower_ne _ new.named hempty
    · exact h hsame
  rw [replaceMemberEmail, old.stripped, new.stripped, if_neg hguard, normalizeWorkspace_settings (normal_normalizeWorkspace L _),
    normalize_renamed (normal_normalizeWorkspace L s) (L.lower_ne _ new.named) hlower]

/-- A renamed user has their roles afterwards, and nobody else's change, just when the memberships under the new
address are not in the way. -/
theorem rename_keeps_access_iff (L : Lowering) (s : Settings) (old new : EmailAddress) :
    let w := normalizeWorkspace L s
    let w' := normalizeWorkspace L (replaceMemberEmail L s old.text new.text)
    ((∀ scope, roleAt L w' new.text scope = roleAt L w old.text scope) ∧
        ∀ email, L.lower email ≠ L.lower old.text → L.lower email ≠ L.lower new.text →
          ∀ scope, roleAt L w' email scope = roleAt L w email scope) ↔
      L.lower old.text = L.lower new.text ∨ w.Clear (L.lower old.text) (L.lower new.text) := by
  intro w w'
  have hw : w.Normal L := normal_normalizeWorkspace L s
  by_cases hsame : L.lower old.text = L.lower new.text
  · have hw' : w' = w := replaceMemberEmail_same hsame
    simp only [hw', hsame, true_or, iff_true, implies_true, and_true]
    exact roleAt_congr new.named old.named hsame.symm
  · have hw' : w' = w.renamed L (L.lower old.text) (L.lower new.text) := replaceMemberEmail_renamed hsame
    have hrenamed : (w.renamed L (L.lower old.text) (L.lower new.text)).Normal L :=
      hw' ▸ normal_normalizeWorkspace L _
    rw [hw', or_iff_right hsame, and_iff_left fun email hold hnew scope => roles_of_others hw hrenamed hold hnew scope]
    exact forall_congr' fun scope => roles_renamed hw hrenamed old.named new.named rfl rfl

end

/-- A project whose owner is about to change to an address that was invited to it before. -/
def invitedBefore : Settings where
  organization := some defaultOrgId
  organizations := [defaultOrgId]
  activeOrganization := some defaultOrgId
  projects := [defaultProject]
  members := [⟨"b@x.org", some "READER", some "invited", some defaultProject.id, some defaultOrgId⟩,
    ⟨"a@x.org", some "OWNER", some "active", some defaultProject.id, some defaultOrgId⟩]

theorem renamed_owner_loses_project :
    memberRole .ascii (normalizeWorkspace .ascii invitedBefore) (some "a@x.org") defaultProject.id = some .owner ∧
      memberRole .ascii (normalizeWorkspace .ascii (replaceMemberEmail .ascii invitedBefore "a@x.org" "b@x.org"))
        (some "b@x.org") defaultProject.id = none := by
  decide +kernel

end YiQiao
