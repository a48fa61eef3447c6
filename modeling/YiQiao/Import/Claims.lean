import YiQiao.Import.Fence

/-!
# Claims of import keys

The manifest of a key as a lock: a chunk of a job claims it, and holds it until the manifest is marked
otherwise. What one step can do to a manifest is said once; that claims exclude one another, and that a key
which was stored or split is not claimed again, follow for whole runs.
-/

namespace YiQiao

open Lib

variable {db : Database} {p k : String}

/-- The unique constraints of the manifests table. -/
structure Database.ManifestsUnique (db : Database) : Prop where
  ids : (db.manifests.map ManifestRow.id).Nodup
  keys : (db.manifests.map fun row => (row.projectId, row.importKey)).Nodup

def Database.manifestAt (db : Database) (projectId importKey : String) : Option ManifestRow :=
  db.manifests.find? (ManifestRow.isAt projectId importKey)

/-- The key is free, or its manifest can be claimed again. -/
def Claimable (manifest : Option ManifestRow) : Prop :=
  ∀ row, manifest = some row → row.status ∈ reclaimableStatuses

/-- The statuses of a key that was stored or split. -/
def settledStatuses : List RecordStatus := succeededManifestStatuses ++ [.split]

def ManifestRow.settled (row : ManifestRow) : Prop := row.status ∈ settledStatuses

/-- A successful call of `claim_manifest`. -/
def Step.Claims (db : Database) (step : Step) (c : Claim) : Prop :=
  ∃ fence now db', step.run db = .ok (true, db') ∧
    (step = .mutate (.insertManifest c) fence now ∨ step = .mutate (.reclaimManifest c) fence now)

/-- What one step can do to the manifest of a key. -/
inductive ManifestChange (p k : String) (db : Database) (step : Step) : Option ManifestRow → Prop
  | same : (∀ c, step.Claims db c → ¬ (c.projectId = p ∧ c.importKey = k)) →
      ManifestChange p k db step (db.manifestAt p k)
  | claim (c : Claim) (row : ManifestRow) : step.Claims db c → c.projectId = p → c.importKey = k →
      Claimable (db.manifestAt p k) →
      row.status = .claimed → row.jobId = some c.jobId → row.chunkId = some c.chunkId →
      ManifestChange p k db step (some row)
  | upgrade (row : ManifestRow) : (∀ c, ¬ step.Claims db c) → db.manifestAt p k = some row →
      row.status = .released → ManifestChange p k db step (some { row with status := .split })
  | mark (jobId : String) (mark : ManifestMark) (fence : Option String) (now : Instant) (row : ManifestRow) :
      step = .mutate (.markManifest p k jobId mark) fence now → db.manifestAt p k = some row →
      ManifestChange p k db step (some (mark.on row))

/-! ## One step -/

variable {fence : Option String} {now : Instant}

theorem isAt_iff {row : ManifestRow} : row.isAt p k = true ↔ row.projectId = p ∧ row.importKey = k := by
  simp [ManifestRow.isAt]

theorem manifestAt_mem {row : ManifestRow} (h : db.manifestAt p k = some row) : row ∈ db.manifests :=
  List.mem_of_find?_eq_some h

theorem manifestAt_isAt {row : ManifestRow} (h : db.manifestAt p k = some row) :
    row.projectId = p ∧ row.importKey = k := isAt_iff.mp (List.find?_some h)

theorem Step.after_of_ok {step : Step} {r : Bool × Database} (h : step.run db = .ok r) : step.after db = r.2 := by
  rw [after, h]

theorem insertManifest_ok {c : Claim} {r : ManifestRow × Database}
    (h : insertManifest fence c now db = .ok r) :
    (∀ row ∈ db.manifests, row.isAt c.projectId c.importKey = false ∧ row.id ≠ c.id) ∧
      r.2 = { db with manifests := db.manifests ++ [c.manifest] } := by
  simp only [insertManifest, Fallible.bind_ok, Fallible.pure_ok] at h
  obtain ⟨manifests, hinsert, rfl⟩ := h
  rw [insertRow] at hinsert
  split at hinsert
  · cases hinsert
  · split at hinsert
    · cases hinsert
    · rename_i hnone
      cases hinsert
      refine ⟨fun row hrow => ?_, rfl⟩
      simp only [Bool.not_eq_true, List.any_eq_false, Bool.or_eq_true, not_or, decide_eq_true_eq] at hnone
      exact ⟨by simpa using (hnone row hrow).1, (hnone row hrow).2⟩

/-- A second transaction of `claim_manifest` takes the manifest over, or else turns one that was released after a
split into a split one. -/
theorem reclaimManifest_ok {c : Claim} {r : (Bool × ManifestRow) × Database}
    (h : reclaimManifest fence c now db = .ok r) :
    ∃ existing, db.manifestAt c.projectId c.importKey = some existing ∧ ∃ allowed,
      (r.1.1 = true ∧ (∃ row ∈ db.manifests, db.reclaims allowed existing row = true) ∧
          r.2 = { db with manifests := updateRows (db.reclaims allowed existing) c.take db.manifests } ∨
        r.1.1 = false ∧ r.2 = { db with
          manifests := updateRows (db.upgrades allowed existing) (fun row => { row with status := .split })
            db.manifests }) := by
  rw [reclaimManifest] at h
  split at h
  · cases h
  · rename_i existing hfound
    simp only [Fallible.bind_ok, Fallible.pure_ok] at h
    obtain ⟨-, -, rfl⟩ := h
    refine ⟨existing, hfound, db.allows fence c.jobId now, ?_⟩
    by_cases hnone : hitRows (db.reclaims (db.allows fence c.jobId now) existing) db.manifests = 0
    · refine .inr ⟨by simp [hnone], ?_⟩
      simp only [if_pos hnone, updateRows_of_none (hitRows_eq_zero.mp hnone)]
    · refine .inl ⟨by simp [hnone], ?_, by simp only [if_neg hnone]⟩
      rw [hitRows, List.countP_eq_zero] at hnone
      simpa using hnone

theorem markManifest_ok {jobId : String} {mark : ManifestMark} {r : Option ManifestRow × Database}
    (h : markManifest fence p k jobId mark now db = .ok r) : ∃ hit : ManifestRow → Bool,
      (∀ row, hit row = true → row.isAt p k = true) ∧
      r.2 = { db with manifests := updateRows hit mark.on db.manifests } := by
  simp only [markManifest, Fallible.bind_ok, Fallible.pure_ok] at h
  obtain ⟨-, -, rfl⟩ := h
  refine ⟨_, fun row hrow => ?_, rfl⟩
  simp only [Bool.and_eq_true] at hrow
  exact hrow.1.1

/-- The steps that write manifests are the two of `claim_manifest` and `mark_manifest`. -/
theorem Step.manifests_of_ok {step : Step} {r : Bool × Database} (h : step.run db = .ok r) :
    r.2.manifests = db.manifests ∨ ∃ m fence now, step = .mutate m fence now ∧ m.table = some .manifests := by
  cases step with
  | mutate m fence now =>
    by_cases hm : m.table = some .manifests
    · exact .inr ⟨m, fence, now, rfl, hm⟩
    · exact .inl ((m.run_frame h).manifests hm)
  | retryLease owner jobId projectId seconds maxActive now =>
    simp only [run, acquireJobRetryLease] at h
    split at h
    · cases h
      exact .inl rfl
    · split at h
      · cases h
      · cases h
        exact .inl rfl
  | graphRetry owner jobId projectId seconds maxActive now =>
    simp only [run, activateGraphRetry] at h
    split at h
    · cases h
      exact .inl rfl
    · split at h
      · cases h
      · cases h
        exact .inl rfl
  | completeDiscard owner jobId =>
    obtain ⟨db', hend, rfl⟩ := Fallible.map_ok.mp h
    simp only [completeJobWorkspaceDiscard, endDiscard] at hend
    split at hend
    · cases hend
    · cases hend
      exact .inl rfl
  | abortDiscard owner jobId =>
    obtain ⟨db', hend, rfl⟩ := Fallible.map_ok.mp h
    simp only [abortJobWorkspaceDiscard, endDiscard] at hend
    split at hend
    · cases hend
    · cases hend
      exact .inl rfl
  | createJob row maxActive maxRetained =>
    obtain ⟨db', hcreate, rfl⟩ := Fallible.map_ok.mp h
    simp only [YiQiao.createJob] at hcreate
    split at hcreate
    · cases hcreate
    · split at hcreate
      · cases hcreate
      · split at hcreate
        · cases hcreate
        · cases hcreate
          exact .inl rfl
  | _ =>
    cases h
    exact .inl rfl

theorem Step.Claims.ok {step : Step} {c : Claim} (h : step.Claims db c) : ∃ db', step.run db = .ok (true, db') := by
  obtain ⟨_, _, db', hrun, _⟩ := h
  exact ⟨db', hrun⟩

theorem manifestAt_append {rows : List ManifestRow} {row : ManifestRow} :
    ({ db with manifests := rows ++ [row] } : Database).manifestAt p k =
      (rows.find? (ManifestRow.isAt p k)).or (if row.isAt p k then some row else none) := by
  rw [Database.manifestAt, List.find?_append]
  cases hrow : row.isAt p k with
  | true => simp [hrow]
  | false => simp [hrow]

theorem manifestAt_updateRows {hit : ManifestRow → Bool} (change : ManifestRow → ManifestRow)
    (hchange : ∀ row, ((change row).projectId, (change row).importKey) = (row.projectId, row.importKey)) :
    ({ db with manifests := updateRows hit change db.manifests } : Database).manifestAt p k =
      (db.manifestAt p k).map fun row => if hit row then change row else row := by
  refine find?_updateRows fun row => ?_
  have hrow := hchange row
  rw [Prod.mk.injEq] at hrow
  rw [ManifestRow.isAt, hrow.1, hrow.2]
  rfl

/-- A manifest that is found under one key is not the manifest of another. -/
theorem key_of_id (hu : db.ManifestsUnique) {p' k' : String} {row row' : ManifestRow}
    (h : db.manifestAt p k = some row) (h' : db.manifestAt p' k' = some row') (hid : row.id = row'.id) :
    p' = p ∧ k' = k ∧ row = row' := by
  have heq := eq_of_key_eq hu.ids (manifestAt_mem h) (manifestAt_mem h') hid
  subst heq
  obtain ⟨hp, hk⟩ := manifestAt_isAt h
  obtain ⟨hp', hk'⟩ := manifestAt_isAt h'
  exact ⟨hp'.symm.trans hp, hk'.symm.trans hk, rfl⟩

theorem reclaims_iff {allowed : Bool} {existing row : ManifestRow}
    (h : db.reclaims allowed existing row = true) : row.id = existing.id ∧ row.status ∈ reclaimableStatuses := by
  simp only [Database.reclaims, Bool.and_eq_true, decide_eq_true_eq] at h
  exact h.1.1

theorem upgrades_iff {allowed : Bool} {existing row : ManifestRow}
    (h : db.upgrades allowed existing row = true) : row.id = existing.id ∧ row.status = .released := by
  simp only [Database.upgrades, Bool.and_eq_true, decide_eq_true_eq] at h
  exact h.1.1

theorem insertManifest_change {c : Claim} {r : Bool × Database} {step : Step}
    (hstep : step = .mutate (.insertManifest c) fence now) (hrun : step.run db = .ok r) :
    ManifestChange p k db step ((step.after db).manifestAt p k) := by
  have hrun' := hrun
  rw [hstep] at hrun'
  obtain ⟨inserted, hinserted, rfl⟩ := Fallible.map_ok.mp hrun'
  obtain ⟨hnone, hdb⟩ := insertManifest_ok hinserted
  have hclaims : step.Claims db c := ⟨fence, now, inserted.2, hrun, .inl hstep⟩
  rw [Step.after_of_ok hrun, hdb, manifestAt_append]
  by_cases hkey : c.projectId = p ∧ c.importKey = k
  · obtain ⟨rfl, rfl⟩ := hkey
    have hfree : db.manifestAt c.projectId c.importKey = none :=
      List.find?_eq_none.mpr fun row hrow => by rw [(hnone row hrow).1]; exact Bool.false_ne_true
    have hrow : c.manifest.isAt c.projectId c.importKey = true := isAt_iff.mpr ⟨rfl, rfl⟩
    rw [Database.manifestAt] at hfree
    rw [hfree, hrow, if_pos rfl, Option.none_or]
    refine .claim c c.manifest hclaims rfl rfl ?_ rfl rfl rfl
    intro row hfound
    rw [Database.manifestAt, hfree] at hfound
    cases hfound
  · have hrow : c.manifest.isAt p k = false := by
      rw [← Bool.not_eq_true, isAt_iff]
      exact hkey
    rw [hrow, if_neg Bool.false_ne_true, Option.or_none]
    refine .same fun c' hc' => ?_
    obtain ⟨_, _, _, -, hc' | hc'⟩ := hc'
    · rw [hstep] at hc'
      cases hc'
      exact hkey
    · rw [hstep] at hc'
      cases hc'

theorem reclaimManifest_change (hu : db.ManifestsUnique) {c : Claim} {r : Bool × Database} {step : Step}
    (hstep : step = .mutate (.reclaimManifest c) fence now) (hrun : step.run db = .ok r) :
    ManifestChange p k db step ((step.after db).manifestAt p k) := by
  have hrun' := hrun
  rw [hstep] at hrun'
  obtain ⟨claimed, hclaimed, rfl⟩ := Fallible.map_ok.mp hrun'
  obtain ⟨existing, hexisting, allowed, ⟨htrue, ⟨row, hrow, hhit⟩, hdb⟩ | ⟨hfalse, hdb⟩⟩ :=
    reclaimManifest_ok hclaimed
  · have hclaims : step.Claims db c := ⟨fence, now, claimed.2, by rw [hrun, htrue], .inr hstep⟩
    obtain ⟨hid, hstatus⟩ := reclaims_iff hhit
    have hsame : row = existing := eq_of_key_eq hu.ids hrow (manifestAt_mem hexisting) hid
    subst hsame
    rw [Step.after_of_ok hrun, hdb, manifestAt_updateRows c.take fun _ => rfl]
    by_cases hkey : c.projectId = p ∧ c.importKey = k
    · obtain ⟨rfl, rfl⟩ := hkey
      rw [hexisting, Option.map_some, if_pos hhit]
      refine .claim c (c.take row) hclaims rfl rfl ?_ rfl rfl rfl
      intro found hfound
      rw [hexisting, Option.some.injEq] at hfound
      rwa [← hfound]
    · have hmiss : ∀ found, db.manifestAt p k = some found → db.reclaims allowed row found ≠ true := by
        intro found hfound hhit'
        obtain ⟨hp, hk, -⟩ := key_of_id hu hfound hexisting (reclaims_iff hhit').1
        exact hkey ⟨hp, hk⟩
      have hleft : ((db.manifestAt p k).map fun found =>
          if db.reclaims allowed row found = true then c.take found else found) = db.manifestAt p k := by
        cases hfound : db.manifestAt p k with
        | none => rfl
        | some found => rw [Option.map_some, if_neg (hmiss found hfound)]
      rw [hleft]
      refine .same fun c' hc' => ?_
      obtain ⟨_, _, _, -, hc' | hc'⟩ := hc'
      · rw [hstep] at hc'
        cases hc'
      · rw [hstep] at hc'
        cases hc'
        exact hkey
  · have hnever : ∀ c', ¬ step.Claims db c' := by
      intro c' hc'
      obtain ⟨db', hok⟩ := hc'.ok
      rw [hrun, Except.ok.injEq, Prod.mk.injEq, hfalse] at hok
      cases hok.1
    rw [Step.after_of_ok hrun, hdb, manifestAt_updateRows (fun row => { row with status := .split }) fun _ => rfl]
    cases hfound : db.manifestAt p k with
    | none =>
      rw [Option.map_none, ← hfound]
      exact .same fun c' hc' => absurd hc' (hnever c')
    | some found =>
      rw [Option.map_some]
      split
      · rename_i hhit
        exact .upgrade found hnever hfound (upgrades_iff hhit).2
      · rw [← hfound]
        exact .same fun c' hc' => absurd hc' (hnever c')

theorem markManifest_change {p' k' jobId : String} {mark : ManifestMark} {r : Bool × Database} {step : Step}
    (hstep : step = .mutate (.markManifest p' k' jobId mark) fence now) (hrun : step.run db = .ok r) :
    ManifestChange p k db step ((step.after db).manifestAt p k) := by
  have hrun' := hrun
  rw [hstep] at hrun'
  obtain ⟨marked, hmarked, rfl⟩ := Fallible.map_ok.mp hrun'
  obtain ⟨hit, hhit, hdb⟩ := markManifest_ok hmarked
  have hnever : ∀ c', ¬ step.Claims db c' := by
    rintro c' ⟨_, _, _, -, hc' | hc'⟩
    · rw [hstep] at hc'
      cases hc'
    · rw [hstep] at hc'
      cases hc'
  rw [Step.after_of_ok hrun, hdb, manifestAt_updateRows mark.on fun _ => rfl]
  cases hfound : db.manifestAt p k with
  | none =>
    rw [Option.map_none, ← hfound]
    exact .same fun c' hc' => absurd hc' (hnever c')
  | some found =>
    rw [Option.map_some]
    split
    · rename_i hfoundHit
      obtain ⟨hp, hk⟩ := isAt_iff.mp (hhit found hfoundHit)
      obtain ⟨hp', hk'⟩ := manifestAt_isAt hfound
      obtain rfl : p' = p := hp.symm.trans hp'
      obtain rfl : k' = k := hk.symm.trans hk'
      exact .mark jobId mark fence now found hstep hfound
    · rw [← hfound]
      exact .same fun c' hc' => absurd hc' (hnever c')

theorem Step.manifest_change (hu : db.ManifestsUnique) (step : Step) :
    ManifestChange p k db step ((step.after db).manifestAt p k) := by
  cases hrun : step.run db with
  | error e =>
    have hafter : step.after db = db := by rw [after, hrun]
    rw [hafter]
    refine .same fun c hc => ?_
    obtain ⟨db', hok⟩ := hc.ok
    rw [hrun] at hok
    cases hok
  | ok r =>
    by_cases hwrites : ∃ m fence now, step = .mutate m fence now ∧ m.table = some .manifests
    · obtain ⟨m, fence, now, hstep, hm⟩ := hwrites
      cases m with
      | insertManifest c => exact insertManifest_change hstep hrun
      | reclaimManifest c => exact reclaimManifest_change hu hstep hrun
      | markManifest p' k' jobId mark => exact markManifest_change hstep hrun
      | _ => cases hm
    · have hsame := (manifests_of_ok hrun).resolve_right hwrites
      rw [after_of_ok hrun, Database.manifestAt, hsame]
      refine .same fun c hc => absurd ?_ hwrites
      obtain ⟨fence, now, _, -, hc | hc⟩ := hc
      · exact ⟨_, fence, now, hc, rfl⟩
      · exact ⟨_, fence, now, hc, rfl⟩

theorem Step.manifests_unique (hu : db.ManifestsUnique) (step : Step) : (step.after db).ManifestsUnique := by
  have hupdate : ∀ (hit : ManifestRow → Bool) (change : ManifestRow → ManifestRow),
      (∀ row, (change row).id = row.id) →
      (∀ row, ((change row).projectId, (change row).importKey) = (row.projectId, row.importKey)) →
      ({ db with manifests := updateRows hit change db.manifests } : Database).ManifestsUnique := by
    intro hit change hid hkey
    exact ⟨by rw [updateRows_map hid]; exact hu.ids, by rw [updateRows_map hkey]; exact hu.keys⟩
  cases hrun : step.run db with
  | error e => rwa [after, hrun]
  | ok r =>
    rw [after_of_ok hrun]
    rcases manifests_of_ok hrun with hsame | ⟨m, fence, now, rfl, hm⟩
    · exact ⟨by rw [hsame]; exact hu.ids, by rw [hsame]; exact hu.keys⟩
    · cases m with
      | insertManifest c =>
        obtain ⟨inserted, hinserted, rfl⟩ := Fallible.map_ok.mp hrun
        obtain ⟨hnone, hdb⟩ := insertManifest_ok hinserted
        rw [hdb]
        constructor
        · rw [List.map_append, List.nodup_append]
          refine ⟨hu.ids, List.nodup_singleton _, fun a ha b hb => ?_⟩
          obtain ⟨row, hrow, rfl⟩ := List.mem_map.mp ha
          rw [List.map_singleton, List.mem_singleton] at hb
          rw [hb]
          exact (hnone row hrow).2
        · rw [List.map_append, List.nodup_append]
          refine ⟨hu.keys, List.nodup_singleton _, fun a ha b hb => ?_⟩
          obtain ⟨row, hrow, rfl⟩ := List.mem_map.mp ha
          rw [List.map_singleton, List.mem_singleton] at hb
          rintro rfl
          rw [Prod.mk.injEq] at hb
          have hat := (hnone row hrow).1
          rw [show row.isAt c.projectId c.importKey = true from isAt_iff.mpr hb] at hat
          cases hat
      | reclaimManifest c =>
        obtain ⟨claimed, hclaimed, rfl⟩ := Fallible.map_ok.mp hrun
        obtain ⟨existing, -, allowed, ⟨-, -, hdb⟩ | ⟨-, hdb⟩⟩ := reclaimManifest_ok hclaimed
        · rw [hdb]
          exact hupdate _ _ (fun _ => rfl) fun _ => rfl
        · rw [hdb]
          exact hupdate _ _ (fun _ => rfl) fun _ => rfl
      | markManifest p' k' jobId mark =>
        obtain ⟨marked, hmarked, rfl⟩ := Fallible.map_ok.mp hrun
        obtain ⟨hit, -, hdb⟩ := markManifest_ok hmarked
        rw [hdb]
        exact hupdate _ _ (fun _ => rfl) fun _ => rfl
      | _ => cases hm

/-! ## Whole runs -/

def Claim.isAt (p k : String) (c : Claim) : Prop := c.projectId = p ∧ c.importKey = k

def Database.ClaimedAt (p k : String) (db : Database) : Prop :=
  ∃ row, db.manifestAt p k = some row ∧ row.status = .claimed

/-- The manifest is claimed by the chunk of a claim. -/
def Database.HeldBy (p k : String) (c : Claim) (db : Database) : Prop :=
  ∃ row, db.manifestAt p k = some row ∧ row.status = .claimed ∧
    row.jobId = some c.jobId ∧ row.chunkId = some c.chunkId

def Database.SettledAt (p k : String) (db : Database) : Prop :=
  ∃ row, db.manifestAt p k = some row ∧ row.settled

/-- A manifest that was stored or split is only ever marked as such. -/
def KeepsSettled (p k : String) (db : Database) (steps : List Step) : Prop :=
  ∀ before jobId mark fence now after, steps = before ++ .mutate (.markManifest p k jobId mark) fence now :: after →
    (runSteps db before).SettledAt p k → mark.status ∈ settledStatuses

theorem settled_not_reclaimable {status : RecordStatus} (h : status ∈ settledStatuses) :
    status ∉ reclaimableStatuses := by
  revert h
  cases status <;> decide

/-- A claim needs a key that is free or can be reclaimed, and leaves it held. -/
theorem Step.claims_iff (hu : db.ManifestsUnique) {step : Step} {c : Claim} (h : step.Claims db c)
    (hc : c.isAt p k) : Claimable (db.manifestAt p k) ∧ (step.after db).HeldBy p k c := by
  have hchange := step.manifest_change (p := p) (k := k) hu
  cases hafter : (step.after db).manifestAt p k with
  | none =>
    rw [hafter] at hchange
    generalize hnone : (none : Option ManifestRow) = after at hchange
    cases hchange with
    | same hnot => exact absurd hc (hnot c h)
    | _ => cases hnone
  | some row =>
    rw [hafter] at hchange
    generalize hsome : some row = after at hchange
    cases hchange with
    | same hnot => exact absurd hc (hnot c h)
    | claim c' row' hclaims hp hk hfree hstatus hjob hchunk =>
      cases hsome
      have hsame : c' = c := by
        obtain ⟨_, _, _, -, h₁⟩ := h
        obtain ⟨_, _, _, -, h₂⟩ := hclaims
        rcases h₁ with h₁ | h₁
        · rcases h₂ with h₂ | h₂
          · rw [h₁] at h₂
            cases h₂
            rfl
          · rw [h₁] at h₂
            cases h₂
        · rcases h₂ with h₂ | h₂
          · rw [h₁] at h₂
            cases h₂
          · rw [h₁] at h₂
            cases h₂
            rfl
      subst hsame
      exact ⟨hfree, row, hafter, hstatus, hjob, hchunk⟩
    | upgrade row' hnot => exact absurd h (hnot c)
    | mark jobId mark fence now row' hstep =>
      obtain ⟨_, _, _, -, h | h⟩ := h
      · rw [hstep] at h
        cases h
      · rw [hstep] at h
        cases h

/-- As long as a manifest stays claimed its holder stays the same. -/
theorem Step.held_after (hu : db.ManifestsUnique) {step : Step} {c : Claim} (h : db.HeldBy p k c)
    (hstays : (step.after db).ClaimedAt p k) : (step.after db).HeldBy p k c := by
  obtain ⟨row, hrow, hstatus, hjob, hchunk⟩ := h
  obtain ⟨row', hrow', hstatus'⟩ := hstays
  refine ⟨row', hrow', hstatus', ?_⟩
  have hchange := step.manifest_change (p := p) (k := k) hu
  rw [hrow'] at hchange
  generalize hsome : some row' = after at hchange
  cases hchange with
  | same hnot =>
    rw [hrow, Option.some.injEq] at hsome
    subst hsome
    exact ⟨hjob, hchunk⟩
  | claim c' _ _ _ _ hfree =>
    have hin := hfree row hrow
    rw [hstatus] at hin
    exact absurd hin (by decide)
  | upgrade row'' _ hrow'' hreleased =>
    rw [hrow, Option.some.injEq] at hrow''
    subst hrow''
    rw [hstatus] at hreleased
    cases hreleased
  | mark jobId mark fence now row'' _ hrow'' =>
    rw [hrow, Option.some.injEq] at hrow''
    subst hrow''
    cases hsome
    exact ⟨hjob, hchunk⟩

theorem Step.settled_after (hu : db.ManifestsUnique) {step : Step} (h : db.SettledAt p k)
    (hkeeps : ∀ jobId mark fence now, step = .mutate (.markManifest p k jobId mark) fence now →
      mark.status ∈ settledStatuses) : (step.after db).SettledAt p k := by
  obtain ⟨row, hrow, hsettled⟩ := h
  have hchange := step.manifest_change (p := p) (k := k) hu
  generalize hafter : (step.after db).manifestAt p k = after at hchange
  cases hchange with
  | same => exact ⟨row, hafter.trans hrow, hsettled⟩
  | claim c' _ _ _ _ hfree => exact absurd (hfree row hrow) (settled_not_reclaimable hsettled)
  | upgrade row' _ hrow' hreleased =>
    rw [hrow, Option.some.injEq] at hrow'
    subst hrow'
    rw [ManifestRow.settled, hreleased] at hsettled
    exact absurd hsettled (by decide)
  | mark jobId mark fence now row' hstep => exact ⟨mark.on row', hafter, hkeeps jobId mark fence now hstep⟩

theorem runSteps_unique (hu : db.ManifestsUnique) (steps : List Step) : (runSteps db steps).ManifestsUnique := by
  induction steps generalizing db with
  | nil => exact hu
  | cons step steps ih => exact ih (step.manifests_unique hu)

theorem runSteps_held (hu : db.ManifestsUnique) {c : Claim} (h : db.HeldBy p k c) {steps : List Step}
    (hstays : ∀ before, before <+: steps → (runSteps db before).ClaimedAt p k) :
    (runSteps db steps).HeldBy p k c := by
  induction steps generalizing db with
  | nil => exact h
  | cons step steps ih =>
    have hafter : (step.after db).ClaimedAt p k := hstays [step] ⟨steps, rfl⟩
    refine ih (step.manifests_unique hu) (step.held_after hu h hafter) fun before hbefore => ?_
    exact hstays (step :: before) (List.cons_prefix_cons.mpr ⟨rfl, hbefore⟩)

theorem runSteps_settled (hu : db.ManifestsUnique) (h : db.SettledAt p k) {steps : List Step}
    (hkeeps : KeepsSettled p k db steps) : (runSteps db steps).SettledAt p k := by
  induction steps generalizing db with
  | nil => exact h
  | cons step steps ih =>
    have hafter := step.settled_after hu h fun jobId mark fence now hstep =>
      hkeeps [] jobId mark fence now steps (by rw [hstep]; rfl) h
    refine ih (step.manifests_unique hu) hafter ?_
    intro before jobId mark fence now after hsteps
    exact hkeeps (step :: before) jobId mark fence now after (by rw [hsteps]; rfl)

theorem not_claims_of_held (hu : db.ManifestsUnique) (h : db.ClaimedAt p k) (step : Step) (c : Claim)
    (hc : c.isAt p k) : ¬ step.Claims db c := by
  intro hclaims
  obtain ⟨row, hrow, hstatus⟩ := h
  have hin := (Step.claims_iff hu hclaims hc).1 row hrow
  rw [hstatus] at hin
  exact absurd hin (by decide)

theorem not_claims_of_settled (hu : db.ManifestsUnique) (h : db.SettledAt p k) (step : Step) (c : Claim)
    (hc : c.isAt p k) : ¬ step.Claims db c := by
  intro hclaims
  obtain ⟨row, hrow, hsettled⟩ := h
  exact settled_not_reclaimable hsettled ((Step.claims_iff hu hclaims hc).1 row hrow)

/-- **Claims exclude one another.** In every run, from a successful claim on and as long as the manifest stays
claimed it is the claimant's, and no claim of the key succeeds; and from a state on in which the key is stored
or split no claim of it succeeds, if no mark takes the manifest out of these statuses. -/
theorem import_key_claims (db₀ : Database) (hu : db₀.ManifestsUnique) (p k : String) (xs : List Step) :
    (∀ step c, step.Claims (runSteps db₀ xs) c → c.isAt p k →
      ∀ ys, (∀ before, before <+: ys → (runSteps db₀ (xs ++ step :: before)).ClaimedAt p k) →
        (runSteps db₀ (xs ++ step :: ys)).HeldBy p k c ∧
        ∀ (later : Step) (c' : Claim), c'.isAt p k → ¬ later.Claims (runSteps db₀ (xs ++ step :: ys)) c') ∧
    ((runSteps db₀ xs).SettledAt p k →
      ∀ ys, KeepsSettled p k (runSteps db₀ xs) ys →
        ∀ (later : Step) (c' : Claim), c'.isAt p k → ¬ later.Claims (runSteps db₀ (xs ++ ys)) c') := by
  have hxs := runSteps_unique hu xs
  constructor
  · intro step c hclaims hc ys hstays
    have hheld := (Step.claims_iff hxs hclaims hc).2
    have hys : (runSteps db₀ (xs ++ step :: ys)).HeldBy p k c := by
      rw [runSteps_append, runSteps_cons]
      refine runSteps_held (step.manifests_unique hxs) hheld fun before hbefore => ?_
      have := hstays before hbefore
      rwa [runSteps_append, runSteps_cons] at this
    refine ⟨hys, fun later c' hc' => ?_⟩
    obtain ⟨row, hrow, hstatus, -⟩ := hys
    exact not_claims_of_held (runSteps_unique hu _) ⟨row, hrow, hstatus⟩ later c' hc'
  · intro hsettled ys hkeeps later c' hc'
    rw [runSteps_append]
    exact not_claims_of_settled (runSteps_unique hxs ys) (runSteps_settled hxs hsettled hkeeps) later c' hc'

/-! ## A key that is stored twice -/

/-- Two jobs of a project, each with its worker. -/
def twoJobs : Database :=
  { Database.empty with
    jobs := [runningJob "first" "project" (some "a") (some 100), runningJob "second" "project" (some "b") (some 100)] }

def firstClaim : Claim := ⟨"manifest", "project", "key", "first", "first chunk"⟩

def secondClaim : Claim := ⟨"other manifest", "project", "key", "second", "second chunk"⟩

def claimFirst : Step := .mutate (.insertManifest firstClaim) (some "a") 1

def claimSecond : Step := .mutate (.reclaimManifest secondClaim) (some "b") 5

theorem claimFirst_claims : claimFirst.Claims twoJobs firstClaim :=
  ⟨some "a", 1, { twoJobs with manifests := [firstClaim.manifest] }, by rfl, .inl rfl⟩

theorem import_key_claims_two : ¬ claimSecond.Claims (runSteps twoJobs [claimFirst]) secondClaim :=
  ((import_key_claims twoJobs ⟨List.nodup_nil, List.nodup_nil⟩ "project" "key" []).1 claimFirst firstClaim
    claimFirst_claims ⟨rfl, rfl⟩ [] fun before hbefore => by
      rw [List.prefix_nil.mp hbefore]
      exact ⟨firstClaim.manifest, by rfl, rfl⟩).2 claimSecond secondClaim ⟨rfl, rfl⟩

/-- The first job stores its chunk and marks the manifest; then a write of its counters fails, its attempts are
used up and the chunk is marked as failed. -/
def failedAfterStore : List Step :=
  [claimFirst,
    .mutate (.markManifest "project" "key" "first" ⟨.succeeded, some ["memory"], none⟩) (some "a") 2,
    .mutate (.markManifest "project" "key" "first" ⟨.failed, none, some (some "database is busy")⟩) (some "a") 3]

/-- The second job is handed a key that was stored. -/
theorem stored_key_claimed : ¬ ∀ (db₀ : Database) (_ : db₀.ManifestsUnique) (p k : String) (xs ys : List Step),
    (runSteps db₀ xs).SettledAt p k →
      ∀ (later : Step) (c : Claim), c.isAt p k → ¬ later.Claims (runSteps db₀ (xs ++ ys)) c := by
  intro h
  refine h twoJobs ⟨List.nodup_nil, List.nodup_nil⟩ "project" "key" (failedAfterStore.take 2)
    (failedAfterStore.drop 2) ?_ claimSecond secondClaim ⟨rfl, rfl⟩ ?_
  · exact ⟨{ firstClaim.manifest with status := .succeeded, memoryIds := ["memory"] }, by rfl,
      show RecordStatus.succeeded ∈ settledStatuses by decide⟩
  · exact ⟨some "b", 5, _, by rfl, .inr rfl⟩

end YiQiao
