import Mathlib.Data.List.Nodup
import YiQiao.Lib.Runs

/-!
# Memory exports

`exports.py` keeps the exports of all projects in one list of the settings. `create_export` reads the list, puts its
job in front, cuts it and writes it back, and nothing keeps another request from doing the same in between.
-/

namespace YiQiao

open Lib

/-- A completed job with what it was asked and what it found. -/
structure ExportJob (ρ : Type) where
  id : String
  projectId : String
  content : ρ
  deriving DecidableEq, Repr

/-- The jobs that one list holds. -/
def maxExports : Nat := 50

/-- `create_export`, once the list is read. -/
def withExport {ρ : Type} (job : ExportJob ρ) (jobs : List (ExportJob ρ)) : List (ExportJob ρ) :=
  (job :: jobs).take maxExports

/-- `get_export`; no job stands for the status 404. -/
def getExport {ρ : Type} (exportId projectId : String) (jobs : List (ExportJob ρ)) : Option (ExportJob ρ) :=
  jobs.find? fun job => job.id = exportId && job.projectId = projectId

/-! ## Requests -/

/-- The stored list, the requests that have read it, and the exports that were created, newest first. -/
structure ExportWorld (ρ : Type) where
  /-- The value of `memory_exports`; there is none before the first export. -/
  stored : Option (List (ExportJob ρ))
  pending : List (ExportJob ρ × List (ExportJob ρ))
  created : List (ExportJob ρ)

def ExportWorld.empty {ρ : Type} : ExportWorld ρ := ⟨none, [], []⟩

/-- A step of a request. Its id is drawn by `uuid4`, and no other request has it. -/
inductive ExportStep (ρ : Type) where
  /-- The job is complete, and the list is read. -/
  | read (job : ExportJob ρ)
  /-- The list is written. -/
  | write (id : String)

namespace ExportWorld

variable {ρ : Type}

/-- `get_json(db, KEY, [])`. -/
def jobs (w : ExportWorld ρ) : List (ExportJob ρ) := w.stored.getD []

def drawn (w : ExportWorld ρ) : List String := w.pending.map (·.1.id) ++ w.created.map ExportJob.id

def step (w : ExportWorld ρ) : ExportStep ρ → Option (ExportWorld ρ)
  | .read job => if job.id ∈ w.drawn then none else some { w with pending := w.pending ++ [(job, w.jobs)] }
  | .write id =>
      (w.pending.find? fun request => request.1.id = id).map fun request =>
        { stored := some (withExport request.1 request.2)
          pending := w.pending.filter fun other => other.1.id ≠ id
          created := request.1 :: w.created }

/-- An export is retrievable until its project has created fifty newer ones. -/
def Retrievable (w : ExportWorld ρ) : Prop :=
  ∀ newer job older, w.created = newer ++ job :: older →
    newer.countP (fun other => other.projectId = job.projectId) < maxExports →
    getExport job.id job.projectId w.jobs = some job

/-- No export was written since the request has read the list, and an export that falls off the list leaves only
exports of its own project there. -/
def Careful (w : ExportWorld ρ) : ExportStep ρ → Prop
  | .read _ => True
  | .write id => ∀ request, w.pending.find? (fun request => request.1.id = id) = some request →
      request.2 = w.jobs ∧ ∀ lost ∈ (request.1 :: request.2).drop maxExports,
        ∀ kept ∈ withExport request.1 request.2, kept.projectId = lost.projectId

/-! ## One step -/

/-- The list holds the newest exports in order, and of every project enough of them. -/
structure Keeps (w : ExportWorld ρ) : Prop where
  drawn : w.drawn.Nodup
  sublist : w.jobs.Sublist w.created
  kept : ∀ newer job older, w.created = newer ++ job :: older →
    newer.countP (fun other => other.projectId = job.projectId) < maxExports → job ∈ w.jobs

variable {w w' : ExportWorld ρ}

theorem Keeps.created_nodup (h : w.Keeps) : (w.created.map ExportJob.id).Nodup :=
  h.drawn.of_append_right

theorem Keeps.retrievable (h : w.Keeps) : w.Retrievable := by
  intro newer job older hcreated hcount
  have hmem := h.kept newer job older hcreated hcount
  have hnodup : (w.jobs.map ExportJob.id).Nodup := h.created_nodup.sublist (h.sublist.map _)
  cases hfind : getExport job.id job.projectId w.jobs with
  | none =>
      have hmiss := List.find?_eq_none.mp hfind job hmem
      simp at hmiss
  | some found =>
      have hfound := List.find?_some hfind
      simp only [Bool.and_eq_true, decide_eq_true_eq] at hfound
      rw [List.inj_on_of_nodup_map hnodup (List.mem_of_find?_eq_some hfind) hmem hfound.1]

/-- What stands before an element in a part of a list stands before it in the list. -/
theorem sublist_before {α : Type} {front back newer older : List α} {a : α} (hnodup : (newer ++ a :: older).Nodup)
    (hsub : (front ++ back).Sublist (newer ++ a :: older)) (ha : a ∈ back) : front.Sublist newer := by
  have hfront : a ∉ front := fun hmem => (List.nodup_append.mp (hnodup.sublist hsub)).2.2 a hmem a ha rfl
  have holder : a ∉ older := (List.nodup_cons.mp (List.nodup_append.mp hnodup).2.1).1
  obtain ⟨l₁, l₂, hsplit, hl₁, hl₂⟩ := List.sublist_append_iff.mp hsub
  rcases List.append_eq_append_iff.mp hsplit with ⟨rest, rfl, -⟩ | ⟨rest, rfl, rfl⟩
  · exact (List.sublist_append_left _ _).trans hl₁
  · cases rest with
    | nil => simpa using hl₁
    | cons b rest =>
        have hb : b ≠ a := fun h => hfront (by simp [h])
        rcases List.sublist_cons_iff.mp hl₂ with hl₂ | ⟨_, hcons, -⟩
        · exact absurd (hl₂.subset (List.mem_append_right _ ha)) holder
        · exact absurd (List.cons.inj hcons).1 hb

/-- Only the newest exports of its own project push an export off the list. -/
theorem countP_of_lost {job lost : ExportJob ρ} {jobs newer older : List (ExportJob ρ)}
    (hnodup : ((newer ++ lost :: older).map ExportJob.id).Nodup) (hsub : (job :: jobs).Sublist (newer ++ lost :: older))
    (hlost : lost ∈ (job :: jobs).drop maxExports)
    (hsame : ∀ kept ∈ withExport job jobs, kept.projectId = lost.projectId) :
    maxExports ≤ newer.countP fun other => other.projectId = lost.projectId := by
  have hbefore : (withExport job jobs).Sublist newer := by
    apply sublist_before hnodup.of_map _ hlost
    rwa [withExport, List.take_append_drop]
  have hlength : (withExport job jobs).length = maxExports := by
    have hdrop := List.length_pos_of_mem hlost
    rw [List.length_drop] at hdrop
    rw [withExport, List.length_take]
    omega
  calc maxExports = (withExport job jobs).countP fun other => other.projectId = lost.projectId := by
        rw [List.countP_eq_length.mpr (by simpa using hsame), hlength]
    _ ≤ newer.countP fun other => other.projectId = lost.projectId := hbefore.countP_le

/-- The requests but for one of them. -/
theorem removed_perm {pending : List (ExportJob ρ × List (ExportJob ρ))} {request : ExportJob ρ × List (ExportJob ρ)}
    (hmem : request ∈ pending) (hnodup : (pending.map (·.1.id)).Nodup) :
    (pending.map (·.1.id)).Perm
      (request.1.id :: (pending.filter fun other => other.1.id ≠ request.1.id).map (·.1.id)) := by
  induction pending with
  | nil => cases hmem
  | cons first pending ih =>
      rw [List.map_cons, List.nodup_cons] at hnodup
      rcases List.mem_cons.mp hmem with rfl | hrest
      · have hothers : (pending.filter fun other => other.1.id ≠ request.1.id) = pending := by
          rw [List.filter_eq_self]
          intro other hother
          simp only [ne_eq, decide_eq_true_eq]
          intro hsame
          exact hnodup.1 (hsame ▸ List.mem_map_of_mem (f := (·.1.id)) hother)
        rw [List.filter_cons_of_neg (by simp), hothers, List.map_cons]
      · have hne : first.1.id ≠ request.1.id :=
          fun hsame => hnodup.1 (hsame ▸ List.mem_map_of_mem (f := (·.1.id)) hrest)
        rw [List.filter_cons_of_pos (by simpa using hne), List.map_cons, List.map_cons]
        exact ((ih hrest hnodup.2).cons _).trans (.swap _ _ _)

theorem step_keeps {s : ExportStep ρ} (h : w.Keeps) (hcareful : w.Careful s) (hstep : w.step s = some w') :
    w'.Keeps := by
  cases s with
  | read job =>
      rw [step] at hstep
      split at hstep
      · cases hstep
      · rename_i hfresh
        cases hstep
        refine ⟨?_, h.sublist, h.kept⟩
        rw [ExportWorld.drawn, List.map_append, List.append_assoc]
        refine List.Perm.nodup_iff ?_ |>.mp (List.nodup_cons.mpr ⟨hfresh, h.drawn⟩)
        exact List.perm_middle.symm
  | write id =>
      obtain ⟨request, hrequest, rfl⟩ := Option.map_eq_some_iff.mp hstep
      obtain ⟨hsnapshot, hlost⟩ := hcareful request hrequest
      have hmem := List.mem_of_find?_eq_some hrequest
      have hid : request.1.id = id := by simpa using List.find?_some hrequest
      have hdrawn : (({ stored := some (withExport request.1 request.2)
                        pending := w.pending.filter fun other => other.1.id ≠ id
                        created := request.1 :: w.created } : ExportWorld ρ).drawn).Nodup := by
        have hpending := hid ▸ removed_perm hmem h.drawn.of_append_left
        rw [ExportWorld.drawn, List.map_cons, hid]
        exact (List.perm_middle.trans (hpending.append_right _).symm).nodup_iff.mpr h.drawn
      have hsub : (withExport request.1 request.2).Sublist (request.1 :: w.created) := by
        rw [hsnapshot]
        exact (List.take_sublist _ _).trans (h.sublist.cons_cons _)
      refine ⟨hdrawn, hsub, fun newer job older hcreated hcount => ?_⟩
      have hjobs : job ∈ request.1 :: request.2 := by
        cases newer with
        | nil =>
            cases hcreated
            exact List.mem_cons_self
        | cons first newer =>
            obtain ⟨-, htail⟩ := List.cons.inj hcreated
            rw [hsnapshot]
            refine List.mem_cons_of_mem _ (h.kept newer job older htail (Nat.lt_of_le_of_lt ?_ hcount))
            rw [List.countP_cons]
            exact Nat.le_add_right _ _
      by_contra hlostJob
      have hdrop : job ∈ (request.1 :: request.2).drop maxExports := by
        rw [← List.take_append_drop maxExports (request.1 :: request.2)] at hjobs
        exact (List.mem_append.mp hjobs).resolve_left hlostJob
      have hnodup : ((newer ++ job :: older).map ExportJob.id).Nodup := by
        rw [← hcreated]
        exact hdrawn.of_append_right
      have hfull : (request.1 :: request.2).Sublist (newer ++ job :: older) := by
        rw [← hcreated, hsnapshot]
        exact h.sublist.cons_cons _
      exact absurd (countP_of_lost hnodup hfull hdrop (hlost job hdrop)) (Nat.not_le.mpr hcount)

theorem empty_keeps : (ExportWorld.empty : ExportWorld ρ).Keeps := by
  refine ⟨List.nodup_nil, List.nil_sublist _, ?_⟩
  intro newer job older hcreated
  simp [ExportWorld.empty] at hcreated

/-- In a run of careful steps no export is lost before its time. -/
theorem exports_retrievable {steps : List (ExportStep ρ)} (hcareful : AlongRun step Careful .empty steps)
    (hrun : runFrom step .empty steps = some w') : w'.Retrievable :=
  (runFrom_keeps (fun _ _ _ => step_keeps) empty_keeps hcareful hrun).retrievable

/-! ## Exports of two projects -/

def firstExport : ExportJob Unit := ⟨"first", "p", ()⟩

def secondExport : ExportJob Unit := ⟨"second", "q", ()⟩

def afterExports (steps : List (ExportStep Unit)) : ExportWorld Unit := (runFrom step empty steps).getD empty

/-- The requests take turns. -/
def inTurn : List (ExportStep Unit) := [.read firstExport, .write "first", .read secondExport, .write "second"]

theorem inTurn_careful : AlongRun step Careful (empty : ExportWorld Unit) inTurn := by
  refine ⟨trivial, fun _ h => ?_⟩
  cases h
  refine ⟨?_, fun _ h => ?_⟩
  · intro request h
    cases h
    exact ⟨rfl, by simp [maxExports, jobs, ExportWorld.empty]⟩
  cases h
  refine ⟨trivial, fun _ h => ?_⟩
  cases h
  refine ⟨?_, fun _ _ => trivial⟩
  intro request h
  cases h
  exact ⟨rfl, by simp [maxExports, jobs, ExportWorld.empty, withExport]⟩

theorem in_turn_retrievable : (afterExports inTurn).Retrievable :=
  @exports_retrievable Unit (afterExports inTurn) inTurn inTurn_careful rfl

/-- Both requests read the list before either of them writes it. -/
def overlapping : List (ExportStep Unit) := [.read firstExport, .read secondExport, .write "first", .write "second"]

/-- The other project creates fifty exports. -/
def crowding : List (ExportStep Unit) :=
  [.read firstExport, .write "first"] ++
    (List.range 50).flatMap fun i => [.read ⟨toString i, "q", ()⟩, .write (toString i)]

/-- The first export is gone although its project has created no other. -/
theorem export_lost :
    (runFrom step empty overlapping = some (afterExports overlapping) ∧ ¬ (afterExports overlapping).Retrievable) ∧
      (runFrom step empty crowding).isSome ∧ ¬ (afterExports crowding).Retrievable := by
  refine ⟨⟨rfl, fun h => ?_⟩, by decide +kernel, fun h => ?_⟩
  · have hfound := h [secondExport] firstExport [] rfl (by decide)
    cases hfound
  · have hfound := h ((afterExports crowding).created.dropLast) firstExport [] (by decide +kernel) (by decide +kernel)
    exact absurd hfound (by decide +kernel)

end ExportWorld

end YiQiao
