import YiQiao.Value

/-!
# Projects

A request runs in one project. Its id is normalized to a non-empty text over a small alphabet, and a
payload without a project id belongs to the default project.
-/

namespace YiQiao

def defaultProjectId : String := "default-project"

def isProjectChar (c : Char) : Bool := c.isAlphanum || c == '.' || c == '_' || c == '-'

theorem isSpace_projectChar {c : Char} (h : isProjectChar c = true) : isSpace c = false := by
  delta isProjectChar Char.isAlphanum Char.isAlpha Char.isUpper Char.isLower Char.isDigit at h
  simp only [Bool.or_eq_true, Bool.and_eq_true, decide_eq_true_eq, beq_iff_eq, UInt32.le_iff_toNat_le, ge_iff_le] at h
  rcases h with ((h | rfl) | rfl) | rfl
  · have hrange : 65 ≤ c.toNat ∧ c.toNat ≤ 90 ∨ 97 ≤ c.toNat ∧ c.toNat ≤ 122 ∨ 48 ≤ c.toNat ∧ c.toNat ≤ 57 := by
      rcases h with (h | h) | h
      · exact .inl h
      · exact .inr (.inl h)
      · exact .inr (.inr h)
    simp only [isSpace, Bool.or_eq_false_iff, Bool.and_eq_false_iff, decide_eq_false_iff_not, beq_eq_false_iff_ne]
    omega
  · rfl
  · rfl
  · rfl

/-- A normalized project id. -/
structure ProjectId where
  text : String
  allowed : text.toList.all isProjectChar = true
  nonempty : text.toList ≠ []

namespace ProjectId

def default : ProjectId := ⟨defaultProjectId, rfl, by simp [defaultProjectId]⟩

/-- `normalize_project_id`. -/
def normalize (value : Option String) : ProjectId :=
  let given := match value with
    | none => defaultProjectId
    | some s => if s = "" then defaultProjectId else s
  let kept := ((strip given).toList.take 128).filter isProjectChar
  if h : kept = [] then default
  else ⟨String.ofList kept,
    by rw [String.toList_ofList]; exact List.all_eq_true.mpr fun c hc => (List.mem_filter.mp hc).2,
    by rwa [String.toList_ofList]⟩

/-- No project is the wildcard. -/
theorem text_ne_star (project : ProjectId) : project.text ≠ "*" := by
  intro h
  have hallowed := project.allowed
  rw [h] at hallowed
  cases hallowed

theorem strip_project (project : ProjectId) : strip project.text = project.text :=
  strip_of_no_space fun c hc => isSpace_projectChar (List.all_eq_true.mp project.allowed c hc)

theorem normalize_length (value : Option String) : (normalize value).text.toList.length ≤ 128 := by
  simp only [normalize]
  split_ifs with hkept
  · change defaultProjectId.toList.length ≤ 128
    simp [defaultProjectId]
  · rw [String.toList_ofList]
    refine (List.length_filter_le _ _).trans ?_
    rw [List.length_take]
    apply min_le_left

/-- Normalizing twice is normalizing once. -/
theorem normalize_normalize (value : Option String) :
    (normalize (some (normalize value).text)).text = (normalize value).text := by
  have hlength := normalize_length value
  generalize normalize value = project at hlength ⊢
  have hne : project.text ≠ "" := by
    intro h
    apply project.nonempty
    simp [h]
  have hkept : ((strip project.text).toList.take 128).filter isProjectChar = project.text.toList := by
    rw [strip_project, List.take_of_length_le hlength, List.filter_eq_self]
    exact List.all_eq_true.mp project.allowed
  simp [normalize, hne, hkept, project.nonempty]

end ProjectId

/-- `_payload_project_id`. -/
def Payload.projectId (P : Platform) (payload : Payload) : String :=
  let value := Payload.get payload "project_id"
  if value.truthy then value.pyStr P else defaultProjectId

/-- The payload's `project_id` is the project, as the store compares it or as the server reads it. -/
def Payload.OfProject (P : Platform) (project : ProjectId) (payload : Payload) : Prop :=
  payload.text P "project_id" = some project.text ∨ payload.projectId P = project.text

end YiQiao
