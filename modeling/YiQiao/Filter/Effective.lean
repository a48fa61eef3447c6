import YiQiao.Filter.Processed

/-!
# The effective filters

What validation, the processor and `Memory.search` make of a whole filter: a dictionary that denotes
the last word of its conjunction and holds one group for each branch of `OR` and `NOT`.
-/

namespace YiQiao.Filters

open Lib Fallible

/-- The keys that are not logical groups. -/
def IsField (key : String) : Prop := key ≠ "$or" ∧ key ≠ "$not"

theorem lookup_snoc_of_ne {done : Entries} {e : String × Value} {k : String} (h : k ≠ e.1) :
    (done ++ [e]).lookup k = done.lookup k := by
  obtain ⟨k', v⟩ := e
  have hb : (k == k') = false := by simpa using h
  rw [List.lookup_append, List.lookup_cons, hb]
  simp

theorem lookup_snoc_self {done rest : Entries} {k : String} {v : Value}
    (h : Dict.Unique (done ++ (k, v) :: rest)) : (done ++ [(k, v)]).lookup k = some v := by
  rw [List.lookup_append, Dict.lookup_eq_none_iff_keys.mpr h.notMem_of_append, Option.none_or]
  simp

theorem conjuncts_snoc (done : Entries) (e : String × Value) :
    conjuncts (done ++ [e]) = conjuncts done ++
      (if e.1 = "AND" then (branches e.2).flatten
        else if e.1 = "OR" ∨ e.1 = "NOT" then [] else constraintsOf e) := by
  simp [conjuncts]

theorem groupOf_isDict {v w : Value} (h : GroupOf (some v) (some w)) : w.isDict = false := by
  obtain ⟨gs, hw, _⟩ := h
  cases hw
  rfl

theorem Tracks.set_group {F : String → Prop} {d : Entries} {cs : List Constraint} {k : String} {w : Value}
    (h : Tracks F d cs) (hk : ¬F k) (hw : w.isDict = false) : Tracks F (Dict.set k w d) cs where
  neat := h.neat.set k fun ops ho => by rw [ho] at hw; cases hw
  denotes := by
    intro c hc
    have hne : c.key ≠ k := fun he => hk (he ▸ hc)
    rw [denotes_set, if_neg hne, h.denotes c hc]

/-! ## The conjunction -/

theorem processGroup_isDict {vs : List Value} {w : Value} (h : processGroup vs = .ok w) :
    w.isDict = false := by
  simp only [processGroup, bind_ok, pure_ok] at h
  obtain ⟨_, _, rfl⟩ := h
  rfl

/-- One iteration of the processor keeps the last word, on the fields asked about. -/
theorem processEntry_tracks {F : String → Prop} (hF : ∀ k, F k → IsField k) {done d d' : Entries}
    {e : String × Value} (h : processEntry d e = .ok d') (hd : Tracks F d (conjuncts done))
    (hwf : e.2.WF) : Tracks F d' (conjuncts (done ++ [e])) := by
  obtain ⟨k, v⟩ := e
  have hconj := conjuncts_snoc done (k, v)
  unfold processEntry at h
  split at h
  case isTrue hk =>
    obtain rfl : k = "AND" := hk
    split at h
    · rename_i conditions hv
      obtain rfl : v = .list conditions := hv
      rw [hconj, if_pos rfl]
      exact hd.foldlM_mergeBranch hwf h
    · cases h
  case isFalse hand =>
    split at h
    case isTrue hk =>
      obtain rfl : k = "OR" := hk
      split at h
      · simp only [bind_ok, pure_ok] at h
        obtain ⟨w, hw, rfl⟩ := h
        rw [hconj, if_neg (by simp), if_pos (.inl rfl), List.append_nil]
        exact hd.set_group (fun hf => (hF _ hf).1 rfl) (processGroup_isDict hw)
      · cases h
    case isFalse hor =>
      split at h
      case isTrue hk =>
        obtain rfl : k = "NOT" := hk
        split at h
        · simp only [bind_ok, pure_ok] at h
          obtain ⟨w, hw, rfl⟩ := h
          rw [hconj, if_neg (by simp), if_pos (.inr rfl), List.append_nil]
          exact hd.set_group (fun hf => (hF _ hf).2 rfl) (processGroup_isDict hw)
        · cases h
      case isFalse hnot =>
        rw [hconj, if_neg hand, if_neg (by simp [hor, hnot])]
        exact hd.mergeCondition hwf h

theorem processMetadataFilters_tracks {F : String → Prop} (hF : ∀ k, F k → IsField k)
    {filters d : Entries} (h : processMetadataFilters filters = .ok d)
    (hwf : (Value.dict filters).WF) : Tracks F d (conjuncts filters) := by
  refine foldlM_ok (I := fun done t => Tracks F t (conjuncts done)) h Tracks.nil ?_
  intro done e rest t t' hsplit ht hstep
  exact processEntry_tracks hF hstep ht (hwf.2.mem (by simp [hsplit]))

/-! ## The groups -/

/-- The dictionary holds the groups of the filter. -/
def Groups (d filters : Entries) : Prop :=
  GroupOf (filters.lookup "OR") (d.lookup "$or") ∧ GroupOf (filters.lookup "NOT") (d.lookup "$not")

theorem processEntry_groups {done rest d d' : Entries} {e : String × Value}
    (h : processEntry d e = .ok d') (hd : Groups d done)
    (hu : Dict.Unique (done ++ e :: rest)) (hwf : e.2.WF)
    (hdoc : (e.1 ∈ logicalKeys → BranchesOfFields e.2) ∧ (e.1 ∉ logicalKeys → e.1 ∉ reserved)) :
    Groups d' (done ++ [e]) := by
  obtain ⟨k, v⟩ := e
  obtain ⟨ors, nots⟩ := hd
  unfold processEntry at h
  split at h
  case isTrue hk =>
    obtain rfl : k = "AND" := hk
    split at h
    · rename_i conditions hv
      obtain rfl : v = .list conditions := hv
      have fields := hdoc.1 (by simp [logicalKeys]) conditions rfl
      have keep : ∀ key ∈ reserved, d'.lookup key = d.lookup key := fun key hkey =>
        lookup_foldlM_mergeBranch h hwf fun entries hb e he hke => by
          obtain ⟨d', hd', hfields⟩ := fields _ hb
          obtain rfl := Value.dict.inj hd'
          exact hfields e he (hke ▸ hkey)
      unfold Groups
      rw [lookup_snoc_of_ne (by simp), keep _ (by decide), lookup_snoc_of_ne (by simp),
        keep _ (by decide)]
      exact ⟨ors, nots⟩
    · cases h
  case isFalse hand =>
    split at h
    case isTrue hk =>
      obtain rfl : k = "OR" := hk
      split at h
      · rename_i c cs hv
        obtain rfl : v = .list (c :: cs) := hv
        simp only [bind_ok, pure_ok] at h
        obtain ⟨w, hw, rfl⟩ := h
        unfold Groups
        rw [lookup_snoc_self hu, Dict.lookup_set_self, lookup_snoc_of_ne (by simp),
          Dict.lookup_set_of_ne (by decide)]
        exact ⟨groupOf_processGroup hw (by simp) hwf (hdoc.1 (by simp [logicalKeys])), nots⟩
      · cases h
    case isFalse hor =>
      split at h
      case isTrue hk =>
        obtain rfl : k = "NOT" := hk
        split at h
        · rename_i c cs hv
          obtain rfl : v = .list (c :: cs) := hv
          simp only [bind_ok, pure_ok] at h
          obtain ⟨w, hw, rfl⟩ := h
          unfold Groups
          rw [lookup_snoc_self hu, Dict.lookup_set_self, lookup_snoc_of_ne (by simp),
            Dict.lookup_set_of_ne (by decide)]
          exact ⟨ors, groupOf_processGroup hw (by simp) hwf (hdoc.1 (by simp [logicalKeys]))⟩
        · cases h
      case isFalse hnot =>
        have hfield : k ∉ logicalKeys := by
          simp only [logicalKeys, List.mem_cons, List.not_mem_nil, or_false, not_or]
          exact ⟨hand, hor, hnot⟩
        have hres := hdoc.2 hfield
        simp only [reserved, List.mem_cons, List.not_mem_nil, or_false, not_or] at hres
        obtain ⟨_, _, _, hkor, hknot⟩ := hres
        unfold Groups
        rw [lookup_snoc_of_ne fun he => hor he.symm, lookup_mergeCondition h hwf fun he => hkor he.symm,
          lookup_snoc_of_ne fun he => hnot he.symm, lookup_mergeCondition h hwf fun he => hknot he.symm]
        exact ⟨ors, nots⟩

theorem processMetadataFilters_groups {filters d : Entries} (h : processMetadataFilters filters = .ok d)
    (hwf : (Value.dict filters).WF) (hdoc : Documented filters) : Groups d filters := by
  refine foldlM_ok (I := fun done t => Groups t done) h ⟨rfl, rfl⟩ ?_
  intro done e rest t t' hsplit ht hstep
  have he : e ∈ filters := by simp [hsplit]
  exact processEntry_groups hstep ht (hsplit ▸ hwf.1) (hwf.2.mem he) (hdoc e he)

/-! ## Validation -/

theorem validateKey_cases {f f' : Entries} {name : String} (h : validateKey f name = .ok f') :
    (f.lookup name = none ∧ f' = f) ∨ ∃ v, (v = .null ∨ ∃ s, v = .str s) ∧ f' = Dict.set name v f := by
  unfold validateKey at h
  split at h
  · rename_i hnone
    cases h
    exact .inl ⟨hnone, rfl⟩
  · rename_i v _
    simp only [bind_ok, pure_ok] at h
    obtain ⟨w, hw, rfl⟩ := h
    refine .inr ⟨w, ?_, rfl⟩
    cases v with
    | null => cases hw; exact .inl rfl
    | str s =>
        simp only [validateEntityId, bind_ok, pure_ok] at hw
        obtain ⟨t, _, rfl⟩ := hw
        exact .inr ⟨t, rfl⟩
    | _ => cases hw

/-- What validation leaves behind: identifiers that are texts or null. -/
structure Validated (f : Entries) : Prop where
  wf : (Value.dict f).WF
  ids : ∀ k ∈ scopeIds, ∀ v, f.lookup k = some v → v.isDict = false

theorem validateFilters_fold {f f' : Entries} (h : validateFilters f = .ok f')  :
    scopeIds.foldlM validateKey f = .ok f' := by
  simp only [validateFilters, bind_ok] at h
  obtain ⟨t, ht, h⟩ := h
  split at h
  · cases h
    exact ht
  · cases h

theorem validateFilters_validated {f f' : Entries} (h : validateFilters f = .ok f')
    (hwf : (Value.dict f).WF) : Validated f' := by
  obtain ⟨hw, hi⟩ := foldlM_ok (I := fun done t => (Value.dict t).WF ∧
    ∀ k ∈ done, ∀ v, t.lookup k = some v → v.isDict = false) (validateFilters_fold h)
    ⟨hwf, by simp⟩ (by
      rintro done name rest g g' hsplit ⟨hw, hi⟩ hstep
      rcases validateKey_cases hstep with ⟨hnone, rfl⟩ | ⟨v, hv, rfl⟩
      · refine ⟨hw, fun k hk w hl => ?_⟩
        rcases List.mem_append.mp hk with hk | hk
        · exact hi k hk w hl
        · rw [List.mem_singleton.mp hk, hnone] at hl
          cases hl
      · have hvwf : v.WF := by rcases hv with rfl | ⟨s, rfl⟩ <;> trivial
        have hvdict : v.isDict = false := by rcases hv with rfl | ⟨s, rfl⟩ <;> rfl
        refine ⟨hw.set name hvwf, fun k hk w hl => ?_⟩
        rw [Dict.lookup_set] at hl
        split at hl
        · cases hl
          exact hvdict
        · rename_i hne
          rcases List.mem_append.mp hk with hk | hk
          · exact hi k hk w hl
          · exact absurd (List.mem_singleton.mp hk) hne)
  exact ⟨hw, hi⟩

/-- Validation rewrites only the identifiers. -/
theorem validateFilters_lookup {f f' : Entries} (h : validateFilters f = .ok f') {k : String}
    (hk : k ∉ scopeIds) : f'.lookup k = f.lookup k := by
  refine foldlM_ok (I := fun _ t => t.lookup k = f.lookup k) (validateFilters_fold h) rfl ?_
  intro done name rest g g' hsplit hg hstep
  have hne : k ≠ name := fun he => hk (by rw [hsplit, he]; simp)
  rcases validateKey_cases hstep with ⟨_, rfl⟩ | ⟨v, _, rfl⟩
  · exact hg
  · rw [Dict.lookup_set_of_ne hne, hg]

/-- Validation leaves the constraints on other keys alone. -/
theorem validateFilters_lastWord {f f' : Entries} (h : validateFilters f = .ok f') {c : Constraint}
    (hc : c.key ∉ scopeIds) : c ∈ lastWord (conjuncts f') ↔ c ∈ lastWord (conjuncts f) := by
  have hfilter : (conjuncts f').filter (fun d => d.key == c.key) =
      (conjuncts f).filter fun d => d.key == c.key := by
    refine foldlM_ok (I := fun _ t => (conjuncts t).filter (fun d => d.key == c.key) =
      (conjuncts f).filter fun d => d.key == c.key) (validateFilters_fold h) rfl ?_
    intro done name rest g g' hsplit hg hstep
    have hname : name ∈ scopeIds := by rw [hsplit]; simp
    rcases validateKey_cases hstep with ⟨_, rfl⟩ | ⟨v, _, rfl⟩
    · exact hg
    · rw [← hg, conjuncts, conjuncts, List.filter_flatMap, List.filter_flatMap]
      refine Dict.flatMap_set (fun w => ?_) v g
      have hlog : name ≠ "AND" ∧ ¬(name = "OR" ∨ name = "NOT") := by
        simp only [scopeIds, List.mem_cons, List.not_mem_nil, or_false] at hname
        rcases hname with rfl | rfl | rfl <;> decide
      rw [if_neg hlog.1, if_neg hlog.2, List.filter_eq_nil_iff]
      intro d hd
      have hkey : d.key = name := constraintsOf_key hd
      simpa [hkey] using fun he : name = c.key => hc (he ▸ hname)
  rw [← mem_lastWord_filter, hfilter, mem_lastWord_filter]

theorem validateFilters_documented {f f' : Entries} (h : validateFilters f = .ok f')
    (hdoc : Documented f) : Documented f' := by
  refine foldlM_ok (I := fun _ t => Documented t) (validateFilters_fold h) hdoc ?_
  intro done name rest g g' hsplit hg hstep
  have hname : name ∈ scopeIds := by rw [hsplit]; simp
  have hfield : name ∉ logicalKeys ∧ name ∉ reserved := by
    simp only [scopeIds, List.mem_cons, List.not_mem_nil, or_false] at hname
    rcases hname with rfl | rfl | rfl <;> decide
  rcases validateKey_cases hstep with ⟨_, rfl⟩ | ⟨v, _, rfl⟩
  · exact hg
  · intro e he
    rcases Dict.mem_set he with rfl | he
    · exact ⟨fun hl => absurd hl hfield.1, fun _ => hfield.2⟩
    · exact hg e he

/-! ## The effective dictionary -/

/-- The constraints of a filter without logical operators do not clash. -/
theorem noClash_flatMap {f : Entries} (hwf : (Value.dict f).WF) : NoClash (f.flatMap constraintsOf) := by
  rw [NoClash, List.pairwise_flatMap]
  refine ⟨fun e he => noClash_constraintsOf (hwf.2.mem he), ?_⟩
  refine (List.pairwise_map.mp hwf.1).imp ?_
  intro e e' hne c hc c' hc'
  have hkey : c'.key ≠ c.key := by
    rw [constraintsOf_key hc, constraintsOf_key hc']
    exact hne.symm
  simp [Constraint.replaces, hkey]

theorem conjuncts_of_no_logical {f : Entries} (h : ∀ e ∈ f, e.1 ∉ logicalKeys) :
    conjuncts f = f.flatMap constraintsOf := by
  refine List.flatMap_congr fun e he => ?_
  have hk := h e he
  simp only [logicalKeys, List.mem_cons, List.not_mem_nil, or_false, not_or] at hk
  rw [if_neg hk.1, if_neg (by simp [hk.2])]

theorem lookup_none_of_documented {f : Entries} (hdoc : Documented f) {k : String} (hk : k ∈ reserved)
    (hl : k ∉ logicalKeys) : f.lookup k = none := by
  rw [Dict.lookup_eq_none_iff_keys]
  intro hmem
  obtain ⟨e, he, rfl⟩ := List.mem_map.mp hmem
  exact (hdoc e he).2 hl hk

/-- What `Memory.search` keeps of the validated filters is in the processed ones already. -/
theorem lookup_isSome_of_kept {F : String → Prop} {f d : Entries} (hf : Validated f)
    (hd : Tracks F d (conjuncts f)) {e : String × Value} (he : e ∈ f) (hkept : isReprocessed e = false)
    (hF : F e.1) : (d.lookup e.1).isSome := by
  simp only [isReprocessed, Bool.or_eq_false_iff, decide_eq_false_iff_not, Bool.and_eq_false_iff,
    decide_not, Bool.not_eq_false', decide_eq_true_eq] at hkept
  obtain ⟨hlog, hval⟩ := hkept
  have hdict : e.2.isDict = false := by
    rcases hval with hid | hdict
    · exact hf.ids e.1 hid e.2 ((Dict.mem_iff_lookup hf.wf.1).mp he)
    · exact hdict
  have hmem : (⟨e.1, none, e.2⟩ : Constraint) ∈ conjuncts f := by
    refine List.mem_flatMap.mpr ⟨e, he, ?_⟩
    simp only [logicalKeys, List.mem_cons, List.not_mem_nil, or_false, not_or] at hlog
    rw [if_neg hlog.1, if_neg (by simp [hlog.2]), constraintsOf_not_dict hdict]
    exact List.mem_singleton.mpr rfl
  obtain ⟨c, hc, hkey⟩ := exists_lastWord hmem
  replace hkey : c.key = e.1 := hkey
  obtain ⟨v, hv, _⟩ := (hd.denotes c (hkey ▸ hF)).mpr hc
  rw [← hkey, hv]
  rfl

/-- The effective filters are the validated ones, or read as the processed ones on every field. -/
theorem effectiveFilters_cases {f d : Entries} (h : effectiveFilters f = .ok d) (hf : Validated f) :
    ((∀ e ∈ f, e.1 ∉ logicalKeys) ∧ d = f) ∨
    (Neat d ∧ ∃ processed, processMetadataFilters f = .ok processed ∧ ∀ k,
      (IsField k ∨ k ∉ f.map Prod.fst) → d.lookup k = processed.lookup k) := by
  unfold effectiveFilters at h
  split at h
  · simp only [bind_ok, pure_ok] at h
    obtain ⟨processed, hp, rfl⟩ := h
    have tracks := processMetadataFilters_tracks (F := IsField) (fun _ h => h) hp hf.wf
    have hunique : Dict.Unique (f.filter fun e => !isReprocessed e) :=
      List.Nodup.sublist (List.filter_sublist.map _) hf.wf.1
    have hlookup := fun k => Dict.lookup_update (f.filter fun e => !isReprocessed e) tracks.neat.unique k
    refine .inr ⟨⟨hunique.update _, fun k ops ho => ?_⟩, processed, hp, fun k hk => ?_⟩
    · rw [hlookup] at ho
      rcases hproc : processed.lookup k with _ | v
      · rw [hproc, Option.none_or] at ho
        exact (hf.wf.2.mem (List.mem_of_mem_filter (Dict.mem_of_lookup ho))).1
      · rw [hproc, Option.some_or] at ho
        exact tracks.neat.ops k ops (hproc.trans ho)
    · rw [hlookup]
      rcases hproc : processed.lookup k with _ | v
      · rw [Option.none_or, Dict.lookup_eq_none_iff_keys]
        intro hmem
        obtain ⟨e, he, rfl⟩ := List.mem_map.mp hmem
        obtain ⟨he, hkept⟩ := List.mem_filter.mp he
        rcases hk with hk | hk
        · have hsome := lookup_isSome_of_kept hf tracks he (by simpa using hkept) hk
          simp [hproc] at hsome
        · exact hk (List.mem_map_of_mem he)
      · rfl
  · rename_i hadv
    cases h
    refine .inl ⟨fun e he hl => hadv ?_, rfl⟩
    exact List.any_eq_true.mpr ⟨e, he, by simp [hl]⟩

/-- Whatever the filter, the effective dictionary denotes the last word of its conjunction. -/
theorem effectiveFilters_tracks {f d : Entries} (h : effectiveFilters f = .ok d) (hf : Validated f) :
    Tracks IsField d (conjuncts f) := by
  rcases effectiveFilters_cases h hf with ⟨hplain, rfl⟩ | ⟨hneat, processed, hp, hlookup⟩
  · refine ⟨⟨hf.wf.1, fun k ops ho => (hf.wf.2.mem (Dict.mem_of_lookup ho)).1⟩, fun c _ => ?_⟩
    rw [denotes_iff hf.wf.1, conjuncts_of_no_logical hplain,
      lastWord_of_noClash (noClash_flatMap hf.wf)]
  · have tracks := processMetadataFilters_tracks (F := IsField) (fun _ h => h) hp hf.wf
    refine ⟨hneat, fun c hc => ?_⟩
    rw [← tracks.denotes c hc, denotes, denotes, hlookup c.key (.inl hc)]

/-- The groups of a documented filter are in the effective dictionary. -/
theorem effectiveFilters_groups {f d : Entries} (h : effectiveFilters f = .ok d) (hf : Validated f)
    (hdoc : Documented f) : Groups d f := by
  have absent : ∀ k ∈ reserved, k ∉ logicalKeys → k ∉ f.map Prod.fst := fun k hk hl hmem =>
    Dict.lookup_eq_none_iff_keys.mp (lookup_none_of_documented hdoc hk hl) hmem
  rcases effectiveFilters_cases h hf with ⟨hplain, rfl⟩ | ⟨_, processed, hp, hlookup⟩
  · have hnone : ∀ k ∈ logicalKeys, d.lookup k = none := by
      intro k hk
      rw [Dict.lookup_eq_none_iff_keys]
      intro hmem
      obtain ⟨e, he, rfl⟩ := List.mem_map.mp hmem
      exact hplain e he hk
    unfold Groups
    rw [hnone "OR" (by decide), hnone "NOT" (by decide)]
    exact ⟨lookup_none_of_documented hdoc (by decide) (by decide),
      lookup_none_of_documented hdoc (by decide) (by decide)⟩
  · unfold Groups
    rw [hlookup "$or" (.inr (absent _ (by decide) (by decide))),
      hlookup "$not" (.inr (absent _ (by decide) (by decide)))]
    exact processMetadataFilters_groups hp hf.wf hdoc

end YiQiao.Filters
