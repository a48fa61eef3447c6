import YiQiao.Filter.Effective

/-!
# The compiled filter and its meaning

Processing and building together: the conditions a search hands to the store are true of exactly
the payloads that meet the last word of the filter.
-/

namespace YiQiao.Filters

open Lib Fallible

/-- The dictionary holds what the filter asks: the last word of its conjunction, and its groups. -/
structure Settled (d filters : Entries) : Prop where
  conj : Tracks IsField d (conjuncts filters)
  groups : Groups d filters

theorem effectiveFilters_settled {f d : Entries} (h : effectiveFilters f = .ok d) (hf : Validated f)
    (hdoc : Documented f) : Settled d f :=
  ⟨effectiveFilters_tracks h hf, effectiveFilters_groups h hf hdoc⟩

/-! ## Reading what is settled -/

/-- Every constraint a filter mentions. -/
def mentioned (filters : Entries) : List Constraint :=
  conjuncts filters ++ ((alternatives "OR" filters).flatten ++ (alternatives "NOT" filters).flatten)

variable {P : Platform} {payload : Payload}

theorem Tracks.all_holds {g : Entries} {b : List Constraint} (h : Tracks (fun _ => True) g b) :
    (g.flatMap constraintsOf).all (Constraint.holds P payload) = meets P payload b := by
  rw [meets, Bool.eq_iff_iff, List.all_eq_true, List.all_eq_true]
  refine forall_congr' fun c => ?_
  rw [← denotes_iff h.neat.unique, h.denotes c trivial]

theorem Tracks.isEmpty_eq {g : Entries} {b : List Constraint} (h : Tracks (fun _ => True) g b) :
    (g.flatMap constraintsOf).isEmpty = b.isEmpty := by
  rw [Bool.eq_iff_iff, List.isEmpty_iff, List.isEmpty_iff, ← @lastWord_eq_nil b,
    List.eq_nil_iff_forall_not_mem, List.eq_nil_iff_forall_not_mem]
  refine forall_congr' fun c => ?_
  rw [← denotes_iff h.neat.unique, h.denotes c trivial]

/-- The groups of a dictionary read as the branches they come from. -/
theorem groups_reading {bs : List (List Constraint)} {gs : List Entries}
    (h : List.Forall₂ (fun b g => Plain g ∧ Tracks (fun _ => True) g b) bs gs) :
    ((branches (.list (gs.map .dict))).filter fun g => !g.isEmpty).map
        (List.all · (Constraint.holds P payload)) =
      (bs.filter fun b => !b.isEmpty).map (meets P payload) := by
  induction h with
  | nil => rfl
  | cons hbg _ ih =>
      simp only [branches, List.map_cons, List.filter_cons, branchConstraints, hbg.2.isEmpty_eq] at ih ⊢
      split
      · rw [List.map_cons, List.map_cons, ih, hbg.2.all_holds]
      · exact ih

theorem someGroup_eq {r : List Constraint → Bool} {groups : List (List Constraint)} :
    someGroup r groups =
      (((groups.filter fun g => !g.isEmpty).map r).isEmpty ||
        ((groups.filter fun g => !g.isEmpty).map r).any id) := by
  rw [someGroup, List.isEmpty_map, List.any_map]
  rfl

theorem noGroup_eq {r : List Constraint → Bool} {groups : List (List Constraint)} :
    noGroup r groups = !((groups.filter fun g => !g.isEmpty).map r).any id := by
  rw [noGroup, List.any_map]
  rfl

/-- What a dictionary asks besides the groups is what its fields denote. -/
theorem all_entryReading_iff {d : Entries} (hd : Neat d) :
    d.all (entryReading P payload) = true ↔
      (∀ c, IsField c.key → denotes d c → c.holds P payload = true) ∧
      (∀ v, d.lookup "$or" = some v → entryReading P payload ("$or", v) = true) ∧
      (∀ v, d.lookup "$not" = some v → entryReading P payload ("$not", v) = true) := by
  rw [List.all_eq_true]
  constructor
  · intro h
    refine ⟨?_, fun v hv => h _ (Dict.mem_of_lookup hv), fun v hv => h _ (Dict.mem_of_lookup hv)⟩
    rintro c hc ⟨v, hv, hmem⟩
    have hread := h _ (Dict.mem_of_lookup hv)
    rw [entryReading, if_neg hc.1, if_neg hc.2, List.all_eq_true] at hread
    exact hread c hmem
  · rintro ⟨fields, ors, nots⟩ ⟨k, v⟩ he
    have hv := (Dict.mem_iff_lookup hd.unique).mp he
    by_cases hor : k = "$or"
    · exact hor ▸ ors v (hor ▸ hv)
    · by_cases hnot : k = "$not"
      · exact hnot ▸ nots v (hnot ▸ hv)
      · rw [entryReading, if_neg hor, if_neg hnot, List.all_eq_true]
        intro c hc
        have hkey : c.key = k := constraintsOf_key hc
        exact fields c (hkey ▸ ⟨hor, hnot⟩) ⟨v, hkey ▸ hv, hkey ▸ hc⟩

theorem GroupOf.some_reading {source target : Option Value} (h : GroupOf source target) :
    (∀ v, target = some v → entryReading P payload ("$or", v) = true) ↔
      someGroup (meets P payload) (source.elim [] branches) = true := by
  cases source with
  | none =>
      obtain rfl : target = none := h
      simp [someGroup]
  | some w =>
      obtain ⟨gs, rfl, _, hgs⟩ := h
      simp only [Option.some.injEq, forall_eq', Option.elim_some]
      rw [entryReading, if_pos rfl, someGroup_eq, someGroup_eq, groups_reading hgs]

theorem GroupOf.no_reading {source target : Option Value} (h : GroupOf source target) :
    (∀ v, target = some v → entryReading P payload ("$not", v) = true) ↔
      noGroup (meets P payload) (source.elim [] branches) = true := by
  cases source with
  | none =>
      obtain rfl : target = none := h
      simp [noGroup]
  | some w =>
      obtain ⟨gs, rfl, _, hgs⟩ := h
      simp only [Option.some.injEq, forall_eq', Option.elim_some]
      rw [entryReading, if_neg (by simp), if_pos rfl, noGroup_eq, noGroup_eq, groups_reading hgs]

/-- The constraints a documented filter conjoins are on fields. -/
theorem isField_of_mem_conjuncts {f : Entries} (hf : Documented f) {c : Constraint}
    (hc : c ∈ conjuncts f) : IsField c.key := by
  have of_not_reserved : c.key ∉ reserved → IsField c.key := fun h =>
    ⟨fun hk => h (by rw [hk]; decide), fun hk => h (by rw [hk]; decide)⟩
  obtain ⟨e, he, hc⟩ := List.mem_flatMap.mp hc
  refine of_not_reserved ?_
  by_cases hand : e.1 = "AND"
  · rw [if_pos hand] at hc
    obtain ⟨b, hb, hc⟩ := List.mem_flatten.mp hc
    have fields := (hf e he).1 (by simp [hand, logicalKeys])
    unfold branches at hb
    split at hb
    · rename_i vs hv
      obtain ⟨v, hvs, rfl⟩ := List.mem_map.mp hb
      obtain ⟨entries, rfl, hfields⟩ := fields vs hv v hvs
      obtain ⟨e', he', hc⟩ := List.mem_flatMap.mp hc
      rw [constraintsOf_key hc]
      exact hfields e' he'
    · cases hb
  · rw [if_neg hand] at hc
    by_cases hlog : e.1 = "OR" ∨ e.1 = "NOT"
    · rw [if_pos hlog] at hc
      cases hc
    · rw [if_neg hlog] at hc
      rw [constraintsOf_key hc]
      exact (hf e he).2 (by simpa [logicalKeys, hand] using hlog)

/-- A settled dictionary reads as the last word of the filter. -/
theorem Settled.reading {d f : Entries} (h : Settled d f) (hf : Documented f) :
    d.all (entryReading P payload) = lastWordMeaning P payload f := by
  rw [Bool.eq_iff_iff, all_entryReading_iff h.conj.neat, h.groups.1.some_reading, h.groups.2.no_reading,
    lastWordMeaning, Bool.and_eq_true, Bool.and_eq_true, and_assoc, meets, List.all_eq_true]
  refine and_congr_left fun _ => ⟨fun fields c hc => ?_, fun fields c hfield hc => ?_⟩
  · have hfield := isField_of_mem_conjuncts hf (lastWord_subset hc)
    exact fields c hfield ((h.conj.denotes c hfield).mpr hc)
  · exact fields c ((h.conj.denotes c hfield).mp hc)

theorem GroupOf.mem_of_branch {source : Option Value} {v : Value} (h : GroupOf source (some v))
    {c : Constraint} (hc : c ∈ (branches v).flatten) : c ∈ (source.elim [] branches).flatten := by
  cases source with
  | none => cases h
  | some w =>
      obtain ⟨gs, hv, _, hgs⟩ := h
      cases hv
      obtain ⟨g, hg, hc⟩ := List.mem_flatten.mp hc
      simp only [branches, List.map_map, List.mem_map, Function.comp_apply, branchConstraints] at hg
      obtain ⟨d, hd, rfl⟩ := hg
      obtain ⟨b, hb, hbd⟩ := exists_left_of_mem hgs hd
      refine List.mem_flatten.mpr ⟨b, hb, lastWord_subset ((hbd.2.denotes c trivial).mp ?_)⟩
      exact (denotes_iff hbd.2.neat.unique).mpr hc

/-- A settled dictionary constrains only what the filter mentions. -/
theorem Settled.mentioned {d f : Entries} (h : Settled d f) {e : String × Value} (he : e ∈ d)
    {c : Constraint} (hc : c ∈ allConstraints e) : c ∈ mentioned f := by
  obtain ⟨k, v⟩ := e
  have hv := (Dict.mem_iff_lookup h.conj.neat.unique).mp he
  unfold Filters.mentioned
  rw [List.mem_append, List.mem_append]
  by_cases hor : k = "$or"
  · rw [allConstraints, if_pos (.inl hor)] at hc
    have group := h.groups.1
    rw [← hor, hv] at group
    exact .inr (.inl (group.mem_of_branch hc))
  · by_cases hnot : k = "$not"
    · rw [allConstraints, if_pos (.inr hnot)] at hc
      have group := h.groups.2
      rw [← hnot, hv] at group
      exact .inr (.inr (group.mem_of_branch hc))
    · rw [allConstraints, if_neg (by simp [hor, hnot])] at hc
      have hkey : c.key = k := constraintsOf_key hc
      have hden : denotes d c := ⟨v, hkey ▸ hv, hkey ▸ hc⟩
      exact .inl (lastWord_subset ((h.conj.denotes c (hkey ▸ ⟨hor, hnot⟩)).mp hden))

theorem GroupOf.plain {source : Option Value} {v : Value} (h : GroupOf source (some v)) :
    ∃ gs : List Entries, v = .list (gs.map .dict) ∧ ∀ g ∈ gs, Plain g := by
  cases source with
  | none => cases h
  | some w =>
      obtain ⟨gs, hv, _, hgs⟩ := h
      refine ⟨gs, Option.some.inj hv, fun g hg => ?_⟩
      obtain ⟨_, _, hplain, _⟩ := exists_left_of_mem hgs hg
      exact hplain

theorem Settled.grouped {d f : Entries} (h : Settled d f) : Grouped d := by
  rintro ⟨k, v⟩ he hk
  have hv := (Dict.mem_iff_lookup h.conj.neat.unique).mp he
  rcases hk with rfl | rfl
  · have group := h.groups.1
    rw [hv] at group
    exact group.plain
  · have group := h.groups.2
    rw [hv] at group
    exact group.plain

/-! ## The two meanings -/

/-- The documented meaning of a dictionary of fields is that of its constraints. -/
theorem meaning_of_fields {d : Entries} (hd : ∀ e ∈ d, e.1 ∉ reserved) :
    meaning P payload d = (d.flatMap constraintsOf).all (Constraint.holds P payload) := by
  induction d with
  | nil => rfl
  | cons e d ih =>
      obtain ⟨k, v⟩ := e
      have hk := hd (k, v) List.mem_cons_self
      simp only [reserved, List.mem_cons, List.not_mem_nil, or_false, not_or] at hk
      rw [meaning, if_neg hk.1, if_neg hk.2.1, if_neg hk.2.2.1, List.flatMap_cons, List.all_append,
        ih fun e' he' => hd e' (List.mem_cons_of_mem _ he')]

theorem branchMeanings_of_fields {v : Value} (hv : BranchesOfFields v) :
    branchMeanings P payload v = (branches v).map (List.all · (Constraint.holds P payload)) := by
  cases v with
  | list vs =>
      have fields := hv vs rfl
      clear hv
      rw [branchMeanings]
      induction vs with
      | nil => rfl
      | cons b vs ih =>
          obtain ⟨d, rfl, hd⟩ := fields b List.mem_cons_self
          rw [branchListMeanings, branchMeaning, meaning_of_fields hd,
            ih fun b' hb' => fields b' (List.mem_cons_of_mem _ hb')]
          rfl
  | _ => rfl

/-- The documented meaning of one entry, over the constraints of its branches. -/
def entryMeaning (P : Platform) (payload : Payload) (e : String × Value) : Bool :=
  if e.1 = "AND" then (branches e.2).flatten.all (Constraint.holds P payload)
  else if e.1 = "OR" then (branches e.2).any (List.all · (Constraint.holds P payload))
  else if e.1 = "NOT" then !(branches e.2).any (List.all · (Constraint.holds P payload))
  else (constraintsOf e).all (Constraint.holds P payload)

theorem meaning_eq_all {f : Entries} (hf : Documented f) :
    meaning P payload f = f.all (entryMeaning P payload) := by
  induction f with
  | nil => rfl
  | cons e f ih =>
      obtain ⟨k, v⟩ := e
      have logical : k ∈ logicalKeys → branchMeanings P payload v =
          (branches v).map (List.all · (Constraint.holds P payload)) := fun hk =>
        branchMeanings_of_fields ((hf (k, v) List.mem_cons_self).1 hk)
      rw [meaning, List.all_cons, ih fun e he => hf e (List.mem_cons_of_mem _ he), entryMeaning]
      congr 1
      by_cases hand : k = "AND"
      · rw [if_pos hand, if_pos hand, logical (by simp [hand, logicalKeys]), List.all_map, List.all_flatten]
        rfl
      · rw [if_neg hand, if_neg hand]
        by_cases hor : k = "OR"
        · rw [if_pos hor, if_pos hor, logical (by simp [hor, logicalKeys]), List.any_map]
          rfl
        · rw [if_neg hor, if_neg hor]
          by_cases hnot : k = "NOT"
          · rw [if_pos hnot, if_pos hnot, logical (by simp [hnot, logicalKeys]), List.any_map]
            rfl
          · rw [if_neg hnot, if_neg hnot]

theorem isEmpty_filter_nonEmpty {bs : List (List Constraint)} (h : ∀ b ∈ bs, b ≠ []) :
    (bs.filter fun b => !b.isEmpty) = bs :=
  List.filter_eq_self.mpr fun b hb => by simpa using h b hb

/-- No two constraints of one conjunction clash, and no branch of `OR` or `NOT` is empty. -/
structure Unambiguous (f : Entries) : Prop where
  conj : NoClash (conjuncts f)
  branch : ∀ b ∈ alternatives "OR" f ++ alternatives "NOT" f, b ≠ [] ∧ NoClash b

theorem meets_of_noClash {cs : List Constraint} (h : NoClash cs) :
    meets P payload cs = cs.all (Constraint.holds P payload) := by
  rw [meets, lastWord_of_noClash h]

theorem all_entryMeaning_iff {f : Entries} (hu : Dict.Unique f) :
    f.all (entryMeaning P payload) = true ↔
      (conjuncts f).all (Constraint.holds P payload) = true ∧
      (∀ v, f.lookup "OR" = some v → entryMeaning P payload ("OR", v) = true) ∧
      (∀ v, f.lookup "NOT" = some v → entryMeaning P payload ("NOT", v) = true) := by
  rw [List.all_eq_true, conjuncts, List.all_flatMap, List.all_eq_true]
  constructor
  · intro h
    refine ⟨fun e he => ?_, fun v hv => h _ (Dict.mem_of_lookup hv),
      fun v hv => h _ (Dict.mem_of_lookup hv)⟩
    have hread := h e he
    by_cases hand : e.1 = "AND"
    · rw [entryMeaning, if_pos hand] at hread
      rwa [if_pos hand]
    · rw [if_neg hand]
      by_cases hlog : e.1 = "OR" ∨ e.1 = "NOT"
      · rw [if_pos hlog]
        rfl
      · rw [if_neg hlog]
        rw [not_or] at hlog
        rwa [entryMeaning, if_neg hand, if_neg hlog.1, if_neg hlog.2] at hread
  · rintro ⟨fields, ors, nots⟩ ⟨k, v⟩ he
    have hv := (Dict.mem_iff_lookup hu).mp he
    by_cases hor : k = "OR"
    · exact hor ▸ ors v (hor ▸ hv)
    · by_cases hnot : k = "NOT"
      · exact hnot ▸ nots v (hnot ▸ hv)
      · have hread := fields _ he
        simp only [hor, hnot, or_self, ↓reduceIte] at hread
        simp only [entryMeaning, hor, hnot, ↓reduceIte]
        split_ifs at hread ⊢ <;> exact hread

theorem any_meets {bs : List (List Constraint)} (h : ∀ b ∈ bs, NoClash b) :
    bs.any (meets P payload) = bs.any (List.all · (Constraint.holds P payload)) := by
  induction bs with
  | nil => rfl
  | cons b bs ih =>
      rw [List.any_cons, List.any_cons, meets_of_noClash (h b List.mem_cons_self),
        ih fun b' hb' => h b' (List.mem_cons_of_mem _ hb')]

/-- Where nothing clashes the last word is the documented meaning. -/
theorem lastWordMeaning_eq_meaning {d f : Entries} (hd : Settled d f) (hu : Dict.Unique f)
    (hf : Documented f) (h : Unambiguous f) :
    lastWordMeaning P payload f = meaning P payload f := by
  have ors : someGroup (meets P payload) (alternatives "OR" f) = true ↔
      ∀ v, f.lookup "OR" = some v → entryMeaning P payload ("OR", v) = true := by
    have hbranch := fun b hb => h.branch b (List.mem_append_left _ hb)
    have hgroup := hd.groups.1
    rw [someGroup, isEmpty_filter_nonEmpty fun b hb => (hbranch b hb).1,
      any_meets fun b hb => (hbranch b hb).2]
    unfold alternatives
    generalize f.lookup "OR" = source at hgroup ⊢
    cases source with
    | none => simp
    | some v =>
        obtain ⟨gs, _, hne, _⟩ := hgroup
        simp [entryMeaning, hne]
  have nots : noGroup (meets P payload) (alternatives "NOT" f) = true ↔
      ∀ v, f.lookup "NOT" = some v → entryMeaning P payload ("NOT", v) = true := by
    have hbranch := fun b hb => h.branch b (List.mem_append_right _ hb)
    rw [noGroup, isEmpty_filter_nonEmpty fun b hb => (hbranch b hb).1,
      any_meets fun b hb => (hbranch b hb).2]
    unfold alternatives
    cases f.lookup "NOT" <;> simp [entryMeaning]
  rw [Bool.eq_iff_iff, meaning_eq_all hf, all_entryMeaning_iff hu, lastWordMeaning, Bool.and_eq_true,
    Bool.and_eq_true, and_assoc, ors, nots, meets_of_noClash h.conj]

/-! ## The compiled filter -/

/-- Whatever filter a search accepts, on a payload that knows the keys it mentions the compiled
conditions hold exactly when the payload meets the last word of the filter. Where no two constraints
of a conjunction clash and no branch is empty, that is the documented meaning. -/
theorem compile_correct {filters : Object} {validated : Entries} {conds : List Cond}
    (hv : validateFilters filters.entries = .ok validated)
    (hc : compile P filters.entries = .ok conds) (hdoc : Documented filters.entries)
    (hk : ∀ c ∈ mentioned validated, c.known P payload) :
    selects P conds payload = lastWordMeaning P payload validated ∧
      (Unambiguous validated → selects P conds payload = meaning P payload validated) := by
  have hvalid := validateFilters_validated hv filters.wf
  have hvdoc := validateFilters_documented hv hdoc
  simp only [compile, hv, bind_ok, Except.ok.injEq, exists_eq_left'] at hc
  obtain ⟨effective, he, _, _, hb⟩ := hc
  have settled := effectiveFilters_settled he hvalid hvdoc
  have reads := reads_dict hb settled.grouped fun e he c hc => hk c (settled.mentioned he hc)
  have hlast : selects P conds payload = lastWordMeaning P payload validated := by
    rw [reads.selects, settled.reading hvdoc]
  refine ⟨hlast, fun h => ?_⟩
  rw [hlast, lastWordMeaning_eq_meaning settled hvalid.wf.1 hvdoc h]

/-- One of two states, an example of an accepted filter. -/
def eitherStatus : Object where
  entries := [("user_id", .str "u"),
    ("OR", .list [.dict [("status", .str "active")], .dict [("status", .dict [("eq", .str "pending")])]])]
  wf := by simp [Value.WF, Value.WFList, Value.WFEntries, Dict.Unique]

def pendingPayload : Payload := [("user_id", .str "u"), ("status", .str "pending")]

def eitherStatusConds : List Cond :=
  [.atom (.eq "user_id" "u"),
    .any [.all [.atom (.eq "status" "active")], .all [.atom (.eq "status" "pending")]]]

theorem compile_correct_either :
    selects .ascii eitherStatusConds pendingPayload = meaning .ascii pendingPayload eitherStatus.entries := by
  refine (@compile_correct .ascii pendingPayload eitherStatus eitherStatus.entries _ rfl ?_ ?_ ?_).2 ⟨?_, ?_⟩
  · have built : buildFilterConditions .ascii [("user_id", .str "u"),
        ("$or", .list [.dict [("status", .str "active")], .dict [("status", .dict [("eq", .str "pending")])]])] =
        .ok eitherStatusConds := by
      simp [buildFilterConditions, buildEntry, buildField, buildGroups, buildGroupList, buildGroup,
        buildOperator, orCondition, nonEmptyGroups, Value.isStar, Value.pyStr, eitherStatusConds,
        pure, Except.pure, bind, Except.bind]
    exact built
  · intro e he
    simp only [eitherStatus, List.mem_cons, List.not_mem_nil, or_false] at he
    rcases he with rfl | rfl
    · exact ⟨fun h => absurd h (by decide), fun _ => by decide⟩
    · refine ⟨fun _ vs hvs b hb => ?_, fun h => absurd (by decide) h⟩
      cases hvs
      simp only [List.mem_cons, List.not_mem_nil, or_false] at hb
      rcases hb with rfl | rfl <;> exact ⟨_, rfl, by decide⟩
  · have three : mentioned eitherStatus.entries = [⟨"user_id", none, .str "u"⟩,
        ⟨"status", none, .str "active"⟩, ⟨"status", some "eq", .str "pending"⟩] := rfl
    rw [three]
    simp only [List.forall_mem_cons, List.not_mem_nil, false_implies, implies_true, and_true]
    exact ⟨⟨_, rfl, by simp⟩, ⟨_, rfl, by simp⟩, ⟨_, rfl, by simp⟩⟩
  · exact List.pairwise_singleton _ _
  · have two : alternatives "OR" eitherStatus.entries ++ alternatives "NOT" eitherStatus.entries =
        [[⟨"status", none, .str "active"⟩], [⟨"status", some "eq", .str "pending"⟩]] := rfl
    rw [two]
    simp [NoClash]

/-- Two branches of `AND` on one key: the payload meets only the last of them. -/
def conflicting : Entries :=
  [("user_id", .str "u"),
    ("AND", .list [.dict [("status", .str "active")], .dict [("status", .str "pending")]])]

/-- The compiled filter admits the payload, although its documented meaning does not. -/
theorem last_branch_wins : ∃ conds,
    compile .ascii conflicting = .ok conds ∧
      (∀ c ∈ mentioned conflicting, c.known .ascii pendingPayload) ∧
      selects .ascii conds pendingPayload = true ∧
      meaning .ascii pendingPayload conflicting = false := by
  refine ⟨[.atom (.eq "user_id" "u"), .atom (.eq "status" "pending")], ?_, ?_, by decide, ?_⟩
  · have built : buildFilterConditions .ascii [("user_id", .str "u"), ("status", .str "pending")] =
        .ok [.atom (.eq "user_id" "u"), .atom (.eq "status" "pending")] := by
      simp [buildFilterConditions, buildEntry, buildField, Value.isStar, Value.pyStr]
    exact built
  · have three : mentioned conflicting = [⟨"user_id", none, .str "u"⟩, ⟨"status", none, .str "active"⟩,
        ⟨"status", none, .str "pending"⟩] := rfl
    rw [three]
    simp only [List.forall_mem_cons, List.not_mem_nil, false_implies, implies_true, and_true]
    exact ⟨⟨_, rfl, by simp⟩, ⟨_, rfl, by simp⟩, ⟨_, rfl, by simp⟩⟩
  · simp only [conflicting, meaning, branchMeanings, branchListMeanings, branchMeaning]
    decide

end YiQiao.Filters
