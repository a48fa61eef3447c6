import YiQiao.Filter.Reading

/-!
# What the processor keeps

A processed dictionary denotes, key by key, the last word of the constraints read so far. One merge
keeps this, so a branch and then a whole filter keep it.
-/

namespace YiQiao.Filters

open Lib Fallible

/-! ## The constraints a dictionary denotes -/

/-- The dictionary holds the constraint. -/
def denotes (d : Entries) (c : Constraint) : Prop :=
  ∃ v, d.lookup c.key = some v ∧ c ∈ constraintsOf (c.key, v)

/-- Keys and operators stand once. -/
structure Neat (d : Entries) : Prop where
  unique : Dict.Unique d
  ops : ∀ k ops, d.lookup k = some (.dict ops) → Dict.Unique ops

theorem constraintsOf_key {e : String × Value} {c : Constraint} (h : c ∈ constraintsOf e) :
    c.key = e.1 := by
  unfold constraintsOf at h
  split at h
  · obtain ⟨o, _, rfl⟩ := List.mem_map.mp h
    rfl
  · rw [List.mem_singleton.mp h]

theorem mem_constraintsOf_dict {k : String} {ops : Entries} {c : Constraint} :
    c ∈ constraintsOf (k, .dict ops) ↔ ∃ o ∈ ops, c = ⟨k, some o.1, o.2⟩ := by
  simp only [constraintsOf, List.mem_map, eq_comm]

theorem constraintsOf_not_dict {e : String × Value} (h : e.2.isDict = false) :
    constraintsOf e = [⟨e.1, none, e.2⟩] := by
  obtain ⟨k, v⟩ := e
  cases v <;> first | rfl | cases h

theorem denotes_iff {d : Entries} (hd : Dict.Unique d) {c : Constraint} :
    denotes d c ↔ c ∈ d.flatMap constraintsOf := by
  rw [List.mem_flatMap]
  constructor
  · rintro ⟨v, hv, hc⟩
    exact ⟨(c.key, v), Dict.mem_of_lookup hv, hc⟩
  · rintro ⟨⟨k, v⟩, he, hc⟩
    obtain rfl : c.key = k := constraintsOf_key hc
    exact ⟨v, (Dict.mem_iff_lookup hd).mp he, hc⟩

/-- Two operators of one key do not replace each other. -/
theorem noClash_constraintsOf {e : String × Value} (h : e.2.WF) : NoClash (constraintsOf e) := by
  obtain ⟨k, v⟩ := e
  cases v with
  | dict ops =>
      have hnodup : (ops.map Prod.fst).Nodup := h.1
      rw [NoClash, constraintsOf, List.pairwise_map]
      refine (List.pairwise_map.mp hnodup).imp ?_
      intro o o' hne
      simpa [Constraint.replaces] using fun he : o'.1 = o.1 => hne he.symm
  | _ => exact List.pairwise_singleton _ _

/-! ## One merge -/

/-- What may be merged: an operator dictionary must have operators, each once. -/
def Mergeable (e : String × Value) : Prop := ∀ ops, e.2 = .dict ops → ops ≠ [] ∧ Dict.Unique ops

theorem any_replaces_of_ne {e : String × Value} {c : Constraint} (h : c.key ≠ e.1) :
    (constraintsOf e).any (·.replaces c) = false := by
  rw [List.any_eq_false]
  intro d hd
  have hkey : d.key ≠ c.key := by
    rw [constraintsOf_key hd]
    exact fun he => h he.symm
  simp [Constraint.replaces, hkey]

/-- All constraints on a key make way for new ones, unless both are operators. -/
theorem any_replaces {k : String} {v w : Value} {c : Constraint} (hc : c ∈ constraintsOf (k, w))
    (hne : constraintsOf (k, v) ≠ []) (h : v.isDict = false ∨ w.isDict = false) :
    (constraintsOf (k, v)).any (·.replaces c) = true := by
  obtain ⟨d, hd⟩ := List.exists_mem_of_ne_nil _ hne
  refine List.any_eq_true.mpr ⟨d, hd, ?_⟩
  have hkey : d.key = c.key := (constraintsOf_key hd).trans (constraintsOf_key hc).symm
  rcases h with h | h
  · rw [constraintsOf_not_dict h, List.mem_singleton] at hd
    simp [Constraint.replaces, hd, constraintsOf_key hc]
  · rw [constraintsOf_not_dict h, List.mem_singleton] at hc
    simp [Constraint.replaces, hkey, hc]

theorem denotes_set {d : Entries} {k : String} {w : Value} {c : Constraint} :
    denotes (Dict.set k w d) c ↔ if c.key = k then c ∈ constraintsOf (k, w) else denotes d c := by
  unfold denotes
  rw [Dict.lookup_set]
  by_cases h : c.key = k
  · simp [h]
  · simp [h]

/-- Merging operators: an old one stays unless a new one has its name. -/
theorem mem_constraintsOf_update {k : String} {old new : Entries} (ho : Dict.Unique old)
    (hn : Dict.Unique new) {c : Constraint} :
    c ∈ constraintsOf (k, .dict (Dict.update old new)) ↔
      (c ∈ constraintsOf (k, .dict old) ∧
        (constraintsOf (k, .dict new)).any (·.replaces c) = false) ∨
      c ∈ constraintsOf (k, .dict new) := by
  simp only [mem_constraintsOf_dict]
  constructor
  · rintro ⟨⟨n, x⟩, hmem, rfl⟩
    rw [Dict.mem_iff_lookup (ho.update new), Dict.lookup_update _ hn] at hmem
    rcases hnew : new.lookup n with _ | y
    · rw [hnew, Option.none_or] at hmem
      refine .inl ⟨⟨(n, x), Dict.mem_of_lookup hmem, rfl⟩, List.any_eq_false.mpr ?_⟩
      intro d hd
      obtain ⟨o, ho', rfl⟩ := mem_constraintsOf_dict.mp hd
      have hname : o.1 ≠ n := by
        rintro rfl
        exact Dict.lookup_eq_none_iff_keys.mp hnew (List.mem_map_of_mem ho')
      simpa [Constraint.replaces] using hname
    · rw [hnew, Option.some_or, Option.some.injEq] at hmem
      exact .inr ⟨(n, x), Dict.mem_of_lookup (by rw [hnew, hmem]), rfl⟩
  · rintro (⟨⟨⟨n, x⟩, hmem, rfl⟩, hany⟩ | ⟨⟨n, x⟩, hmem, rfl⟩)
    · refine ⟨(n, x), ?_, rfl⟩
      have hnew : new.lookup n = none := by
        rw [Dict.lookup_eq_none_iff_keys]
        intro hkey
        obtain ⟨o, ho', rfl⟩ := List.mem_map.mp hkey
        rw [List.any_eq_false] at hany
        exact hany _ (mem_constraintsOf_dict.mpr ⟨o, ho', rfl⟩) (by simp [Constraint.replaces])
      rw [Dict.mem_iff_lookup (ho.update new), Dict.lookup_update _ hn, hnew, Option.none_or]
      exact (Dict.mem_iff_lookup ho).mp hmem
    · refine ⟨(n, x), ?_, rfl⟩
      rw [Dict.mem_iff_lookup (ho.update new), Dict.lookup_update _ hn,
        (Dict.mem_iff_lookup hn).mp hmem, Option.some_or]

theorem constraintsOf_ne_nil {e : String × Value} (he : Mergeable e) : constraintsOf e ≠ [] := by
  obtain ⟨k, v⟩ := e
  cases v with
  | dict ops => simpa [constraintsOf] using (he ops rfl).1
  | _ => simp [constraintsOf]

/-- One merge keeps the old constraints that the new entry does not replace. -/
theorem denotes_mergeEntry {d : Entries} {e : String × Value} (hd : Neat d) (he : Mergeable e)
    (c : Constraint) :
    denotes (mergeEntry d e) c ↔
      (denotes d c ∧ (constraintsOf e).any (·.replaces c) = false) ∨ c ∈ constraintsOf e := by
  obtain ⟨k, v⟩ := e
  by_cases hk : c.key = k
  · subst hk
    unfold mergeEntry
    split
    · rename_i old new hold hv
      obtain rfl : v = .dict new := hv
      have hden : denotes d c ↔ c ∈ constraintsOf (c.key, .dict old) := by
        unfold denotes
        simp [show d.lookup c.key = some (.dict old) from hold]
      rw [denotes_set, if_pos rfl, hden]
      exact mem_constraintsOf_update (hd.ops _ _ hold) (he new rfl).2
    · rename_i hnot
      rw [denotes_set, if_pos rfl]
      refine ⟨.inr, ?_⟩
      rintro (⟨⟨w, hw, hc⟩, hany⟩ | h)
      · have hdict : v.isDict = false ∨ w.isDict = false := by
          cases v with
          | dict new =>
              cases w with
              | dict old => exact absurd rfl (hnot old new hw)
              | _ => exact .inr rfl
          | _ => exact .inl rfl
        rw [any_replaces hc (constraintsOf_ne_nil he) hdict] at hany
        cases hany
      · exact h
  · have hnc : c ∉ constraintsOf (k, v) := fun h => hk (constraintsOf_key h)
    have hset : ∀ w, denotes (Dict.set k w d) c ↔ denotes d c := fun w => by
      rw [denotes_set, if_neg hk]
    have hmerge : denotes (mergeEntry d (k, v)) c ↔ denotes d c := by
      unfold mergeEntry
      split <;> exact hset _
    rw [hmerge, any_replaces_of_ne hk]
    simp [hnc]

theorem Neat.set {d : Entries} (hd : Neat d) (k : String) {v : Value}
    (hv : ∀ ops, v = .dict ops → Dict.Unique ops) : Neat (Dict.set k v d) where
  unique := hd.unique.set k v
  ops := by
    intro k' ops h
    rw [Dict.lookup_set] at h
    split at h
    · exact hv ops (Option.some.inj h)
    · exact hd.ops k' ops h

theorem Neat.mergeEntry {d : Entries} {e : String × Value} (hd : Neat d) (he : Mergeable e) :
    Neat (mergeEntry d e) := by
  unfold Filters.mergeEntry
  split
  · rename_i old new hold _
    refine hd.set _ fun ops h => ?_
    cases h
    exact (hd.ops _ _ hold).update new
  · exact hd.set _ fun ops h => (he ops h).2

theorem lookup_mergeEntry_of_ne {d : Entries} {e : String × Value} {k : String} (h : k ≠ e.1) :
    (mergeEntry d e).lookup k = d.lookup k := by
  unfold mergeEntry
  split <;> exact Dict.lookup_set_of_ne h _ _

/-! ## Conditions -/

/-- An operator dictionary passes through unchanged when its operators are known. -/
theorem foldlM_addOperator {ops r : Entries} (h : ops.foldlM addOperator [] = .ok r)
    (hops : Dict.Unique ops) : r = ops := by
  refine foldlM_ok (I := fun done r => r = done) h rfl ?_
  rintro done ⟨n, x⟩ rest t t' rfl rfl ht
  unfold addOperator at ht
  split at ht
  · cases ht
    exact Dict.set_of_notMem hops.notMem_of_append x
  · cases ht

/-- A condition is merged, or it is an empty operator dictionary and changes nothing. -/
theorem mergeCondition_cases {d d' : Entries} {e : String × Value}
    (h : mergeCondition d e = .ok d') (he : e.2.WF) :
    (constraintsOf e = [] ∧ d' = d) ∨ (Mergeable e ∧ d' = mergeEntry d e) := by
  obtain ⟨k, v⟩ := e
  have plain_value : v.isDict = false → processCondition k v = .ok [(k, v)] → d' = mergeEntry d (k, v) ∧
      Mergeable (k, v) := by
    intro hv hp
    rw [mergeCondition, hp] at h
    cases h
    refine ⟨rfl, fun ops hops => ?_⟩
    obtain rfl : v = .dict ops := hops
    cases hv
  cases v with
  | dict ops =>
      simp only [mergeCondition, processCondition, bind_ok, pure_ok] at h
      obtain ⟨source, ⟨r, hr, rfl⟩, rfl⟩ := h
      obtain rfl := foldlM_addOperator hr he.1
      by_cases hempty : r.isEmpty
      · refine .inl ⟨?_, by rw [if_pos hempty]; rfl⟩
        rw [List.isEmpty_iff] at hempty
        simp [constraintsOf, hempty]
      · refine .inr ⟨?_, by rw [if_neg hempty]; rfl⟩
        intro ops hops
        cases hops
        exact ⟨by simpa using hempty, he.1⟩
  | null => exact .inr (plain_value rfl rfl).symm
  | bool b => exact .inr (plain_value rfl rfl).symm
  | num m s => exact .inr (plain_value rfl rfl).symm
  | str s => exact .inr (plain_value rfl rfl).symm
  | list xs => exact .inr (plain_value rfl rfl).symm

/-- The dictionary is neat and denotes the last word of `cs`, where it is asked about fields that
`F` admits. -/
structure Tracks (F : String → Prop) (d : Entries) (cs : List Constraint) : Prop where
  neat : Neat d
  denotes : ∀ c, F c.key → (denotes d c ↔ c ∈ lastWord cs)

namespace Tracks

variable {F : String → Prop} {d d' : Entries} {cs : List Constraint}

theorem nil : Tracks F [] [] where
  neat := ⟨List.nodup_nil, fun _ _ h => by cases h⟩
  denotes := by
    intro c _
    simp [Filters.denotes, lastWord]

theorem mergeCondition {e : String × Value} (h : Tracks F d cs) (he : e.2.WF)
    (hm : Filters.mergeCondition d e = .ok d') : Tracks F d' (cs ++ constraintsOf e) := by
  rcases mergeCondition_cases hm he with ⟨hnil, rfl⟩ | ⟨hmerge, rfl⟩
  · rwa [hnil, List.append_nil]
  · refine ⟨h.neat.mergeEntry hmerge, fun c hc => ?_⟩
    rw [denotes_mergeEntry h.neat hmerge, mem_lastWord_append, h.denotes c hc,
      lastWord_of_noClash (noClash_constraintsOf he)]

theorem mergeBranch {b : Value} (h : Tracks F d cs) (hb : b.WF)
    (hm : Filters.mergeBranch d b = .ok d') : Tracks F d' (cs ++ branchConstraints b) := by
  unfold Filters.mergeBranch at hm
  split at hm
  · rename_i entries
    refine foldlM_ok (I := fun done t => Tracks F t (cs ++ done.flatMap constraintsOf)) hm
      (by simpa using h) ?_
    intro done e rest t t' hsplit ht hstep
    have he : e.2.WF := hb.2.mem (by simp [hsplit])
    simpa [List.append_assoc] using ht.mergeCondition he hstep
  · cases hm

theorem foldlM_mergeBranch {bs : List Value} (h : Tracks F d cs) (hb : (Value.list bs).WF)
    (hm : bs.foldlM Filters.mergeBranch d = .ok d') :
    Tracks F d' (cs ++ (branches (.list bs)).flatten) := by
  refine foldlM_ok (I := fun done t => Tracks F t (cs ++ (branches (.list done)).flatten)) hm
    (by simpa [branches] using h) ?_
  intro done b rest t t' hsplit ht hstep
  have hwf : b.WF := Value.WFList.mem hb (by simp [hsplit])
  simpa [branches, List.append_assoc] using ht.mergeBranch hwf hstep

end Tracks

/-! ## Other keys -/

theorem lookup_mergeCondition {d d' : Entries} {e : String × Value} {k : String}
    (h : mergeCondition d e = .ok d') (he : e.2.WF) (hk : k ≠ e.1) : d'.lookup k = d.lookup k := by
  rcases mergeCondition_cases h he with ⟨_, rfl⟩ | ⟨_, rfl⟩
  · rfl
  · exact lookup_mergeEntry_of_ne hk

theorem lookup_mergeBranch {d d' : Entries} {b : Value} {k : String} (h : mergeBranch d b = .ok d')
    (hb : b.WF) (hk : ∀ entries, b = .dict entries → ∀ e ∈ entries, k ≠ e.1) :
    d'.lookup k = d.lookup k := by
  unfold mergeBranch at h
  split at h
  · rename_i entries
    refine foldlM_ok (I := fun _ t => t.lookup k = d.lookup k) h rfl ?_
    intro done e rest t t' hsplit ht hstep
    have he : e ∈ entries := by simp [hsplit]
    rw [lookup_mergeCondition hstep (hb.2.mem he) (hk entries rfl e he), ht]
  · cases h

theorem lookup_foldlM_mergeBranch {d d' : Entries} {bs : List Value} {k : String}
    (h : bs.foldlM mergeBranch d = .ok d') (hb : (Value.list bs).WF)
    (hk : ∀ entries, .dict entries ∈ bs → ∀ e ∈ entries, k ≠ e.1) : d'.lookup k = d.lookup k := by
  refine foldlM_ok (I := fun _ t => t.lookup k = d.lookup k) h rfl ?_
  intro done b rest t t' hsplit ht hstep
  have hmem : b ∈ bs := by simp [hsplit]
  rw [lookup_mergeBranch hstep (Value.WFList.mem hb hmem)
    (fun entries he => hk entries (he ▸ hmem)), ht]

/-! ## Groups -/

/-- What a dictionary holds for a logical operator of the filter: one plain dictionary a branch. -/
def GroupOf (source : Option Value) (target : Option Value) : Prop :=
  match source with
  | none => target = none
  | some v => ∃ gs : List Entries, target = some (.list (gs.map .dict)) ∧ branches v ≠ [] ∧
      List.Forall₂ (fun b g => Plain g ∧ Tracks (fun _ => True) g b) (branches v) gs

theorem groupOf_processGroup {bs : List Value} {w : Value} (h : processGroup bs = .ok w)
    (hne : bs ≠ []) (hb : (Value.list bs).WF) (hf : BranchesOfFields (.list bs)) :
    GroupOf (some (.list bs)) (some w) := by
  simp only [processGroup, bind_ok, pure_ok, mapM_ok] at h
  obtain ⟨gs, hgs, rfl⟩ := h
  refine ⟨gs, rfl, by simpa [branches] using hne, ?_⟩
  have fields := hf bs rfl
  clear hf hne
  induction hgs with
  | nil => exact .nil
  | cons hbg _ ih =>
      rename_i b g bs gs _
      refine .cons ⟨?_, ?_⟩
        (ih hb.2 fun d hd => fields d (List.mem_cons_of_mem _ hd))
      · have absent : ∀ k ∈ reserved, g.lookup k = none := by
          intro k hk
          refine lookup_mergeBranch hbg hb.1 fun entries hbe e he hke => ?_
          obtain ⟨d, hd, hfields⟩ := fields b List.mem_cons_self
          obtain rfl : entries = d := Value.dict.inj (hbe.symm.trans hd)
          exact hfields e he (hke ▸ hk)
        intro e he
        have hsome := Dict.lookup_isSome_of_mem he
        constructor
        · intro hk
          simp [hk, absent "$or" (by decide)] at hsome
        · intro hk
          simp [hk, absent "$not" (by decide)] at hsome
      · simpa using Tracks.nil.mergeBranch hb.1 hbg

end YiQiao.Filters
