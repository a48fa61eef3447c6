import YiQiao.Equality

/-!
# Merging configurations

A partial configuration is merged into another one key by key. A section that names another provider replaces the
section it meets. Merging is not associative for that: what a section replaced comes back where the provider that it
replaced does.
-/

namespace YiQiao

open Lib

/-- The provider of a section, where it names one. -/
def providerOf (base : Entries) : Option Value := (base.lookup "provider").filter Value.truthy

/-- The sections name different providers. -/
def otherProvider (base updates : Entries) : Bool :=
  match providerOf base, providerOf updates with
  | some current, some updated => !decide (current.Equal updated)
  | _, _ => false

mutual
/-- The loop of `_merge_config`. -/
def mergeLoop (merged : Entries) : List (String × Value) → Entries
  | [] => merged
  | (key, value) :: updates => mergeLoop (Dict.set key (mergedValue (merged.lookup key) value) merged) updates

/-- What the loop puts in the place of a value. The check of the providers is made once more by the inner call. -/
def mergedValue (old : Option Value) : Value → Value
  | .dict value => match old with
      | some (.dict old) => .dict (if otherProvider old value then value else mergeLoop old value)
      | _ => .dict value
  | value => value
end

/-- `_merge_config`. -/
def mergeConfig (base updates : Entries) : Entries :=
  if otherProvider base updates then updates else mergeLoop base updates

/-! ## When updates may be put together -/

/-- Merging the updates into the section leaves the updates. -/
inductive Absorbs : Entries → Entries → Prop
  | other {base updates : Entries} (hother : otherProvider base updates = true) : Absorbs base updates
  | covers {base updates : Entries} (hkeys : ∀ key, (base.lookup key).isSome → (updates.lookup key).isSome)
      (hsections : ∀ key inner value, base.lookup key = some (.dict inner) → updates.lookup key = some (.dict value) →
        Absorbs inner value) : Absorbs base updates

/-- The updates may be merged into the overrides or into what the overrides made of the default. -/
inductive Coherent : Entries → Entries → Entries → Prop
  /-- The overrides' provider is left, and not for the default one, or nothing of the default section is missing. -/
  | switched {default overrides updates : Entries} (hother : otherProvider overrides updates = true)
      (habsorbs : Absorbs default updates) : Coherent default overrides updates
  /-- The overrides' provider, which is not the default one, stays named. -/
  | overridden {default overrides updates : Entries} (hsame : otherProvider overrides updates = false)
      (hother : otherProvider default overrides = true)
      (hnamed : ∀ provider, updates.lookup "provider" = some provider → provider.truthy = true) :
      Coherent default overrides updates
  /-- The default provider is left where the overrides name none, and nothing of the overrides is missing. -/
  | replaced {default overrides updates : Entries} (hother : otherProvider default updates = true)
      (hnone : overrides.lookup "provider" = none) (habsorbs : Absorbs overrides updates) :
      Coherent default overrides updates
  /-- The provider stays the default one, and the same holds of the sections inside. -/
  | merged {default overrides updates : Entries} (hupdates : otherProvider overrides updates = false)
      (hoverrides : otherProvider default overrides = false) (hdefault : otherProvider default updates = false)
      (hsections : ∀ key base old value, default.lookup key = some (.dict base) →
        overrides.lookup key = some (.dict old) → updates.lookup key = some (.dict value) → Coherent base old value)
      (hvalues : ∀ key base old value, default.lookup key = some (.dict base) → overrides.lookup key = some old →
        old.isDict = false → updates.lookup key = some (.dict value) → Absorbs base value) :
      Coherent default overrides updates

/-! ## What a key gets -/

/-- What a key holds after a merge. -/
def mergeAt (old updated : Option Value) : Option Value :=
  match updated with
  | none => old
  | some value => some (mergedValue old value)

section
variable {base base' overrides updates : Entries} {old : Option Value} {value : Value} {key : String}

theorem lookup_mergeLoop (hunique : Dict.Unique updates) (key : String) :
    (mergeLoop base updates).lookup key = mergeAt (base.lookup key) (updates.lookup key) := by
  induction updates generalizing base with
  | nil => rfl
  | cons e updates ih =>
      obtain ⟨key', value⟩ := e
      rw [Dict.Unique, List.map_cons, List.nodup_cons] at hunique
      rw [mergeLoop, ih hunique.2, List.lookup_cons]
      by_cases hkey : key = key'
      · subst hkey
        rw [Dict.lookup_eq_none_iff_keys.mpr hunique.1, Dict.lookup_set_self, beq_self_eq_true]
        rfl
      · rw [Dict.lookup_set_of_ne hkey, beq_false_of_ne hkey]

theorem mergeAt_dict (base updates : Entries) :
    mergeAt (some (.dict base)) (some (.dict updates)) = some (.dict (mergeConfig base updates)) := by
  rw [mergeAt, mergedValue, mergeConfig]

theorem mergeAt_value (hvalue : value.isDict = false) : mergeAt old (some value) = some value := by
  cases value with
  | dict d => cases hvalue
  | _ => rfl

theorem mergeAt_new (hold : ∀ inner, old ≠ some (.dict inner)) : mergeAt old (some value) = some value := by
  cases value with
  | dict d =>
      rcases old with _ | w
      · rfl
      · cases w with
        | dict inner => exact absurd rfl (hold inner)
        | _ => rfl
  | _ => rfl

theorem not_dict_of_isDict (hvalue : value.isDict = false) : ∀ inner, some value ≠ some (.dict inner) := by
  rintro inner h
  cases h
  cases hvalue

theorem isDict_cases (value : Value) : value.isDict = false ∨ ∃ inner, value = .dict inner := by
  cases value with
  | dict inner => exact .inr ⟨inner, rfl⟩
  | _ => exact .inl rfl

/-! ## Well-formed configurations -/

theorem Value.WF.lookup (h : (Value.dict base).WF) (hlookup : base.lookup key = some value) : value.WF :=
  h.2.mem (Dict.mem_of_lookup hlookup)

mutual
theorem mergeLoop_wf {merged : Entries} (hmerged : (Value.dict merged).WF) :
    ∀ {updates : List (String × Value)}, Value.WFEntries updates → (Value.dict (mergeLoop merged updates)).WF
  | [], _ => hmerged
  | (key, _) :: updates, h => by
      rw [mergeLoop]
      exact mergeLoop_wf (hmerged.set key (mergedValue_wf (fun _ hold => hmerged.lookup hold) h.1)) h.2

theorem mergedValue_wf {old : Option Value} (hold : ∀ value, old = some value → value.WF) :
    ∀ {value : Value}, value.WF → (mergedValue old value).WF
  | .dict value, h => by
      by_cases hdict : ∃ inner, old = some (.dict inner)
      · obtain ⟨inner, rfl⟩ := hdict
        rw [mergedValue]
        split
        · exact h
        · exact mergeLoop_wf (hold _ rfl) h.2
      · rw [Option.some.inj (@mergeAt_new old (.dict value) (not_exists.mp hdict))]
        exact h
  | .null, h => h
  | .bool _, h => h
  | .num _ _, h => h
  | .str _, h => h
  | .list _, h => h
end

theorem mergeConfig_wf (hbase : (Value.dict base).WF) (hupdates : (Value.dict updates).WF) :
    (Value.dict (mergeConfig base updates)).WF := by
  rw [mergeConfig]
  split
  · exact hupdates
  · exact mergeLoop_wf hbase hupdates.2

/-! ## Merging equal configurations -/

theorem otherProvider_iff : otherProvider base updates = true ↔ ∃ current updated,
    providerOf base = some current ∧ providerOf updates = some updated ∧ ¬ current.Equal updated := by
  rw [otherProvider]
  cases providerOf base with
  | none => simp
  | some current => cases providerOf updates with
    | none => simp
    | some updated => simp

theorem otherProvider_of_alike (hbase : Alike (providerOf base) (providerOf base'))
    (h : otherProvider base updates = true) : otherProvider base' updates = true := by
  obtain ⟨current, updated, hcurrent, hupdated, hne⟩ := otherProvider_iff.mp h
  rw [hcurrent] at hbase
  cases hcurrent' : providerOf base' with
  | none => rw [hcurrent'] at hbase; cases alike_none.mp hbase
  | some current' =>
      rw [hcurrent'] at hbase
      exact otherProvider_iff.mpr ⟨current', updated, hcurrent', hupdated, fun heq => hne (hbase.trans heq)⟩

theorem otherProvider_symm (h : otherProvider base updates = true) : otherProvider updates base = true := by
  obtain ⟨current, updated, hcurrent, hupdated, hne⟩ := otherProvider_iff.mp h
  exact otherProvider_iff.mpr ⟨updated, current, hupdated, hcurrent, fun heq => hne heq.symm⟩

theorem providerOf_alike (h : Alike (base.lookup "provider") (base'.lookup "provider")) :
    Alike (providerOf base) (providerOf base') := by
  rw [providerOf, providerOf]
  cases hleft : base.lookup "provider" with
  | none =>
      rw [hleft] at h
      rw [alike_none.mp h.symm]
      exact Alike.refl _
  | some v => cases hright : base'.lookup "provider" with
    | none => rw [hleft, hright] at h; cases alike_none.mp h
    | some w =>
        rw [hleft, hright] at h
        have htruthy : v.truthy = w.truthy := Value.Equal.truthy h
        rw [Option.filter_some, Option.filter_some, htruthy]
        split
        · exact h
        · exact Alike.refl none

theorem otherProvider_congr (h : Alike (some (.dict base)) (some (.dict base'))) :
    otherProvider base updates = otherProvider base' updates := by
  have hproviders := providerOf_alike (alike_dict.mp h "provider")
  rw [Bool.eq_iff_iff]
  exact ⟨otherProvider_of_alike hproviders, otherProvider_of_alike hproviders.symm⟩

/-- Equal configurations give equal ones when they are updated. -/
theorem mergeConfig_congr (h : Alike (some (.dict base)) (some (.dict base'))) (hupdates : (Value.dict updates).WF) :
    Alike (some (.dict (mergeConfig base updates))) (some (.dict (mergeConfig base' updates))) := by
  let R : Entries → Entries → Prop := fun left right => ∃ base base' updates, left = mergeConfig base updates ∧
    right = mergeConfig base' updates ∧ Alike (some (.dict base)) (some (.dict base')) ∧ (Value.dict updates).WF
  refine alike_of_simulation (R := R) ?_ ⟨base, base', updates, rfl, rfl, h, hupdates⟩
  rintro _ _ ⟨base, base', updates, rfl, rfl, h, hupdates⟩ key
  rw [mergeConfig, mergeConfig, otherProvider_congr h]
  split
  · exact .inl (Alike.refl _)
  · rw [lookup_mergeLoop hupdates.1, lookup_mergeLoop hupdates.1]
    have hkey := alike_dict.mp h key
    cases hvalue : updates.lookup key with
    | none => exact .inl hkey
    | some value =>
        rcases isDict_cases value with hleaf | ⟨inner, rfl⟩
        · rw [mergeAt_value hleaf, mergeAt_value hleaf]
          exact .inl (Alike.refl _)
        · by_cases hleft : ∃ d, base.lookup key = some (.dict d)
          · obtain ⟨d, hd⟩ := hleft
            rw [hd] at hkey
            obtain ⟨d', hd'⟩ := hkey.dict
            rw [hd'] at hkey
            rw [hd, hd', mergeAt_dict, mergeAt_dict]
            exact .inr ⟨_, _, rfl, rfl, d, d', inner, rfl, rfl, hkey, hupdates.lookup hvalue⟩
          · have hright : ¬ ∃ d, base'.lookup key = some (.dict d) := by
              rintro ⟨d, hd⟩
              rw [hd] at hkey
              exact hleft hkey.symm.dict
            rw [mergeAt_new (not_exists.mp hleft), mergeAt_new (not_exists.mp hright)]
            exact .inl (Alike.refl _)

/-- Merging a configuration into an equal one gives it again. -/
theorem mergeConfig_of_alike (h : Alike (some (.dict base)) (some (.dict updates))) (hupdates : (Value.dict updates).WF) :
    Alike (some (.dict (mergeConfig base updates))) (some (.dict updates)) := by
  let R : Entries → Entries → Prop := fun left right => ∃ base, left = mergeConfig base right ∧
    Alike (some (.dict base)) (some (.dict right)) ∧ (Value.dict right).WF
  refine alike_of_simulation (R := R) ?_ ⟨base, rfl, h, hupdates⟩
  rintro _ updates ⟨base, rfl, h, hupdates⟩ key
  rw [mergeConfig]
  split
  · exact .inl (Alike.refl _)
  · rw [lookup_mergeLoop hupdates.1]
    have hkey := alike_dict.mp h key
    cases hvalue : updates.lookup key with
    | none =>
        rw [hvalue] at hkey
        exact .inl hkey
    | some value =>
        rcases isDict_cases value with hleaf | ⟨inner, rfl⟩
        · rw [mergeAt_value hleaf]
          exact .inl (Alike.refl _)
        · rw [hvalue] at hkey
          obtain ⟨d, hd⟩ := hkey.symm.dict
          rw [hd] at hkey
          rw [hd, mergeAt_dict]
          exact .inr ⟨_, _, rfl, rfl, d, rfl, hkey, hupdates.lookup hvalue⟩

theorem Absorbs.alike (h : Absorbs base updates) (hupdates : (Value.dict updates).WF) :
    Alike (some (.dict (mergeConfig base updates))) (some (.dict updates)) := by
  induction h with
  | other hother =>
      rw [mergeConfig, if_pos hother]
      exact Alike.refl _
  | @covers base updates hkeys hsections ih =>
      rw [mergeConfig]
      split
      · exact Alike.refl _
      · refine alike_dict.mpr fun key => ?_
        rw [lookup_mergeLoop hupdates.1]
        cases hvalue : updates.lookup key with
        | none =>
            have hnone : base.lookup key = none := by
              by_contra hsome
              have hmissing := hkeys key (Option.isSome_iff_ne_none.mpr hsome)
              rw [hvalue] at hmissing
              cases hmissing
            rw [hnone]
            exact Alike.refl _
        | some value =>
            rcases isDict_cases value with hleaf | ⟨inner, rfl⟩
            · rw [mergeAt_value hleaf]
              exact Alike.refl _
            · by_cases hold : ∃ d, base.lookup key = some (.dict d)
              · obtain ⟨d, hd⟩ := hold
                rw [hd, mergeAt_dict]
                exact ih key d inner hd hvalue (hupdates.lookup hvalue)
              · rw [mergeAt_new (not_exists.mp hold)]
                exact Alike.refl _

theorem absorbs_nil (updates : Entries) : Absorbs [] updates := by
  refine .covers (fun key h => ?_) (fun key inner value h => ?_)
  · cases h
  · cases h

/-! ## The provider of what was merged -/

theorem providerOf_eq_some {provider : Value} :
    providerOf base = some provider ↔ base.lookup "provider" = some provider ∧ provider.truthy = true := by
  rw [providerOf, Option.filter_eq_some_iff]

theorem providerOf_merged_none (hunique : Dict.Unique updates) (hnone : updates.lookup "provider" = none) :
    providerOf (mergeLoop base updates) = providerOf base := by
  rw [providerOf, lookup_mergeLoop hunique, hnone]
  rfl

/-- A provider that is not truthy takes the one it meets away, or leaves it. -/
theorem providerOf_merged_unnamed (hunique : Dict.Unique updates) (hnone : providerOf updates = none) :
    providerOf (mergeLoop base updates) = providerOf base ∨ providerOf (mergeLoop base updates) = none := by
  cases hlookup : updates.lookup "provider" with
  | none => exact .inl (providerOf_merged_none hunique hlookup)
  | some value =>
      have hfalsy : value.truthy = false := by
        rw [providerOf, hlookup, Option.filter_some] at hnone
        simpa using hnone
      rw [providerOf, providerOf, lookup_mergeLoop hunique, hlookup]
      rcases isDict_cases value with hleaf | ⟨inner, rfl⟩
      · rw [mergeAt_value hleaf, Option.filter_some, hfalsy]
        exact .inr rfl
      · have hempty : inner = [] := by simpa [Value.truthy] using hfalsy
        subst hempty
        by_cases hold : ∃ d, base.lookup "provider" = some (.dict d)
        · obtain ⟨d, hd⟩ := hold
          have hsame : mergeConfig d [] = d := by
            rw [mergeConfig]
            split
            · rename_i hother
              obtain ⟨_, _, _, hupdated, _⟩ := otherProvider_iff.mp hother
              cases hupdated
            · rfl
          rw [hd, mergeAt_dict, hsame]
          exact .inl rfl
        · rw [mergeAt_new (not_exists.mp hold), Option.filter_some, hfalsy]
          exact .inr rfl

/-- A provider that the updates name is named afterwards. -/
theorem providerOf_merged_named (hupdates : (Value.dict updates).WF) (hsame : otherProvider base updates = false)
    {provider : Value} (hnamed : providerOf updates = some provider) :
    Alike (providerOf (mergeLoop base updates)) (some provider) := by
  obtain ⟨hlookup, htruthy⟩ := providerOf_eq_some.mp hnamed
  have hmerged : Alike (mergeAt (base.lookup "provider") (some provider)) (some provider) := by
    rcases isDict_cases provider with hleaf | ⟨inner, rfl⟩
    · rw [mergeAt_value hleaf]
      exact Alike.refl _
    · by_cases hold : ∃ d, base.lookup "provider" = some (.dict d)
      · obtain ⟨d, hd⟩ := hold
        rw [hd, mergeAt_dict]
        have hinner := hupdates.lookup hlookup
        cases d with
        | nil => exact (absorbs_nil inner).alike hinner
        | cons e d =>
            have hcurrent : providerOf base = some (.dict (e :: d)) := providerOf_eq_some.mpr ⟨hd, rfl⟩
            refine mergeConfig_of_alike ?_ hinner
            by_contra hne
            have hother := otherProvider_iff.mpr ⟨_, _, hcurrent, hnamed, hne⟩
            rw [hsame] at hother
            cases hother
      · rw [mergeAt_new (not_exists.mp hold)]
        exact Alike.refl _
  rw [providerOf, lookup_mergeLoop hupdates.1, hlookup]
  cases hvalue : mergeAt (base.lookup "provider") (some provider) with
  | none =>
      rw [hvalue] at hmerged
      cases alike_none.mp hmerged.symm
  | some value =>
      rw [hvalue] at hmerged
      have hvalueTruthy : value.truthy = true := (Value.Equal.truthy hmerged).trans htruthy
      rw [Option.filter_some, if_pos hvalueTruthy]
      exact hmerged

/-- A section that differs from the updates in its provider differs from whatever they were merged into. -/
theorem otherProvider_merged_right (hupdates : (Value.dict updates).WF) (hsame : otherProvider overrides updates = false)
    (hother : otherProvider base updates = true) : otherProvider base (mergeLoop overrides updates) = true := by
  obtain ⟨_, provider, _, hnamed, _⟩ := otherProvider_iff.mp hother
  have halike := providerOf_merged_named hupdates hsame hnamed
  exact otherProvider_symm (otherProvider_of_alike (hnamed ▸ halike.symm) (otherProvider_symm hother))

theorem same_merged_left (hoverrides : (Value.dict overrides).WF) (hsame : otherProvider base overrides = false)
    (hbase : otherProvider base updates = false) (hkept : otherProvider overrides updates = false) :
    otherProvider (mergeLoop base overrides) updates = false := by
  refine Bool.eq_false_iff.mpr fun hother => ?_
  cases hnamed : providerOf overrides with
  | none =>
      rcases providerOf_merged_unnamed hoverrides.1 hnamed with heq | heq
      · have hbase' : otherProvider base updates = true := by
          refine otherProvider_of_alike ?_ hother
          rw [heq]
          exact Alike.refl _
        rw [hbase] at hbase'
        cases hbase'
      · obtain ⟨_, _, hcurrent, _⟩ := otherProvider_iff.mp hother
        rw [heq] at hcurrent
        cases hcurrent
  | some provider =>
      have halike := providerOf_merged_named hoverrides hsame hnamed
      have hkept' := otherProvider_of_alike (hnamed ▸ halike) hother
      rw [hkept] at hkept'
      cases hkept'

theorem same_merged_right (hupdates : (Value.dict updates).WF) (hsame : otherProvider overrides updates = false)
    (hbase : otherProvider base updates = false) (hkept : otherProvider base overrides = false) :
    otherProvider base (mergeLoop overrides updates) = false := by
  refine Bool.eq_false_iff.mpr fun hother => ?_
  have hsymm := otherProvider_symm hother
  have hback : ∀ {left right : Entries}, otherProvider left right = false → otherProvider right left = false :=
    fun hfalse => Bool.eq_false_iff.mpr fun htrue => by
      have := otherProvider_symm htrue
      rw [hfalse] at this
      cases this
  have hleft := @same_merged_left _ _ base hupdates hsame (hback hkept) (hback hbase)
  rw [hleft] at hsymm
  cases hsymm

/-! ## Putting updates together -/

theorem mergeConfig_other (h : otherProvider base updates = true) : mergeConfig base updates = updates := by
  rw [mergeConfig, if_pos h]

theorem mergeConfig_same (h : otherProvider base updates = false) :
    mergeConfig base updates = mergeLoop base updates := by
  rw [mergeConfig, h]
  rfl

/-- Merging the updates into the current configuration or into the overrides comes to the same. -/
theorem mergeConfig_assoc (h : Coherent base overrides updates) (hoverrides : (Value.dict overrides).WF)
    (hupdates : (Value.dict updates).WF) : Alike (some (.dict (mergeConfig (mergeConfig base overrides) updates)))
      (some (.dict (mergeConfig base (mergeConfig overrides updates)))) := by
  induction h with
  | @switched base overrides updates hother habsorbs =>
      have hleft : otherProvider (mergeConfig base overrides) updates = true := by
        cases hsame : otherProvider base overrides with
        | true => rwa [mergeConfig_other hsame]
        | false =>
            rw [mergeConfig_same hsame]
            obtain ⟨provider, _, hnamed, _⟩ := otherProvider_iff.mp hother
            have halike := providerOf_merged_named hoverrides hsame hnamed
            exact otherProvider_of_alike (hnamed ▸ halike.symm) hother
      rw [mergeConfig_other hleft, mergeConfig_other hother]
      exact (habsorbs.alike hupdates).symm
  | @overridden base overrides updates hsame hother hnamed =>
      have hright : otherProvider base (mergeLoop overrides updates) = true := by
        cases hlookup : updates.lookup "provider" with
        | none =>
            have heq := @providerOf_merged_none overrides _ hupdates.1 hlookup
            exact otherProvider_symm (otherProvider_of_alike (heq ▸ Alike.refl _) (otherProvider_symm hother))
        | some provider =>
            have hprovider := providerOf_eq_some.mpr ⟨hlookup, hnamed provider hlookup⟩
            have hbase : otherProvider base updates = true := by
              obtain ⟨current, overriding, hcurrent, hoverriding, hne⟩ := otherProvider_iff.mp hother
              refine otherProvider_iff.mpr ⟨current, provider, hcurrent, hprovider, fun heq => ?_⟩
              have hother' := otherProvider_iff.mpr ⟨overriding, provider, hoverriding, hprovider,
                fun heq' => hne (heq.trans heq'.symm)⟩
              rw [hsame] at hother'
              cases hother'
            exact otherProvider_merged_right hupdates hsame hbase
      rw [mergeConfig_other hother, mergeConfig_same hsame, mergeConfig_other hright]
      exact Alike.refl _
  | @replaced base overrides updates hother hnone habsorbs =>
      have hsame : ∀ other, otherProvider other overrides = false ∧ otherProvider overrides other = false := by
        have hprovider : providerOf overrides = none := by
          rw [providerOf, hnone]
          rfl
        intro other
        constructor
        · refine Bool.eq_false_iff.mpr fun htrue => ?_
          obtain ⟨_, _, _, hnamed, _⟩ := otherProvider_iff.mp htrue
          rw [hprovider] at hnamed
          cases hnamed
        · refine Bool.eq_false_iff.mpr fun htrue => ?_
          obtain ⟨_, _, hnamed, _⟩ := otherProvider_iff.mp htrue
          rw [hprovider] at hnamed
          cases hnamed
      have heq := @providerOf_merged_none base _ hoverrides.1 hnone
      have hleft : otherProvider (mergeLoop base overrides) updates = true :=
        otherProvider_of_alike (heq ▸ Alike.refl _) hother
      have hright := otherProvider_merged_right hupdates (hsame updates).2 hother
      have halike := habsorbs.alike hupdates
      rw [mergeConfig_same (hsame updates).2] at halike
      rw [mergeConfig_same (hsame base).1, mergeConfig_other hleft, mergeConfig_same (hsame updates).2,
        mergeConfig_other hright]
      exact halike.symm
  | @merged base overrides updates hkept hsame hbase hsections hvalues ih =>
      have hunique := (mergeLoop_wf hoverrides hupdates.2).1
      rw [mergeConfig_same hsame, mergeConfig_same (same_merged_left hoverrides hsame hbase hkept),
        mergeConfig_same hkept, mergeConfig_same (same_merged_right hupdates hkept hbase hsame)]
      refine alike_dict.mpr fun key => ?_
      rw [lookup_mergeLoop hupdates.1, lookup_mergeLoop hoverrides.1, lookup_mergeLoop hunique,
        lookup_mergeLoop hupdates.1]
      cases hvalue : updates.lookup key with
      | none => exact Alike.refl _
      | some value => cases hold : overrides.lookup key with
        | none =>
            have hnew : mergeAt none (some value) = some value := mergeAt_new (by simp)
            rw [hnew]
            exact Alike.refl _
        | some old =>
            rcases isDict_cases value with hleaf | ⟨inner, rfl⟩
            · rw [mergeAt_value hleaf, mergeAt_value hleaf, mergeAt_value hleaf]
              exact Alike.refl _
            · rcases isDict_cases old with hleaf | ⟨oldInner, rfl⟩
              · rw [mergeAt_value hleaf, mergeAt_new (not_dict_of_isDict hleaf)]
                by_cases hdefault : ∃ d, base.lookup key = some (.dict d)
                · obtain ⟨d, hd⟩ := hdefault
                  rw [hd, mergeAt_dict]
                  exact ((hvalues key d old inner hd hold hleaf hvalue).alike (hupdates.lookup hvalue)).symm
                · rw [mergeAt_new (not_exists.mp hdefault)]
                  exact Alike.refl _
              · rw [mergeAt_dict]
                by_cases hdefault : ∃ d, base.lookup key = some (.dict d)
                · obtain ⟨d, hd⟩ := hdefault
                  rw [hd, mergeAt_dict, mergeAt_dict, mergeAt_dict]
                  exact ih key d oldInner inner hd hold hvalue (hoverrides.lookup hold) (hupdates.lookup hvalue)
                · rw [mergeAt_new (not_exists.mp hdefault), mergeAt_new (not_exists.mp hdefault), mergeAt_dict]
                  exact Alike.refl _

end

end YiQiao
