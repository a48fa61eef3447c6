import Mathlib.Data.List.Perm.Basic
import Mathlib.Data.List.Nodup
import Mathlib.Data.List.Induction

/-!
# Insertion-ordered dictionaries

A dictionary is the list of its entries in insertion order. `set` replaces the value of a key where
the key already stands and appends it otherwise, so a key keeps its position when it is assigned
again. Reading is `List.lookup`.
-/

namespace YiQiao.Lib.Dict

variable {κ ν : Type} [DecidableEq κ]

/-- `d[k] = v`. -/
def set (k : κ) (v : ν) : List (κ × ν) → List (κ × ν)
  | [] => [(k, v)]
  | (k', w) :: d => if k' = k then (k', v) :: d else (k', w) :: set k v d

/-- `d.pop(k, None)`. -/
def erase (k : κ) (d : List (κ × ν)) : List (κ × ν) :=
  d.filter fun e => e.1 ≠ k

/-- `d.update(e)`: the entries of `e` are assigned one after the other. -/
def update (d e : List (κ × ν)) : List (κ × ν) :=
  e.foldl (fun d kv => set kv.1 kv.2 d) d

/-- No key stands twice. -/
def Unique (d : List (κ × ν)) : Prop := (d.map Prod.fst).Nodup

/-! ## Reading after a write -/

@[simp] theorem lookup_set_self (k : κ) (v : ν) (d : List (κ × ν)) :
    (set k v d).lookup k = some v := by
  induction d with
  | nil => simp [set]
  | cons e d ih =>
      obtain ⟨k', w⟩ := e
      by_cases h : k' = k
      · simp [set, h]
      · have hb : (k == k') = false := by simpa using fun he : k = k' => h he.symm
        simp [set, h, List.lookup_cons, hb, ih]

theorem lookup_set_of_ne {k k' : κ} (h : k' ≠ k) (v : ν) (d : List (κ × ν)) :
    (set k v d).lookup k' = d.lookup k' := by
  induction d with
  | nil => simp [set, h]
  | cons e d ih =>
      obtain ⟨k₀, w⟩ := e
      by_cases h₀ : k₀ = k
      · subst h₀
        have hb : (k' == k₀) = false := by simpa using h
        simp [set, List.lookup_cons, hb]
      · simp only [set, h₀, ↓reduceIte, List.lookup_cons, ih]

theorem lookup_set (k k' : κ) (v : ν) (d : List (κ × ν)) :
    (set k v d).lookup k' = if k' = k then some v else d.lookup k' := by
  by_cases h : k' = k
  · simp [h]
  · simp [h, lookup_set_of_ne h]

@[simp] theorem lookup_erase_self (k : κ) (d : List (κ × ν)) : (erase k d).lookup k = none := by
  rw [List.lookup_eq_none_iff]
  intro p hp
  simp only [erase, List.mem_filter, decide_eq_true_eq] at hp
  simpa using fun h : k = p.1 => hp.2 h.symm

theorem lookup_erase_of_ne {k k' : κ} (h : k' ≠ k) (d : List (κ × ν)) :
    (erase k d).lookup k' = d.lookup k' := by
  induction d with
  | nil => rfl
  | cons e d ih =>
      obtain ⟨k₀, w⟩ := e
      unfold erase at ih ⊢
      by_cases h₀ : k₀ = k
      · subst h₀
        have hb : (k' == k₀) = false := by simpa using h
        rw [List.filter_cons_of_neg (by simp), ih, List.lookup_cons, hb]
      · rw [List.filter_cons_of_pos (by simpa using h₀), List.lookup_cons, List.lookup_cons, ih]

theorem lookup_erase (k k' : κ) (d : List (κ × ν)) :
    (erase k d).lookup k' = if k' = k then none else d.lookup k' := by
  by_cases h : k' = k
  · simp [h]
  · simp [h, lookup_erase_of_ne h]

/-! ## Keys -/

theorem lookup_isSome_of_mem {d : List (κ × ν)} {e : κ × ν} (h : e ∈ d) :
    (d.lookup e.1).isSome := by
  rw [List.lookup_isSome_iff]
  exact ⟨e, h, by simp⟩

theorem mem_of_lookup {d : List (κ × ν)} {k : κ} {v : ν} (h : d.lookup k = some v) : (k, v) ∈ d := by
  obtain ⟨l₁, l₂, rfl, _⟩ := List.lookup_eq_some_iff.mp h
  simp

theorem lookup_eq_none_iff_keys {d : List (κ × ν)} {k : κ} :
    d.lookup k = none ↔ k ∉ d.map Prod.fst := by
  rw [List.lookup_eq_none_iff]
  constructor
  · intro h hk
    obtain ⟨e, he, rfl⟩ := List.mem_map.mp hk
    simpa using h e he
  · intro h p hp
    simpa using fun he : k = p.1 => h (List.mem_map.mpr ⟨p, hp, he.symm⟩)

/-- Elements without an entry for the key can be left out. -/
theorem lookup_filterMap_filter {α : Type} {g : α → Option (κ × ν)} {q : α → Bool} {k : κ} {l : List α}
    (h : ∀ a ∈ l, ∀ v, g a = some (k, v) → q a = true) :
    ((l.filter q).filterMap g).lookup k = (l.filterMap g).lookup k := by
  induction l with
  | nil => rfl
  | cons a l ih =>
      have hrest := ih fun b hb => h b (List.mem_cons_of_mem _ hb)
      cases hg : g a with
      | none => by_cases hq : q a = true <;> simp [hg, hq, hrest]
      | some e =>
          obtain ⟨k', v⟩ := e
          by_cases hq : q a = true
          · simp [hg, hq, List.lookup_cons, hrest]
          · have hk : (k == k') = false := by
              simpa using fun he : k = k' => hq (h a List.mem_cons_self v (he ▸ hg))
            simp [hg, hq, List.lookup_cons, hk, hrest]

theorem mem_iff_lookup {d : List (κ × ν)} (hd : Unique d) {k : κ} {v : ν} :
    (k, v) ∈ d ↔ d.lookup k = some v := by
  refine ⟨fun h => ?_, mem_of_lookup⟩
  induction d with
  | nil => simp at h
  | cons e d ih =>
      obtain ⟨k₀, w⟩ := e
      simp only [Unique, List.map_cons, List.nodup_cons] at hd
      rcases List.mem_cons.mp h with he | h
      · cases he; simp
      · have hk : k ∈ d.map Prod.fst := List.mem_map.mpr ⟨_, h, rfl⟩
        have hb : (k == k₀) = false := by
          simpa using fun he : k = k₀ => hd.1 (he ▸ hk)
        simpa [List.lookup_cons, hb] using ih hd.2 h

theorem keys_set (k : κ) (v : ν) (d : List (κ × ν)) :
    (set k v d).map Prod.fst = if k ∈ d.map Prod.fst then d.map Prod.fst else d.map Prod.fst ++ [k] := by
  induction d with
  | nil => simp [set]
  | cons e d ih =>
      obtain ⟨k₀, w⟩ := e
      by_cases h : k₀ = k
      · simp [set, h]
      · simp only [set, h, ↓reduceIte, List.map_cons, ih, List.mem_cons]
        have h' : k ≠ k₀ := fun he => h he.symm
        by_cases hm : k ∈ d.map Prod.fst <;> simp [hm, h']

theorem mem_set {k : κ} {v : ν} {d : List (κ × ν)} {e : κ × ν} (h : e ∈ set k v d) :
    e = (k, v) ∨ e ∈ d := by
  induction d with
  | nil => exact .inl (List.mem_singleton.mp h)
  | cons e' d ih =>
      rw [set] at h
      split at h
      · rename_i hk
        rcases List.mem_cons.mp h with rfl | h
        · exact .inl (by rw [hk])
        · exact .inr (List.mem_cons_of_mem _ h)
      · rcases List.mem_cons.mp h with rfl | h
        · exact .inr List.mem_cons_self
        · exact (ih h).imp_right (List.mem_cons_of_mem _)

theorem mem_set_of_ne {k : κ} {v : ν} {d : List (κ × ν)} {e : κ × ν} (hkey : e.1 ≠ k) :
    e ∈ set k v d ↔ e ∈ d := by
  refine ⟨fun h => (mem_set h).resolve_left fun he => hkey (by rw [he]), fun h => ?_⟩
  induction d with
  | nil => cases h
  | cons e' d ih =>
      rw [set]
      split
      · rename_i hk
        rcases List.mem_cons.mp h with rfl | h
        · exact absurd hk hkey
        · exact List.mem_cons_of_mem _ h
      · rcases List.mem_cons.mp h with rfl | h
        · exact List.mem_cons_self
        · exact List.mem_cons_of_mem _ (ih h)

/-- What is read off the entries of other keys does not see an assignment. -/
theorem flatMap_set {β : Type} {g : κ × ν → List β} {k : κ} (hg : ∀ v, g (k, v) = []) (v : ν)
    (d : List (κ × ν)) : (set k v d).flatMap g = d.flatMap g := by
  induction d with
  | nil => simp [set, hg]
  | cons e d ih =>
      obtain ⟨k', w⟩ := e
      rw [set]
      split
      · rename_i hk
        subst hk
        simp only [List.flatMap_cons, hg]
      · rw [List.flatMap_cons, List.flatMap_cons, ih]

/-- Assigning a key its own value changes nothing. -/
theorem set_of_lookup {k : κ} {v : ν} {d : List (κ × ν)} (h : d.lookup k = some v) : set k v d = d := by
  induction d with
  | nil => cases h
  | cons e d ih =>
      obtain ⟨k', w⟩ := e
      rw [set]
      split
      · rename_i hk
        subst hk
        simp only [List.lookup_cons, beq_self_eq_true, Option.some.injEq] at h
        rw [h]
      · rename_i hk
        have hb : (k == k') = false := by simpa using fun he : k = k' => hk he.symm
        rw [List.lookup_cons, hb] at h
        rw [ih h]

/-- A new key is appended. -/
theorem set_of_notMem {k : κ} {d : List (κ × ν)} (h : k ∉ d.map Prod.fst) (v : ν) :
    set k v d = d ++ [(k, v)] := by
  induction d with
  | nil => rfl
  | cons e d ih =>
      simp only [List.map_cons, List.mem_cons, not_or] at h
      rw [set, if_neg fun he => h.1 he.symm, ih h.2, List.cons_append]

/-- A key that stands in its place is assigned there. -/
theorem set_of_mem {k : κ} {d : List (κ × ν)} (hd : Unique d) (h : k ∈ d.map Prod.fst) (v : ν) :
    set k v d = d.map fun e => if e.1 = k then (k, v) else e := by
  induction d with
  | nil => cases h
  | cons e d ih =>
      obtain ⟨k', w⟩ := e
      simp only [Unique, List.map_cons, List.nodup_cons] at hd
      rw [set, List.map_cons]
      split
      · rename_i hk
        subst hk
        congr 1
        refine (List.map_id d).symm.trans (List.map_congr_left fun e he => ?_)
        refine (if_neg ?_).symm
        rintro rfl
        exact hd.1 (List.mem_map_of_mem he)
      · rename_i hk
        rcases List.mem_cons.mp h with rfl | h
        · exact absurd rfl hk
        · rw [ih hd.2 h]

theorem Unique.set {d : List (κ × ν)} (hd : Unique d) (k : κ) (v : ν) : Unique (set k v d) := by
  unfold Unique
  rw [keys_set]
  by_cases h : k ∈ d.map Prod.fst
  · rwa [if_pos h]
  · rw [if_neg h]
    exact List.Nodup.append hd (List.nodup_singleton k) (by simpa [List.disjoint_singleton] using h)

theorem Unique.erase {d : List (κ × ν)} (hd : Unique d) (k : κ) : Unique (erase k d) :=
  hd.sublist (List.filter_sublist.map _)

theorem Unique.update {d : List (κ × ν)} (hd : Unique d) (e : List (κ × ν)) : Unique (update d e) := by
  induction e generalizing d with
  | nil => exact hd
  | cons kv e ih => exact ih (hd.set _ _)

omit [DecidableEq κ] in
theorem Unique.notMem_of_append {d e : List (κ × ν)} {k : κ} {v : ν}
    (h : Unique (d ++ (k, v) :: e)) : k ∉ d.map Prod.fst := by
  intro hk
  rw [Unique, List.map_append, List.map_cons, List.nodup_append] at h
  exact h.2.2 k hk k List.mem_cons_self rfl

theorem lookup_update (d : List (κ × ν)) {e : List (κ × ν)} (he : Unique e) (k : κ) :
    (update d e).lookup k = (e.lookup k).or (d.lookup k) := by
  induction e generalizing d with
  | nil => simp [update]
  | cons kv e ih =>
      obtain ⟨k₀, v⟩ := kv
      simp only [Unique, List.map_cons, List.nodup_cons] at he
      have hstep : update d ((k₀, v) :: e) = update (Dict.set k₀ v d) e := rfl
      rw [hstep, ih _ he.2, lookup_set, List.lookup_cons]
      by_cases hk : k = k₀
      · subst hk
        simp [lookup_eq_none_iff_keys.mpr he.1]
      · have hb : (k == k₀) = false := by simpa using hk
        simp [hk, hb]

/-- What is written under a key is one of the values that it was written with. -/
theorem lookup_update_mem (d : List (κ × ν)) {e : List (κ × ν)} {k : κ} (h : k ∈ e.map Prod.fst) :
    ∃ v, (k, v) ∈ e ∧ (update d e).lookup k = some v := by
  induction e using List.reverseRecOn with
  | nil => cases h
  | append_singleton e kv ih =>
      have hlast : update d (e ++ [kv]) = Dict.set kv.1 kv.2 (update d e) := by simp [update]
      rw [hlast, lookup_set]
      by_cases hk : k = kv.1
      · subst hk
        exact ⟨kv.2, by simp, by simp⟩
      · have hmem : k ∈ e.map Prod.fst := by simpa [hk] using h
        obtain ⟨v, hv, hlookup⟩ := ih hmem
        exact ⟨v, List.mem_append_left _ hv, by simp [hk, hlookup]⟩

/-- New keys are appended in their order. -/
theorem update_of_fresh {d e : List (κ × ν)} (h : Unique (d ++ e)) : update d e = d ++ e := by
  induction e generalizing d with
  | nil => exact (List.append_nil d).symm
  | cons kv e ih =>
      have hstep : update d (kv :: e) = update (Dict.set kv.1 kv.2 d) e := rfl
      have hfresh : kv.1 ∉ d.map Prod.fst := h.notMem_of_append
      rw [hstep, set_of_notMem hfresh, ih (by rwa [← List.append_cons]), ← List.append_cons]

/-- Two dictionaries that read alike hold the same entries in some order. -/
theorem perm_of_lookup_eq {d e : List (κ × ν)} (hd : Unique d) (he : Unique e)
    (h : ∀ k, d.lookup k = e.lookup k) : d.Perm e := by
  refine (List.perm_ext_iff_of_nodup (List.Nodup.of_map _ hd) (List.Nodup.of_map _ he)).mpr ?_
  rintro ⟨k, v⟩
  rw [mem_iff_lookup hd, mem_iff_lookup he, h]

end YiQiao.Lib.Dict
