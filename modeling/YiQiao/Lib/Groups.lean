import YiQiao.Lib.Dict
import YiQiao.Lib.Fallible

/-!
# Grouped folds

A loop that keeps one bucket for each key. What it does to a bucket depends on the events of that key alone.
-/

namespace YiQiao.Lib

open Fallible

variable {ε κ α β : Type} [DecidableEq κ]

/-- The events of a key, in order. -/
def ofKey (key : κ) (events : List (κ × α)) : List α := (events.filter fun e => e.1 = key).map Prod.snd

/-- One event is added to the bucket of its key, which begins empty. -/
def addTo (add : β → α → Except ε β) (empty : β) (buckets : List (κ × β)) (e : κ × α) :
    Except ε (List (κ × β)) := do
  let bucket ← add ((buckets.lookup e.1).getD empty) e.2
  .ok (Dict.set e.1 bucket buckets)

section

variable {add : β → α → Except ε β} {empty : β} {key : κ} {e : κ × α} {events : List (κ × α)}
  {buckets buckets' : List (κ × β)}

theorem ofKey_cons_self {a : α} : ofKey key ((key, a) :: events) = a :: ofKey key events := by
  simp [ofKey]

theorem ofKey_cons_of_ne {k : κ} {a : α} (h : k ≠ key) : ofKey key ((k, a) :: events) = ofKey key events := by
  simp [ofKey, h]

theorem ofKey_append (events' : List (κ × α)) :
    ofKey key (events ++ events') = ofKey key events ++ ofKey key events' := by
  simp [ofKey]

theorem addTo_ok : addTo add empty buckets e = .ok buckets' ↔
    ∃ bucket, add ((buckets.lookup e.1).getD empty) e.2 = .ok bucket ∧ Dict.set e.1 bucket buckets = buckets' := by
  rw [addTo, bind_ok]
  simp

/-- The bucket of a key is the fold of the key's events. -/
theorem bucket_foldlM (h : events.foldlM (addTo add empty) buckets = .ok buckets') (key : κ) :
    (ofKey key events).foldlM add ((buckets.lookup key).getD empty) = .ok ((buckets'.lookup key).getD empty) := by
  induction events generalizing buckets with
  | nil =>
      rw [List.foldlM_nil, pure_ok] at h
      subst h
      rfl
  | cons e events ih =>
      obtain ⟨k, a⟩ := e
      rw [List.foldlM_cons, bind_ok] at h
      obtain ⟨next, hadd, hrest⟩ := h
      obtain ⟨bucket, hbucket, rfl⟩ := addTo_ok.mp hadd
      have hih := ih hrest
      by_cases hkey : k = key
      · subst hkey
        rw [Dict.lookup_set_self, Option.getD_some] at hih
        rw [ofKey_cons_self, List.foldlM_cons, hbucket]
        exact hih
      · rw [Dict.lookup_set_of_ne (Ne.symm hkey)] at hih
        rwa [ofKey_cons_of_ne hkey]

/-- The keys are those of the events. -/
theorem keys_foldlM (h : events.foldlM (addTo add empty) buckets = .ok buckets') (key : κ) :
    key ∈ buckets'.map Prod.fst ↔ key ∈ buckets.map Prod.fst ∨ ofKey key events ≠ [] := by
  induction events generalizing buckets with
  | nil =>
      rw [List.foldlM_nil, pure_ok] at h
      subst h
      simp [ofKey]
  | cons e events ih =>
      obtain ⟨k, a⟩ := e
      rw [List.foldlM_cons, bind_ok] at h
      obtain ⟨next, hadd, hrest⟩ := h
      obtain ⟨bucket, hbucket, rfl⟩ := addTo_ok.mp hadd
      rw [ih hrest, Dict.keys_set]
      by_cases hkey : k = key
      · subst hkey
        rw [ofKey_cons_self]
        split
        · rename_i hmem
          simp [hmem]
        · simp
      · have hkey' : key ≠ k := Ne.symm hkey
        rw [ofKey_cons_of_ne hkey]
        split
        · rfl
        · simp [hkey']

theorem unique_foldlM (h : events.foldlM (addTo add empty) buckets = .ok buckets') (hbuckets : Dict.Unique buckets) :
    Dict.Unique buckets' := by
  induction events generalizing buckets with
  | nil =>
      rw [List.foldlM_nil, pure_ok] at h
      exact h ▸ hbuckets
  | cons e events ih =>
      rw [List.foldlM_cons, bind_ok] at h
      obtain ⟨next, hadd, hrest⟩ := h
      obtain ⟨bucket, _, rfl⟩ := addTo_ok.mp hadd
      exact ih hrest (hbuckets.set e.1 bucket)

/-- The loop succeeds exactly when it succeeds on the events of every key. -/
theorem foldlM_addTo_total : (∃ buckets', events.foldlM (addTo add empty) buckets = .ok buckets') ↔
    ∀ key, ∃ bucket, (ofKey key events).foldlM add ((buckets.lookup key).getD empty) = .ok bucket := by
  constructor
  · rintro ⟨buckets', h⟩ key
    exact ⟨_, bucket_foldlM h key⟩
  · intro h
    induction events generalizing buckets with
    | nil => exact ⟨buckets, rfl⟩
    | cons e events ih =>
        obtain ⟨k, a⟩ := e
        obtain ⟨last, hlast⟩ := h k
        rw [ofKey_cons_self, List.foldlM_cons, bind_ok] at hlast
        obtain ⟨bucket, hbucket, hrest⟩ := hlast
        have hnext : ∀ key, ∃ b, (ofKey key events).foldlM add
            (((Dict.set k bucket buckets).lookup key).getD empty) = .ok b := by
          intro key
          by_cases hkey : k = key
          · subst hkey
            rw [Dict.lookup_set_self, Option.getD_some]
            exact ⟨last, hrest⟩
          · rw [Dict.lookup_set_of_ne (Ne.symm hkey)]
            rw [← @ofKey_cons_of_ne κ α _ key events k a hkey]
            exact h key
        obtain ⟨buckets', hbuckets'⟩ := ih hnext
        refine ⟨buckets', ?_⟩
        rw [List.foldlM_cons, addTo_ok.mpr ⟨bucket, hbucket, rfl⟩]
        exact hbuckets'

/-- Of a loop that begins with no bucket. -/
theorem groups_total : (∃ groups, events.foldlM (addTo add empty) [] = .ok groups) ↔
    ∀ key, ∃ bucket, (ofKey key events).foldlM add empty = .ok bucket := foldlM_addTo_total

theorem mem_groups {groups : List (κ × β)} (h : events.foldlM (addTo add empty) [] = .ok groups) {bucket : β} :
    (key, bucket) ∈ groups ↔ ofKey key events ≠ [] ∧ (ofKey key events).foldlM add empty = .ok bucket := by
  have hunique : Dict.Unique groups := unique_foldlM h List.nodup_nil
  have hkeys : key ∈ groups.map Prod.fst ↔ ofKey key events ≠ [] := by
    rw [keys_foldlM h key]
    simp
  have hfold : ∀ b, (key, b) ∈ groups → (ofKey key events).foldlM add empty = .ok b := by
    intro b hb
    have hbucket := bucket_foldlM h key
    rwa [(Dict.mem_iff_lookup hunique).mp hb] at hbucket
  constructor
  · intro hmem
    exact ⟨hkeys.mp (List.mem_map_of_mem hmem), hfold bucket hmem⟩
  · rintro ⟨hne, hbucket⟩
    obtain ⟨⟨k, b⟩, hmem, rfl⟩ := List.mem_map.mp (hkeys.mpr hne)
    have hb := hfold b hmem
    rw [hbucket] at hb
    cases hb
    exact hmem

theorem groups_unique {groups : List (κ × β)} (h : events.foldlM (addTo add empty) [] = .ok groups) :
    Dict.Unique groups := unique_foldlM h List.nodup_nil

end

end YiQiao.Lib
