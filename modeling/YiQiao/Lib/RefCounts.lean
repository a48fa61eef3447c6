import Mathlib.Data.List.Count
import Mathlib.Data.List.Nodup
import Mathlib.Logic.Function.Basic

/-!
# Reference counts

A registry has an object for each key that is in use, and counts the uses. Between the making of an object and its first
use, and between the last use and the removal, one entry may be there without any: it is loose.
-/

namespace YiQiao.Lib

/-- Who uses the object of a key. -/
structure Use (τ κ ο : Type) where
  who : τ
  key : κ
  object : ο
  deriving DecidableEq, Repr

variable {τ κ ο : Type} [DecidableEq κ]

def usesOf (key : κ) (uses : List (Use τ κ ο)) : Nat := uses.countP fun use => use.key = key

/-- The entries are those of the keys in use, each with the number of its uses, and the loose one. -/
structure Tracks (loose : Option κ) (entries : κ → Option (ο × Nat)) (uses : List (Use τ κ ο)) : Prop where
  counted : ∀ key object n, entries key = some (object, n) → n = usesOf key uses ∧ (0 < n ∨ loose = some key)
  kept : ∀ use ∈ uses, ∃ n, entries use.key = some (use.object, n)

section

variable {loose : Option κ} {entries : κ → Option (ο × Nat)} {uses : List (Use τ κ ο)} {key : κ} {object : ο} {n : Nat}

theorem usesOf_pos : 0 < usesOf key uses ↔ ∃ use ∈ uses, use.key = key := by
  simp [usesOf, List.countP_pos_iff]

theorem usesOf_cons (use : Use τ κ ο) :
    usesOf key (use :: uses) = usesOf key uses + if use.key = key then 1 else 0 := by
  simp [usesOf, List.countP_cons]

theorem Tracks.empty : Tracks none (fun _ => none) ([] : List (Use τ κ ο)) where
  counted := by simp
  kept := by simp

/-- Uses of one key have one object. -/
theorem Tracks.object_eq (h : Tracks loose entries uses) {use use' : Use τ κ ο} (huse : use ∈ uses)
    (huse' : use' ∈ uses) (hkey : use.key = use'.key) : use.object = use'.object := by
  obtain ⟨n, hn⟩ := h.kept use huse
  obtain ⟨n', hn'⟩ := h.kept use' huse'
  rw [hkey, hn'] at hn
  exact (Prod.ext_iff.mp (Option.some.inj hn)).1.symm

/-- Without a loose entry the keys with entries are those in use. -/
theorem Tracks.present_iff (h : Tracks none entries uses) :
    (entries key).isSome = true ↔ ∃ use ∈ uses, use.key = key := by
  constructor
  · intro hsome
    obtain ⟨⟨object, n⟩, hentry⟩ := Option.isSome_iff_exists.mp hsome
    obtain ⟨hn, hpos⟩ := h.counted key object n hentry
    rw [← usesOf_pos, ← hn]
    simpa using hpos
  · rintro ⟨use, huse, rfl⟩
    obtain ⟨n, hn⟩ := h.kept use huse
    simp [hn]

theorem Tracks.absent (h : Tracks loose entries uses) (hnone : entries key = none) {use : Use τ κ ο}
    (huse : use ∈ uses) : use.key ≠ key := by
  rintro rfl
  obtain ⟨n, hn⟩ := h.kept use huse
  rw [hnone] at hn
  cases hn

/-- A key without an entry gets a new one, which is loose. -/
theorem Tracks.create (h : Tracks none entries uses) (hnone : entries key = none) (object : ο) :
    Tracks (some key) (Function.update entries key (some (object, 0))) uses where
  counted := by
    intro other object' n hentry
    by_cases hother : other = key
    · subst hother
      simp at hentry
      obtain ⟨rfl, rfl⟩ := hentry
      refine ⟨?_, .inr rfl⟩
      apply Eq.symm
      apply Nat.eq_zero_of_not_pos
      intro hpos
      obtain ⟨use, huse, hkey⟩ := usesOf_pos.mp hpos
      exact h.absent hnone huse hkey
    · rw [Function.update_of_ne hother] at hentry
      obtain ⟨hn, hpos⟩ := h.counted other object' n hentry
      exact ⟨hn, .inl (by simpa using hpos)⟩
  kept := by
    intro use huse
    rw [Function.update_of_ne (h.absent hnone huse)]
    exact h.kept use huse

/-- A loose key may be any other one. -/
theorem Tracks.loosen (h : Tracks none entries uses) : Tracks loose entries uses where
  counted := by
    intro other object' n hentry
    obtain ⟨hn, hpos⟩ := h.counted other object' n hentry
    exact ⟨hn, .inl (by simpa using hpos)⟩
  kept := h.kept

/-- One more use of an entry, which is not loose then. -/
theorem Tracks.begin (h : Tracks (some key) entries uses) (hentry : entries key = some (object, n)) (who : τ) :
    Tracks none (Function.update entries key (some (object, n + 1))) (⟨who, key, object⟩ :: uses) where
  counted := by
    intro other object' m hother
    rw [usesOf_cons]
    by_cases heq : other = key
    · subst heq
      simp at hother
      obtain ⟨rfl, rfl⟩ := hother
      obtain ⟨hn, -⟩ := h.counted other object n hentry
      simp [hn]
    · rw [Function.update_of_ne heq] at hother
      obtain ⟨hm, hpos⟩ := h.counted other object' m hother
      rw [if_neg (Ne.symm heq)]
      exact ⟨hm, .inl (hpos.resolve_right fun hloose => heq (Option.some.inj hloose).symm)⟩
  kept := by
    intro use huse
    rcases List.mem_cons.mp huse with rfl | huse
    · exact ⟨n + 1, by simp⟩
    · by_cases heq : use.key = key
      · obtain ⟨m, hm⟩ := h.kept use huse
        rw [heq, hentry] at hm
        cases hm
        exact ⟨n + 1, by rw [heq, Function.update_self]⟩
      · rw [Function.update_of_ne heq]
        exact h.kept use huse

/-- One use less, after which the entry may be loose. -/
theorem Tracks.finish [DecidableEq τ] [DecidableEq ο] (h : Tracks none entries uses) {use : Use τ κ ο}
    (huse : use ∈ uses) (hentry : entries use.key = some (object, n)) :
    Tracks (some use.key) (Function.update entries use.key (some (object, n - 1))) (uses.erase use) where
  counted := by
    intro other object' m hother
    have herase : usesOf other (uses.erase use) = usesOf other uses - if use.key = other then 1 else 0 := by
      simp [usesOf, List.countP_erase, huse]
    rw [herase]
    by_cases heq : other = use.key
    · subst heq
      simp at hother
      obtain ⟨rfl, rfl⟩ := hother
      obtain ⟨hn, -⟩ := h.counted use.key object n hentry
      simp [hn]
    · rw [Function.update_of_ne heq] at hother
      obtain ⟨hm, hpos⟩ := h.counted other object' m hother
      rw [if_neg (Ne.symm heq)]
      exact ⟨hm, .inl (by simpa using hpos)⟩
  kept := by
    intro other hother
    obtain ⟨m, hm⟩ := h.kept other (List.mem_of_mem_erase hother)
    by_cases heq : other.key = use.key
    · rw [heq, hentry] at hm
      cases hm
      exact ⟨n - 1, by rw [heq, Function.update_self]⟩
    · rw [Function.update_of_ne heq]
      exact ⟨m, hm⟩

/-- A loose entry without a use is removed. -/
theorem Tracks.remove (h : Tracks (some key) entries uses) (hentry : entries key = some (object, 0)) :
    Tracks none (Function.update entries key none) uses where
  counted := by
    intro other object' m hother
    by_cases heq : other = key
    · subst heq
      simp at hother
    · rw [Function.update_of_ne heq] at hother
      obtain ⟨hm, hpos⟩ := h.counted other object' m hother
      exact ⟨hm, .inl (hpos.resolve_right fun hloose => heq (Option.some.inj hloose).symm)⟩
  kept := by
    intro use huse
    have hne : use.key ≠ key := by
      intro hkey
      obtain ⟨hzero, -⟩ := h.counted key object 0 hentry
      exact absurd (usesOf_pos.mpr ⟨use, huse, hkey⟩) (by omega)
    rw [Function.update_of_ne hne]
    exact h.kept use huse

/-- An entry with a use is not loose. -/
theorem Tracks.settle (h : Tracks (some key) entries uses) (hentry : entries key = some (object, n)) (hn : n ≠ 0) :
    Tracks none entries uses where
  counted := by
    intro other object' m hother
    obtain ⟨hm, hpos⟩ := h.counted other object' m hother
    refine ⟨hm, .inl (hpos.elim id fun hloose => ?_)⟩
    obtain rfl := Option.some.inj hloose
    rw [hentry] at hother
    cases hother
    exact Nat.pos_of_ne_zero hn
  kept := h.kept

end

end YiQiao.Lib
