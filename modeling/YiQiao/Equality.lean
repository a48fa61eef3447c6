import Mathlib.Algebra.Field.Rat
import Mathlib.Tactic.NormNum
import YiQiao.Value

/-!
# Equality of values

Python compares numbers by what they are worth, booleans among them, lists item by item, and dictionaries by their
keys whatever the order. Two values are equal when the same stands at every place inside them.
-/

namespace YiQiao

open Lib

/-- One step into a value. -/
inductive Hop where
  | key (key : String)
  | index (i : Nat)
  deriving DecidableEq

/-- What stands at a place, without what is inside it. -/
inductive Head where
  | null
  | number (q : ℚ)
  | str (s : String)
  | list (length : Nat)
  | dict (empty : Bool)
  deriving DecidableEq

def Value.head : Value → Head
  | .null => .null
  | .bool b => .number (if b then 1 else 0)
  | .num m s => .number (m / 10 ^ s)
  | .str s => .str s
  | .list xs => .list xs.length
  | .dict d => .dict d.isEmpty

def Value.at : List Hop → Value → Option Head
  | [], v => some v.head
  | .key key :: path, .dict d => (d.lookup key).bind (Value.at path)
  | .index i :: path, .list xs => xs[i]?.bind (Value.at path)
  | _ :: _, _ => none

/-- Two places hold the same, or nothing both of them. -/
def Alike (a b : Option Value) : Prop := ∀ path, a.bind (Value.at path) = b.bind (Value.at path)

/-- `left == right`. -/
def Value.Equal (v w : Value) : Prop := Alike (some v) (some w)

/-! ## Deciding equality -/

mutual
/-- The places inside the value. -/
def Value.places : Value → List (List Hop)
  | .list xs => [] :: Value.placesFrom 0 xs
  | .dict d => [] :: Value.placesOf d
  | _ => [[]]

def Value.placesFrom (i : Nat) : List Value → List (List Hop)
  | [] => []
  | v :: vs => v.places.map (.index i :: ·) ++ Value.placesFrom (i + 1) vs

def Value.placesOf : List (String × Value) → List (List Hop)
  | [] => []
  | (key, v) :: d => v.places.map (.key key :: ·) ++ Value.placesOf d
end

theorem nil_mem_places (v : Value) : [] ∈ v.places := by
  cases v <;> simp [Value.places]

theorem mem_placesFrom {xs : List Value} {i j : Nat} {v : Value} {path : List Hop} (hv : xs[j]? = some v)
    (hpath : path ∈ v.places) : .index (i + j) :: path ∈ Value.placesFrom i xs := by
  induction xs generalizing i j with
  | nil => simp at hv
  | cons w ws ih =>
      rw [Value.placesFrom]
      cases j with
      | zero =>
          cases hv
          exact List.mem_append_left _ (List.mem_map_of_mem hpath)
      | succ j =>
          have hrest := ih (i := i + 1) hv
          rw [Nat.add_assoc, Nat.add_comm 1 j] at hrest
          exact List.mem_append_right _ hrest

theorem mem_placesOf {d : Entries} {key : String} {v : Value} {path : List Hop} (hv : (key, v) ∈ d)
    (hpath : path ∈ v.places) : .key key :: path ∈ Value.placesOf d := by
  induction d with
  | nil => cases hv
  | cons e d ih =>
      obtain ⟨key', w⟩ := e
      rw [Value.placesOf]
      rcases List.mem_cons.mp hv with heq | hv
      · cases heq
        exact List.mem_append_left _ (List.mem_map_of_mem hpath)
      · exact List.mem_append_right _ (ih hv)

/-- Whatever stands anywhere stands at one of the places. -/
theorem mem_places {v : Value} {path : List Hop} (h : v.at path ≠ none) : path ∈ v.places := by
  induction path generalizing v with
  | nil => exact nil_mem_places v
  | cons hop path ih =>
      cases hop with
      | key key =>
          cases v with
          | dict d =>
              rw [Value.at] at h
              cases hlookup : d.lookup key with
              | none => rw [hlookup] at h; exact absurd rfl h
              | some w =>
                  rw [hlookup] at h
                  rw [Value.places]
                  exact List.mem_cons_of_mem _ (mem_placesOf (Dict.mem_of_lookup hlookup) (ih h))
          | _ => exact absurd rfl h
      | index i =>
          cases v with
          | list xs =>
              rw [Value.at] at h
              cases hget : xs[i]? with
              | none => rw [hget] at h; exact absurd rfl h
              | some w =>
                  rw [hget] at h
                  have hmem := mem_placesFrom (i := 0) hget (ih h)
                  rw [Nat.zero_add] at hmem
                  rw [Value.places]
                  exact List.mem_cons_of_mem _ hmem
          | _ => exact absurd rfl h

theorem equal_iff_places {v w : Value} :
    v.Equal w ↔ ∀ path ∈ v.places ++ w.places, v.at path = w.at path := by
  refine ⟨fun h path _ => h path, fun h path => ?_⟩
  change v.at path = w.at path
  by_cases hv : v.at path = none
  · by_cases hw : w.at path = none
    · rw [hv, hw]
    · exact h path (List.mem_append_right _ (mem_places hw))
  · exact h path (List.mem_append_left _ (mem_places hv))

instance (v w : Value) : Decidable (v.Equal w) := decidable_of_iff _ equal_iff_places.symm

/-! ## Equal values -/

section
variable {a b c : Option Value} {v w : Value} {d e : Entries}

theorem Alike.refl (a : Option Value) : Alike a a := fun _ => rfl

theorem Alike.symm (h : Alike a b) : Alike b a := fun path => (h path).symm

theorem Alike.trans (hab : Alike a b) (hbc : Alike b c) : Alike a c := fun path => (hab path).trans (hbc path)

theorem Alike.isSome (h : Alike a b) : a.isSome = b.isSome := by
  have hhead := h []
  cases a <;> cases b <;> simp_all [Value.at]

theorem alike_none : Alike a none ↔ a = none := by
  constructor
  · intro h
    simpa using h.isSome
  · rintro rfl
    exact Alike.refl none

theorem Value.Equal.head (h : v.Equal w) : v.head = w.head := Option.some.inj (h [])

theorem truthy_eq_head (v : Value) : v.truthy = match v.head with
    | .null => false
    | .number q => decide (q ≠ 0)
    | .str s => s != ""
    | .list length => length != 0
    | .dict empty => !empty := by
  cases v with
  | null => rfl
  | bool b => cases b <;> simp [Value.truthy, Value.head]
  | num m s =>
      have hpow : (10 : ℚ) ^ s ≠ 0 := pow_ne_zero s (by norm_num)
      have hnum : ((m : ℚ) / 10 ^ s = 0) ↔ m = 0 := by
        rw [div_eq_zero_iff, or_iff_left hpow, Int.cast_eq_zero]
      by_cases hm : m = 0
      · simp [Value.truthy, Value.head, hm]
      · simp [Value.truthy, Value.head, hnum, hm]
  | str s => rfl
  | list xs => cases xs <;> rfl
  | dict d => rfl

theorem Value.Equal.truthy (h : v.Equal w) : v.truthy = w.truthy := by
  rw [truthy_eq_head, truthy_eq_head, h.head]

/-- Dictionaries are alike when, key by key, they hold the same or dictionaries that are related again. -/
theorem alike_of_simulation {R : Entries → Entries → Prop}
    (hstep : ∀ d e, R d e → ∀ key, Alike (d.lookup key) (e.lookup key) ∨
      ∃ d' e', d.lookup key = some (.dict d') ∧ e.lookup key = some (.dict e') ∧ R d' e')
    (h : R d e) : Alike (some (.dict d)) (some (.dict e)) := by
  have hsome : ∀ {d e}, R d e → ∀ key, (d.lookup key).isSome = (e.lookup key).isSome := by
    intro d e h key
    rcases hstep d e h key with halike | ⟨d', e', hd, he, _⟩
    · exact halike.isSome
    · rw [hd, he, Option.isSome_some, Option.isSome_some]
  intro path
  induction path generalizing d e with
  | nil =>
      have hempty : d.isEmpty = e.isEmpty := by
        cases d with
        | nil => cases e with
          | nil => rfl
          | cons e es => simpa using hsome h e.1
        | cons d ds => cases e with
          | nil => simpa using hsome h d.1
          | cons e es => rfl
      simp [Value.at, Value.head, hempty]
  | cons hop path ih =>
      cases hop with
      | key key =>
          change (d.lookup key).bind (Value.at path) = (e.lookup key).bind (Value.at path)
          rcases hstep d e h key with halike | ⟨d', e', hd, he, hrest⟩
          · exact halike path
          · rw [hd, he]
            exact ih hrest
      | index i => rfl

theorem alike_dict : Alike (some (.dict d)) (some (.dict e)) ↔ ∀ key, Alike (d.lookup key) (e.lookup key) := by
  constructor
  · exact fun h key path => h (.key key :: path)
  · intro h
    let R : Entries → Entries → Prop := fun d e => ∀ key, Alike (d.lookup key) (e.lookup key)
    exact alike_of_simulation (R := R) (fun _ _ h key => .inl (h key)) h

/-- What equals a dictionary is one. -/
theorem Alike.dict (h : Alike (some (.dict d)) b) : ∃ e, b = some (.dict e) := by
  have hhead := h []
  rcases b with _ | v
  · cases hhead
  · cases v with
    | dict e => exact ⟨e, rfl⟩
    | _ => cases hhead

end

end YiQiao
